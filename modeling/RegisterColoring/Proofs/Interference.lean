import RegisterColoring.Interference
import RegisterColoring.Proofs.LiveEquations

/-! Interference graphs by the calls that made them. Main statements: adjacency is symmetric and without
loops after any calls, and the graph of a listing has exactly its temporaries, each written one joined with what is live
after it. -/
namespace RegisterColoring

namespace InterferenceGraph

/-- A call that adds to a graph. -/
inductive Growth where
  | vertex (t : Temp)
  | edge (a b : Temp)
deriving DecidableEq

def Growth.temps : Growth → List Temp
  | vertex t => [t]
  | edge a b => [a, b]

def grow (g : InterferenceGraph) : Growth → InterferenceGraph
  | .vertex t => g.addVertex t
  | .edge a b => g.addEdge a b

/-- The graph after a sequence of calls on the empty one. -/
def ofGrowth (steps : List Growth) : InterferenceGraph := steps.foldl grow empty

variable {g : InterferenceGraph} {steps : List Growth} {a b t : Temp}

private theorem mem_neighbors_grow {step : Growth} :
    b ∈ (g.grow step).neighbors a ↔
      b ∈ g.neighbors a ∨ a ≠ b ∧ (step = .edge a b ∨ step = .edge b a) := by
  cases step with
  | vertex t => simp [grow]
  | edge c d =>
    simp only [grow, mem_neighbors_addEdge, Growth.edge.injEq]
    grind

private theorem mem_neighbors_foldl :
    b ∈ (steps.foldl grow g).neighbors a ↔
      b ∈ g.neighbors a ∨ a ≠ b ∧ (.edge a b ∈ steps ∨ .edge b a ∈ steps) := by
  induction steps generalizing g with
  | nil => simp
  | cons step steps ih =>
    rw [List.foldl_cons, ih, mem_neighbors_grow]
    grind

/-- Two temporaries are neighbours exactly if they differ and a call joined them, in either order. -/
theorem mem_neighbors_ofGrowth :
    b ∈ (ofGrowth steps).neighbors a ↔ a ≠ b ∧ (.edge a b ∈ steps ∨ .edge b a ∈ steps) := by
  simp [ofGrowth, mem_neighbors_foldl]

private theorem mem_vertices_foldl :
    t ∈ (steps.foldl grow g).vertices ↔ t ∈ g.vertices ∨ ∃ step ∈ steps, t ∈ step.temps := by
  induction steps generalizing g with
  | nil => simp
  | cons step steps ih =>
    rw [List.foldl_cons, ih]
    cases step <;> simp [grow, Growth.temps] <;> grind

/-- The vertices are exactly the temporaries that some call passed. -/
theorem mem_vertices_ofGrowth :
    t ∈ (ofGrowth steps).vertices ↔ ∃ step ∈ steps, t ∈ step.temps := by
  simp [ofGrowth, mem_vertices_foldl]

/-- Adjacency goes both ways, joins vertices only, and no vertex with itself. -/
structure Simple (g : InterferenceGraph) : Prop where
  symm : ∀ {a b}, b ∈ g.neighbors a → a ∈ g.neighbors b
  irrefl : ∀ {a}, a ∉ g.neighbors a
  mem_vertices : ∀ {a b}, b ∈ g.neighbors a → b ∈ g.vertices

theorem simple_ofGrowth (steps : List Growth) : (ofGrowth steps).Simple where
  symm h := by
    rw [mem_neighbors_ofGrowth] at h ⊢
    exact ⟨h.1.symm, h.2.symm⟩
  irrefl h := (mem_neighbors_ofGrowth.mp h).1 rfl
  mem_vertices h := by
    rw [mem_vertices_ofGrowth]
    rcases (mem_neighbors_ofGrowth.mp h).2 with he | he
    · exact ⟨_, he, by simp [Growth.temps]⟩
    · exact ⟨_, he, by simp [Growth.temps]⟩

private theorem getElem?_adjacency (g : InterferenceGraph) (s : Temp) :
    g.adjacency[s]? = if s ∈ g.vertices then some (g.neighbors s) else none := by
  split
  · next h =>
    rw [mem_vertices, Std.ExtTreeMap.mem_iff_isSome_getElem?, Option.isSome_iff_exists] at h
    obtain ⟨row, hrow⟩ := h
    rw [neighbors, Std.ExtTreeMap.getD_eq_getD_getElem?, hrow]
    rfl
  · next h => exact Std.ExtTreeMap.getElem?_eq_none (mt mem_vertices.mpr h)

/-- A graph is its vertices and their neighbours. -/
theorem ext_mem {g g' : InterferenceGraph} (hvertices : ∀ t, t ∈ g.vertices ↔ t ∈ g'.vertices)
    (hneighbors : ∀ s t, t ∈ g.neighbors s ↔ t ∈ g'.neighbors s) : g = g' := by
  have hadjacency : g.adjacency = g'.adjacency := by
    apply Std.ExtTreeMap.ext_getElem?
    intro s
    have hrow : g.neighbors s = g'.neighbors s := Std.ExtTreeSet.ext_mem (hneighbors s)
    rw [getElem?_adjacency, getElem?_adjacency, hrow]
    simp only [hvertices s]
  cases g
  cases g'
  exact congrArg mk hadjacency

/-- The calls that make the graph of a listing. -/
def growthOf (l : Liveness) : List Growth :=
  l.temps.toList.map .vertex ++ (conflicts l).map fun (a, b) => .edge a b

theorem ofLiveness_eq_ofGrowth (l : Liveness) : ofLiveness l = ofGrowth (growthOf l) := by
  simp only [ofLiveness, ofGrowth, growthOf, List.foldl_append, List.foldl_map]
  rfl

theorem simple_ofLiveness (l : Liveness) : (ofLiveness l).Simple :=
  ofLiveness_eq_ofGrowth l ▸ simple_ofGrowth (growthOf l)

variable {l : Liveness}

private theorem mem_conflicts : (a, b) ∈ conflicts l ↔ ∃ n, l.Writes n a ∧ l.LiveAfter n b := by
  simp only [conflicts, List.mem_flatMap, List.mem_map, Prod.mk.injEq, Std.ExtTreeSet.mem_toList,
    Liveness.writes_iff, Liveness.liveAfter_iff]
  constructor
  · rintro ⟨⟨node, sets⟩, hm, written, hw, needed, hn, rfl, rfl⟩
    obtain ⟨n, hz⟩ := List.mem_iff_getElem?.mp hm
    obtain ⟨hnode, hsets⟩ := List.getElem?_zip_eq_some.mp hz
    exact ⟨n, ⟨node, hnode, hw⟩, sets, hsets, hn⟩
  · rintro ⟨n, ⟨node, hnode, hw⟩, sets, hsets, hn⟩
    have hz : (l.nodes.zip l.sets)[n]? = some (node, sets) := List.getElem?_zip_eq_some.mpr ⟨hnode, hsets⟩
    exact ⟨(node, sets), List.mem_of_getElem? hz, a, hw, b, hn, rfl, rfl⟩

/-- The neighbours in the graph of a listing: one is written where the other is live on exit. -/
theorem mem_neighbors_ofLiveness :
    b ∈ (ofLiveness l).neighbors a ↔
      a ≠ b ∧ ∃ n, l.Writes n a ∧ l.LiveAfter n b ∨ l.Writes n b ∧ l.LiveAfter n a := by
  have hedge (a b : Temp) : Growth.edge a b ∈ growthOf l ↔ (a, b) ∈ conflicts l := by
    simp [growthOf]
  simp only [ofLiveness_eq_ofGrowth, mem_neighbors_ofGrowth, hedge, mem_conflicts, exists_or]

theorem mem_vertices_ofLiveness_of_mentioned {n : Nat} (h : l.Reads n t ∨ l.Writes n t) :
    t ∈ (ofLiveness l).vertices := by
  rw [ofLiveness_eq_ofGrowth, mem_vertices_ofGrowth]
  refine ⟨.vertex t, List.mem_append_left _ (List.mem_map_of_mem ?_), by simp [Growth.temps]⟩
  rw [Std.ExtTreeSet.mem_toList, Liveness.mem_temps]
  exact ⟨n, h⟩

/-- The vertices of the graph of a listing are the temporaries of the listing: an edge brings in no others. -/
theorem mem_vertices_ofLiveness {commands : List Command} (h : Liveness.ofCommands commands = .ok l) :
    t ∈ (ofLiveness l).vertices ↔ ∃ n, l.Reads n t ∨ l.Writes n t := by
  refine ⟨fun ht => ?_, fun ⟨n, hn⟩ => mem_vertices_ofLiveness_of_mentioned hn⟩
  rw [ofLiveness_eq_ofGrowth, mem_vertices_ofGrowth] at ht
  obtain ⟨step, hstep, ht⟩ := ht
  rcases List.mem_append.mp hstep with hvertex | hedge
  · obtain ⟨s, hs, rfl⟩ := List.mem_map.mp hvertex
    obtain rfl : t = s := by simpa [Growth.temps] using ht
    exact Liveness.mem_temps.mp (Std.ExtTreeSet.mem_toList.mp hs)
  · obtain ⟨⟨a, b⟩, hab, rfl⟩ := List.mem_map.mp hedge
    obtain ⟨n, hw, hlive⟩ := mem_conflicts.mp hab
    obtain rfl | rfl : t = a ∨ t = b := by simpa [Growth.temps] using ht
    · exact ⟨n, .inr hw⟩
    · obtain ⟨p, hr⟩ := hlive.exists_reads h
      exact ⟨p, .inl hr⟩

/-- Whatever is live somewhere in a listing is a vertex of its graph. -/
theorem mem_vertices_of_live {commands : List Command} {n : Nat} (h : Liveness.ofCommands commands = .ok l)
    (live : l.LiveBefore n t ∨ l.LiveAfter n t) : t ∈ (ofLiveness l).vertices := by
  obtain ⟨p, hr⟩ : ∃ p, l.Reads p t := live.elim (·.exists_reads h) (·.exists_reads h)
  exact mem_vertices_ofLiveness_of_mentioned (.inl hr)

theorem interferes_iff : g.interferes a b = true ↔ b ∈ g.neighbors a := Std.ExtTreeSet.contains_iff_mem

/-- The graph before its edges: the temporaries of the listing alone. -/
def edgeless (l : Liveness) : InterferenceGraph := l.temps.toList.foldl addVertex empty

theorem mem_vertices_edgeless : t ∈ (edgeless l).vertices ↔ ∃ n, l.Reads n t ∨ l.Writes n t := by
  have hgrowth : edgeless l = ofGrowth (l.temps.toList.map .vertex) := by
    rw [ofGrowth, List.foldl_map]
    rfl
  rw [hgrowth, mem_vertices_ofGrowth, ← Liveness.mem_temps, ← Std.ExtTreeSet.mem_toList]
  constructor
  · rintro ⟨_, hstep, ht⟩
    obtain ⟨s, hs, rfl⟩ := List.mem_map.mp hstep
    obtain rfl : t = s := List.mem_singleton.mp ht
    exact hs
  · intro ht
    exact ⟨.vertex t, List.mem_map_of_mem ht, List.mem_singleton_self t⟩

/-- The graph of a listing is exact. Its vertices are the temporaries that some instruction writes or reads, and they
are there before the first edge: all that is live anywhere is among them. Two temporaries interfere exactly if they
differ and one is written where the other is live on exit. -/
theorem ofLiveness_exact {commands : List Command} (h : Liveness.ofCommands commands = .ok l) :
    (∀ t, t ∈ (ofLiveness l).vertices ↔ ∃ c ∈ commands, c.def? = some t ∨ t ∈ c.uses) ∧
    (∀ t, t ∈ (ofLiveness l).vertices ↔ t ∈ (edgeless l).vertices) ∧
    (∀ n t, l.LiveBefore n t ∨ l.LiveAfter n t → t ∈ (ofLiveness l).vertices) ∧
    ∀ a b, (ofLiveness l).interferes a b = true ↔
      a ≠ b ∧ ∃ n, l.Writes n a ∧ l.LiveAfter n b ∨ l.Writes n b ∧ l.LiveAfter n a := by
  refine ⟨fun t => ?_, fun t => ?_, fun n t => mem_vertices_of_live h, fun a b => ?_⟩
  · rw [mem_vertices_ofLiveness h, ← Liveness.mem_temps, Liveness.mem_temps_iff h]
    simp [Command.temps]
  · rw [mem_vertices_ofLiveness h, mem_vertices_edgeless]
  · rw [interferes_iff, mem_neighbors_ofLiveness]

/-- A temporary to which another one from outside is added. -/
def increment : List Command := [.const ⟨0⟩ 1, .compute .add ⟨0⟩ ⟨0⟩ ⟨1⟩, .ret (some ⟨0⟩)]

/-- The two interfere both ways; the sum does not interfere with itself, though it is live where it is written. -/
theorem increment_interferes : ∃ l, Liveness.ofCommands increment = .ok l ∧ l.Writes 1 ⟨0⟩ ∧ l.LiveAfter 1 ⟨0⟩ ∧
    (ofLiveness l).interferes ⟨0⟩ ⟨0⟩ = false ∧ (ofLiveness l).interferes ⟨0⟩ ⟨1⟩ = true ∧
    (ofLiveness l).interferes ⟨1⟩ ⟨0⟩ = true ∧ ∀ t, t ∈ (ofLiveness l).vertices ↔ t = ⟨0⟩ ∨ t = ⟨1⟩ := by
  have hok : ∃ l ∈ (Liveness.ofCommands increment).toOption, l.size = 3 := by decide +kernel
  obtain ⟨l, hl, _⟩ := exists_ok_of_toOption hok
  obtain ⟨hvertices, _, _, hinterferes⟩ := ofLiveness_exact hl
  have hstart : l.Writes 0 ⟨0⟩ := (Liveness.writes_iff_def hl rfl).mpr rfl
  have hsum : l.Writes 1 ⟨0⟩ := (Liveness.writes_iff_def hl rfl).mpr rfl
  have hterm : l.LiveAfter 0 ⟨1⟩ := (Liveness.liveAfter_iff_follows hl).mpr
    ⟨1, (Liveness.follows_iff_flow hl rfl).mpr (.inl (by decide)), Liveness.liveBefore_of_mem_uses hl rfl (by decide)⟩
  have hlive : l.LiveAfter 1 ⟨0⟩ := (Liveness.liveAfter_iff_follows hl).mpr
    ⟨2, (Liveness.follows_iff_flow hl rfl).mpr (.inl (by decide)), Liveness.liveBefore_of_mem_uses hl rfl (by decide)⟩
  refine ⟨l, hl, hsum, hlive, ?_, ?_, ?_, fun t => ?_⟩
  · rw [← Bool.not_eq_true, hinterferes]
    exact fun h => h.1 rfl
  · exact (hinterferes _ _).mpr ⟨by decide, 0, .inl ⟨hstart, hterm⟩⟩
  · exact (hinterferes _ _).mpr ⟨by decide, 0, .inr ⟨hstart, hterm⟩⟩
  · rw [hvertices]
    grind [increment, Command.def?, Command.uses]

end InterferenceGraph
end RegisterColoring

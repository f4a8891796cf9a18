import RegisterColoring.Proofs.Renaming
import RegisterColoring.Proofs.SharedRegisters

/-! Allocations for listings of the same shape. Main statement: such listings get the same registers, or fail alike, so
an allocation depends on no name, operator, constant or address, and on temporaries by their order only. -/
namespace RegisterColoring

variable {f : Temp → Temp} {support : List Temp} {g g' : InterferenceGraph} {k : Nat}

namespace InterferenceGraph
open TempSet

/-- The second graph is the first one with its temporaries renamed. -/
structure Renamed (f : Temp → Temp) (support : List Temp) (g g' : InterferenceGraph) : Prop where
  vertices : g'.vertices = g.vertices.map f
  neighbors : ∀ t ∈ support, g'.neighbors (f t) = TempSet.rename f (g.neighbors t)
  inside : ∀ t ∈ support, Inside (g.neighbors t) support

namespace Renamed
variable {s t : Temp}

theorem degree_eq (h : Renamed f support g g') (hf : Temp.AscendingOn f support) (ht : t ∈ support) :
    g'.degree (f t) = g.degree t := by
  rw [degree, degree, h.neighbors t ht, size_rename hf (h.inside t ht)]

theorem contains_eq (h : Renamed f support g g') (hf : Temp.AscendingOn f support) (hs : s ∈ support)
    (ht : t ∈ support) : (g'.neighbors (f s)).contains (f t) = (g.neighbors s).contains t := by
  rw [h.neighbors s hs, Bool.eq_iff_iff]
  exact apply_mem_rename hf (h.inside s hs) ht

end Renamed

/-- The graph of a listing of the same shape is that of the other with its temporaries renamed. -/
theorem renamed_ofLiveness {commands commands' : List Command} {l : Liveness} (hf : Temp.AscendingOn f support)
    (h : Liveness.ofCommands commands = .ok l) (h' : Liveness.ofCommands commands' = .ok (l.rename f))
    (hs : ∀ t ∈ (ofLiveness l).vertices, t ∈ support) :
    Renamed f support (ofLiveness l) (ofLiveness (l.rename f)) := by
  have hsimple := simple_ofLiveness l
  have hwrites {n : Nat} {t : Temp} (ht : l.Writes n t) : t ∈ support :=
    hs t (mem_vertices_ofLiveness_of_mentioned (.inr ht))
  have hlive {n : Nat} {t : Temp} (ht : l.LiveAfter n t) : t ∈ support := by
    obtain ⟨p, hr⟩ := ht.exists_reads h
    exact hs t (mem_vertices_ofLiveness_of_mentioned (.inl hr))
  refine ⟨?_, fun a ha => ?_, fun a _ b hb => hs b (hsimple.mem_vertices hb)⟩
  · apply Temp.eq_of_ascending (Elimination.pairwise_vertices _) (hf.pairwise_map hs (Elimination.pairwise_vertices _))
    intro t
    rw [mem_vertices_ofLiveness h', List.mem_map]
    simp only [Liveness.reads_rename, Liveness.writes_rename, mem_vertices_ofLiveness h]
    grind
  · apply Std.ExtTreeSet.ext_mem
    intro t
    rw [mem_rename, mem_neighbors_ofLiveness]
    simp only [Liveness.writes_rename, Liveness.liveAfter_rename, mem_neighbors_ofLiveness]
    constructor
    · rintro ⟨hne, n, ⟨⟨u, hu, hua⟩, b, hb, rfl⟩ | ⟨⟨b, hb, rfl⟩, u, hu, hua⟩⟩
      · obtain rfl := hf.inj (hwrites hu) ha hua
        exact ⟨b, ⟨fun hab => hne (congrArg f hab), n, .inl ⟨hu, hb⟩⟩, rfl⟩
      · obtain rfl := hf.inj (hlive hu) ha hua
        exact ⟨b, ⟨fun hab => hne (congrArg f hab), n, .inr ⟨hb, hu⟩⟩, rfl⟩
    · rintro ⟨b, ⟨hne, n, ⟨hw, hb⟩ | ⟨hb, hw⟩⟩, rfl⟩
      · exact ⟨fun hab => hne (hf.inj ha (hlive hb) hab), n, .inl ⟨⟨a, hw, rfl⟩, b, hb, rfl⟩⟩
      · exact ⟨fun hab => hne (hf.inj ha (hwrites hb) hab), n, .inr ⟨⟨b, hb, rfl⟩, a, hw, rfl⟩⟩

end InterferenceGraph

/-! ### The order of the vertices -/

def Entry.rename (f : Temp → Temp) (e : Entry) : Entry := ⟨f e.temp, e.degree⟩

namespace Elimination
open InterferenceGraph
variable {entries : List Entry} {e : Entry}

def rename (f : Temp → Temp) (elimination : Elimination) : Elimination :=
  ⟨elimination.removed.map (Entry.rename f), elimination.stuck.map (Entry.rename f)⟩

theorem map_temp_rename (f : Temp → Temp) (entries : List Entry) :
    (entries.map (Entry.rename f)).map Entry.temp = (entries.map Entry.temp).map f := by
  rw [List.map_map, List.map_map]
  rfl

theorem stack_rename (f : Temp → Temp) (elimination : Elimination) :
    (elimination.rename f).stack = elimination.stack.map f := by
  rw [stack, stack, rename, map_temp_rename, List.map_reverse]

theorem counted_rename (h : Renamed f support g g') (hf : Temp.AscendingOn f support)
    (hs : ∀ t ∈ g.vertices, t ∈ support) : counted g' = (counted g).map (Entry.rename f) := by
  rw [counted, counted, h.vertices, List.map_map, List.map_map]
  apply List.map_congr_left
  intro t ht
  exact congrArg (Entry.mk (f t)) (h.degree_eq hf (hs t ht))

/-- One step takes the same vertex out of both worklists. -/
theorem without_rename (h : Renamed f support g g') (hf : Temp.AscendingOn f support)
    (hs : ∀ d ∈ entries, d.temp ∈ support) (he : e ∈ entries) :
    without k (g'.neighbors (f e.temp)) (entries.map (Entry.rename f)) =
      (without k (g.neighbors e.temp) entries).map (Entry.rename f) := by
  rw [without, without, List.eraseP_map, List.map_map, List.map_map]
  apply List.map_congr_left
  intro d hd
  have hsame := h.contains_eq hf (hs e he) (hs d (List.mem_of_mem_eraseP hd))
  simp only [Function.comp_apply, Entry.rename, hsame]
  split <;> rfl

theorem Eliminates.rename {result : Elimination} (hr : Renamed f support g g') (hf : Temp.AscendingOn f support)
    (h : Eliminates g k entries result) (hs : ∀ d ∈ entries, d.temp ∈ support) :
    Eliminates g' k (entries.map (Entry.rename f)) (result.rename f) := by
  have hfind (entries : List Entry) : (entries.map (Entry.rename f)).find? (·.degree < k) =
      (entries.find? (·.degree < k)).map (Entry.rename f) := List.find?_map
  induction h with
  | stop hnone =>
    apply Eliminates.stop
    rw [hfind, hnone, Option.map_none]
  | @next entries e rest hsome hvertex _ ih =>
    have hsome' : (entries.map (Entry.rename f)).find? (·.degree < k) = some (e.rename f) := by
      rw [hfind, hsome, Option.map_some]
    have hvertex' : f e.temp ∈ g'.vertices := hr.vertices ▸ List.mem_map_of_mem hvertex
    have hleft : ∀ d ∈ without k (g.neighbors e.temp) entries, d.temp ∈ support := by
      intro d hd
      have hmem := (perm_without _ hsome).subset (List.mem_cons_of_mem _ (List.mem_map_of_mem hd))
      obtain ⟨old, hold, heq⟩ := List.mem_map.mp hmem
      exact heq ▸ hs old hold
    have hrest := ih hleft
    rw [← without_rename hr hf hs (List.mem_of_find?_eq_some hsome)] at hrest
    exact .next hsome' hvertex' hrest

theorem ofGraph_rename {result : Elimination} (hr : Renamed f support g g') (hf : Temp.AscendingOn f support)
    (hs : ∀ t ∈ g.vertices, t ∈ support) (h : ofGraph g k = .ok result) : ofGraph g' k = .ok (result.rename f) := by
  rw [ofGraph_eq_ok_iff] at h ⊢
  rw [counted_rename hr hf hs]
  apply h.rename hr hf
  intro d hd
  obtain ⟨t, ht, rfl⟩ := List.mem_map.mp hd
  exact hs t ht

end Elimination

/-! ### Colors -/

namespace Allocation
open InterferenceGraph Elimination TempSet
variable {labels : String → String} {pool : RegisterPool}

/-- Temporaries have the same color under both names. -/
def Agree (f : Temp → Temp) (support : List Temp) (start start' : Std.ExtTreeMap Temp Nat) : Prop :=
  ∀ t ∈ support, start'[f t]? = start[t]?

variable {start start' : Std.ExtTreeMap Temp Nat} {t : Temp} {ts : List Temp}

theorem Agree.insert (h : Agree f support start start') (hf : Temp.AscendingOn f support) (ht : t ∈ support)
    (index : Nat) : Agree f support (start.insert t index) (start'.insert (f t) index) := by
  intro s hs
  simp only [Std.ExtTreeMap.getElem?_insert, Std.LawfulEqCmp.compare_eq_iff_eq]
  by_cases hts : t = s
  · rw [if_pos hts, if_pos (congrArg f hts)]
  · rw [if_neg hts, if_neg fun heq => hts (hf.inj ht hs heq)]
    exact h s hs

theorem Agree.taken_eq (h : Agree f support start start') (hf : Temp.AscendingOn f support)
    (hr : Renamed f support g g') (ht : t ∈ support) :
    (g'.neighbors (f t)).toList.filterMap (start'[·]?) = (g.neighbors t).toList.filterMap (start[·]?) := by
  rw [hr.neighbors t ht, toList_rename hf (hr.inside t ht), List.filterMap_map]
  apply List.filterMap_congr
  intro s hs
  exact h s (hr.inside t ht s (Std.ExtTreeSet.mem_toList.mp hs))

theorem mirrors_select (hr : Renamed f support g g') (hf : Temp.AscendingOn f support)
    (hs : ∀ t ∈ g.vertices, t ∈ support) (hts : ∀ t ∈ ts, t ∈ g.vertices) (h : Agree f support start start') :
    Mirrors (Agree f support) (Fault.rename f labels) (select g k ts start) (select g' k (ts.map f) start') := by
  induction ts generalizing start start' with
  | nil => exact .ok h
  | cons t ts ih =>
    obtain ⟨ht, hts⟩ := List.forall_mem_cons.mp hts
    have ht' : f t ∈ g'.vertices := hr.vertices ▸ List.mem_map_of_mem ht
    rw [List.map_cons, select, select, neighborsOf_of_mem ht, neighborsOf_of_mem ht']
    simp only [bind, Except.bind, h.taken_eq hf hr (hs t ht)]
    split
    · exact ih hts (h.insert hf (hs t ht) _)
    · exact .error (Fault.tooFewRegisters k [t])

/-- Graphs of the same shape get the same colors, or the same vertices are left over. -/
theorem mirrors_color (hr : Renamed f support g g') (hf : Temp.AscendingOn f support)
    (hs : ∀ t ∈ g.vertices, t ∈ support) (pool : RegisterPool) :
    Mirrors (fun a a' => a'.pool = a.pool ∧ Agree f support a.assignment a'.assignment) (Fault.rename f labels)
      (color g pool) (color g' pool) := by
  obtain ⟨elimination, h⟩ := exists_ofGraph g pool.size
  have h' := ofGraph_rename hr hf hs h
  by_cases hstuck : elimination.stuck = []
  · have hstuck' : (elimination.rename f).stuck = [] := List.map_eq_nil_iff.mpr hstuck
    have hempty : Agree f support ∅ ∅ := fun t _ => by simp
    rw [color_of_stuck_eq_nil h hstuck, color_of_stuck_eq_nil h' hstuck', stack_rename]
    exact (mirrors_select hr hf hs (fun t => mem_vertices_of_mem_stack h) hempty).map fun a a' h => ⟨rfl, h⟩
  · have hstuck' : (elimination.rename f).stuck ≠ [] := mt List.map_eq_nil_iff.mp hstuck
    rw [color_of_stuck_ne_nil h hstuck, color_of_stuck_ne_nil h' hstuck', Elimination.rename, map_temp_rename]
    exact .error (Fault.tooFewRegisters pool.size (elimination.stuck.map Entry.temp))

variable {a a' : Allocation}

theorem Valid.keys_eq (h : a.Valid g) : a.assignment.keys = g.vertices := by
  have hkeys : a.assignment.keys.Pairwise (· < ·) := a.assignment.ordered_keys.imp fun hlt => Temp.compare_eq_lt.mp hlt
  apply Temp.eq_of_ascending hkeys (pairwise_vertices g)
  intro t
  rw [Std.ExtTreeMap.mem_keys, h.mem_iff]

/-- The same registers for the vertices under both names are the same lines of the table. -/
theorem entries_rename (hr : Renamed f support g g') (hs : ∀ t ∈ g.vertices, t ∈ support) (h : a.Valid g)
    (h' : a'.Valid g') (hregister : ∀ t ∈ support, a'.register? (f t) = a.register? t) :
    a'.entries = a.entries.map (Prod.map f id) := by
  rw [entries, entries, h'.keys_eq, h.keys_eq, hr.vertices, List.filterMap_map, List.map_filterMap]
  apply List.filterMap_congr
  intro t ht
  rw [Function.comp_apply, hregister t (hs t ht), Option.map_map]
  rfl

end Allocation

/-! ### Runs -/

namespace Run
variable {labels : String → String} {commands commands' : List Command}

/-- The second run went as the first one, with its temporaries renamed. -/
structure Renamed (f : Temp → Temp) (support : List Temp) (run run' : Run) : Prop where
  iterations : run'.liveness.iterations = run.liveness.iterations
  liveIn : ∀ n, run'.liveness.liveIn n = (run.liveness.liveIn n).map (TempSet.rename f)
  liveOut : ∀ n, run'.liveness.liveOut n = (run.liveness.liveOut n).map (TempSet.rename f)
  defs : ∀ n, run'.liveness.defs n = (run.liveness.defs n).map (TempSet.rename f)
  uses : ∀ n, run'.liveness.uses n = (run.liveness.uses n).map (TempSet.rename f)
  graph : InterferenceGraph.Renamed f support run.graph run'.graph
  index? : ∀ t ∈ support, run'.allocation.index? (f t) = run.allocation.index? t
  register? : ∀ t ∈ support, run'.allocation.register? (f t) = run.allocation.register? t
  entries : run'.allocation.entries = run.allocation.entries.map (Prod.map f id)

/-- Listings of the same shape get the same registers from a pool, or fail alike. -/
theorem mirrors_of_same_shape (hf : Temp.AscendingOn f support) (hs : ∀ t ∈ Listing.temps commands, t ∈ support)
    (hlabels : Function.Injective labels) (h : List.Forall₂ (Command.Renamed f labels) commands commands')
    (pool : RegisterPool) :
    Mirrors (Renamed f support) (Fault.rename f labels) (ofCommands commands pool) (ofCommands commands' pool) := by
  have hmentioned : ∀ c ∈ commands, ∀ t ∈ c.temps, t ∈ support := fun c hc t ht =>
    hs t (List.mem_flatMap.mpr ⟨c, hc, ht⟩)
  refine (Liveness.mirrors_ofCommands hf hlabels hmentioned h).bind ?_
  rintro l _ hl hl' rfl
  have hvertices : ∀ t ∈ (InterferenceGraph.ofLiveness l).vertices, t ∈ support := by
    intro t ht
    rw [InterferenceGraph.mem_vertices_ofLiveness hl, ← Liveness.mem_temps, Liveness.mem_temps_iff hl] at ht
    obtain ⟨c, hc, hct⟩ := ht
    exact hmentioned c hc t hct
  have hgraph := InterferenceGraph.renamed_ofLiveness hf hl hl' hvertices
  refine (Allocation.mirrors_color hgraph hf hvertices pool).bind ?_
  rintro a a' ha ha' ⟨hpool, hagree⟩
  have hregister : ∀ t ∈ support, a'.register? (f t) = a.register? t := by
    intro t ht
    rw [Allocation.register?, Allocation.register?, Allocation.index?, Allocation.index?, hagree t ht, hpool]
  have hvalid := (Allocation.valid_of_color (InterferenceGraph.simple_ofLiveness l) ha).2
  have hvalid' := (Allocation.valid_of_color (InterferenceGraph.simple_ofLiveness (l.rename f)) ha').2
  exact .ok {
    iterations := congrArg Nat.succ (List.length_map _)
    liveIn := Liveness.liveIn_rename f l
    liveOut := Liveness.liveOut_rename f l
    defs := Liveness.defs_rename f l
    uses := Liveness.uses_rename f l
    graph := hgraph
    index? := hagree
    register? := hregister
    entries := Allocation.entries_rename hgraph hvertices hvalid hvalid' hregister }

/-- Tests the double of a temporary. -/
def double : List Command :=
  [.compute .add ⟨1⟩ ⟨0⟩ ⟨0⟩, .jumpIfZero ⟨1⟩ "end", .label "end", .ret (some ⟨0⟩)]

/-- Tests the square of another one. -/
def square : List Command :=
  [.compute .mul ⟨7⟩ ⟨3⟩ ⟨3⟩, .jumpIfZero ⟨7⟩ "_end", .label "_end", .ret (some ⟨3⟩)]

/-- Both get the same registers of the standard pool, and neither fits into one. -/
theorem square_mirrors_double :
    Temp.AscendingOn (fun t => ⟨4 * t.serial + 3⟩) [⟨0⟩, ⟨1⟩] ∧
    List.Forall₂ (Command.Renamed (fun t => ⟨4 * t.serial + 3⟩) ("_" ++ ·)) double square ∧
    (∃ run run', ofCommands double .standard = .ok run ∧ ofCommands square .standard = .ok run' ∧
      run'.allocation.register? ⟨3⟩ = run.allocation.register? ⟨0⟩ ∧
      run'.allocation.register? ⟨7⟩ = run.allocation.register? ⟨1⟩) ∧
    ofCommands double ⟨["a"], by decide, by decide⟩ = .error (.tooFewRegisters 1 [⟨0⟩, ⟨1⟩]) ∧
    ofCommands square ⟨["a"], by decide, by decide⟩ = .error (.tooFewRegisters 1 [⟨3⟩, ⟨7⟩]) := by
  have hf : Temp.AscendingOn (fun t => ⟨4 * t.serial + 3⟩) [⟨0⟩, ⟨1⟩] := by
    unfold Temp.AscendingOn
    decide
  have hs : ∀ t ∈ Listing.temps double, t ∈ ([⟨0⟩, ⟨1⟩] : List Temp) := by decide
  have hlabels : Function.Injective ("_" ++ · : String → String) := fun _ _ h => (String.append_right_inj "_").mp h
  have h : List.Forall₂ (Command.Renamed (fun t => ⟨4 * t.serial + 3⟩) ("_" ++ ·)) double square :=
    .cons (.compute .add .mul ⟨1⟩ ⟨0⟩ ⟨0⟩) <| .cons (.jumpIfZero ⟨1⟩ "end") <| .cons (.label "end") <|
      .cons (.ret (some ⟨0⟩)) .nil
  have hok : ∃ run ∈ (ofCommands double .standard).toOption, run.allocation.size = 2 := by decide +kernel
  obtain ⟨run, hrun, _⟩ := exists_ok_of_toOption hok
  obtain ⟨run', hrun', hrenamed⟩ := (mirrors_of_same_shape hf hs hlabels h .standard).exists_ok hrun
  have hfail : ofCommands double ⟨["a"], by decide, by decide⟩ = .error (.tooFewRegisters 1 [⟨0⟩, ⟨1⟩]) := by
    decide +kernel
  have hfail' := (mirrors_of_same_shape hf hs hlabels h ⟨["a"], by decide, by decide⟩).eq_error hfail
  exact ⟨hf, h, ⟨run, run', hrun, hrun', hrenamed.register? ⟨0⟩ (by decide), hrenamed.register? ⟨1⟩ (by decide)⟩,
    hfail, hfail'⟩

end Run
end RegisterColoring

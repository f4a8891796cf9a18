import RegisterColoring.Allocation
import RegisterColoring.Proofs.Interference

/-! What a successful coloring gives. Main statement: every vertex gets one register of the pool, nothing
else gets any, and neighbours get registers of different names. -/
namespace RegisterColoring

namespace Elimination
open InterferenceGraph
variable {g : InterferenceGraph} {k : Nat} {entries : List Entry} {e : Entry} {result : Elimination}

/-- The vertices in ascending order, each with all of its neighbours. -/
def counted (g : InterferenceGraph) : List Entry := g.vertices.map fun t => ⟨t, g.degree t⟩

theorem map_temp_counted (g : InterferenceGraph) : (counted g).map Entry.temp = g.vertices := by
  simp [counted, Function.comp_def]

/-- A worklist can be made of any graph, because it looks up vertices only. -/
theorem worklist_eq (g : InterferenceGraph) : worklist g = .ok (counted g) := by
  have hfound (ts : List Temp) (h : ∀ t ∈ ts, t ∈ g.vertices) :
      (ts.mapM fun t => return Entry.mk t (← g.degreeOf t)) = .ok (ts.map fun t => ⟨t, g.degree t⟩) := by
    induction ts with
    | nil => rfl
    | cons t ts ih =>
      obtain ⟨ht, hts⟩ := List.forall_mem_cons.mp h
      rw [List.mapM_cons, degreeOf, neighborsOf_of_mem ht, ih hts]
      rfl
  exact hfound g.vertices fun t ht => ht

/-- How an elimination goes: as long as an entry has fewer than `k` neighbours, the first of these is put aside. -/
inductive Eliminates (g : InterferenceGraph) (k : Nat) : List Entry → Elimination → Prop where
  | stop {entries : List Entry} : entries.find? (·.degree < k) = none → Eliminates g k entries ⟨[], entries⟩
  | next {entries : List Entry} {e : Entry} {rest : Elimination} : entries.find? (·.degree < k) = some e →
    e.temp ∈ g.vertices → Eliminates g k (without k (g.neighbors e.temp) entries) rest →
      Eliminates g k entries ⟨e :: rest.removed, rest.stuck⟩

theorem eliminates_of_run (h : run g k entries = .ok result) : Eliminates g k entries result := by
  fun_induction run g k entries generalizing result with
  | case1 entries hnone =>
    cases h
    exact .stop hnone
  | case2 entries e hsome ih =>
    obtain ⟨row, hrow, hstep⟩ := bind_eq_ok.mp h
    obtain ⟨hvertex, rfl⟩ := neighborsOf_eq_ok_iff.mp hrow
    obtain ⟨rest, hrest, hresult⟩ := bind_eq_ok.mp hstep
    cases hresult
    exact .next hsome hvertex (ih _ hrest)

theorem run_eq_ok_iff : run g k entries = .ok result ↔ Eliminates g k entries result := by
  refine ⟨eliminates_of_run, fun h => ?_⟩
  induction h with
  | stop hnone =>
    rw [run]
    split
    · rfl
    · next hsome => cases hnone.symm.trans hsome
  | next hsome hvertex _ ih =>
    rw [run]
    split
    · next hnone => cases hsome.symm.trans hnone
    · next hsome' =>
      cases hsome.symm.trans hsome'
      refine bind_eq_ok.mpr ⟨_, neighborsOf_of_mem hvertex, ?_⟩
      exact bind_eq_ok.mpr ⟨_, ih, rfl⟩

theorem ofGraph_eq_ok_iff : ofGraph g k = .ok result ↔ Eliminates g k (counted g) result := by
  rw [ofGraph, worklist_eq]
  exact run_eq_ok_iff

theorem map_temp_without (k : Nat) (neighbors : TempSet) (entries : List Entry) :
    (without k neighbors entries).map Entry.temp = (entries.eraseP (·.degree < k)).map Entry.temp := by
  rw [without, List.map_map]
  apply List.map_congr_left
  intro d _
  rw [Function.comp_apply]
  split <;> rfl

/-- One step takes the first entry with fewer than `k` neighbours out of the worklist and keeps the rest. -/
theorem perm_without (neighbors : TempSet) (h : entries.find? (·.degree < k) = some e) :
    (e.temp :: (without k neighbors entries).map Entry.temp).Perm (entries.map Entry.temp) := by
  obtain ⟨hk, before, after, rfl, hbefore⟩ := List.find?_eq_some_iff_append.mp h
  have herase : (before ++ e :: after).eraseP (·.degree < k) = before ++ after := by
    rw [List.eraseP_append_right _ fun d hd => by simpa using hbefore d hd, List.eraseP_cons, hk, cond_true]
  rw [map_temp_without, herase]
  exact (List.perm_middle.map Entry.temp).symm

/-- A worklist of vertices can be worked off, because each of them is found in the graph. -/
theorem exists_run (k : Nat) (h : ∀ t ∈ entries.map Entry.temp, t ∈ g.vertices) :
    ∃ result, run g k entries = .ok result := by
  simp only [run_eq_ok_iff]
  fun_induction run g k entries with
  | case1 entries hnone => exact ⟨_, .stop hnone⟩
  | case2 entries e hsome ih =>
    have hperm := perm_without (g.neighbors e.temp) hsome
    obtain ⟨rest, hrest⟩ := ih _ fun t ht => h t (hperm.subset (List.mem_cons_of_mem _ ht))
    exact ⟨_, .next hsome (h _ (hperm.subset List.mem_cons_self)) hrest⟩

theorem exists_ofGraph (g : InterferenceGraph) (k : Nat) : ∃ result, ofGraph g k = .ok result := by
  rw [ofGraph, worklist_eq]
  apply exists_run
  rw [map_temp_counted]
  exact fun t ht => ht

/-- Every entry of the worklist ends up put aside or stuck, and once only. -/
theorem Eliminates.perm (h : Eliminates g k entries result) :
    (result.removed.map Entry.temp ++ result.stuck.map Entry.temp).Perm (entries.map Entry.temp) := by
  induction h with
  | stop _ => simp
  | next hsome _ _ ih => exact (ih.cons _).trans (perm_without _ hsome)

/-- Only vertices are put aside. -/
theorem mem_vertices_of_mem_stack {t : Temp} (h : ofGraph g k = .ok result) (ht : t ∈ result.stack) :
    t ∈ g.vertices := by
  have hperm := (ofGraph_eq_ok_iff.mp h).perm
  rw [map_temp_counted] at hperm
  exact hperm.subset (List.mem_append_left _ (List.mem_reverse.mp ht))

theorem perm_stack (h : ofGraph g k = .ok result) (hstuck : result.stuck = []) : result.stack.Perm g.vertices := by
  have hperm := (ofGraph_eq_ok_iff.mp h).perm
  rw [hstuck, map_temp_counted, List.map_nil, List.append_nil] at hperm
  exact (List.reverse_perm _).trans hperm

end Elimination

namespace Allocation
open InterferenceGraph
variable {g : InterferenceGraph} {k index : Nat} {s t : Temp} {ts : List Temp}
variable {start final : Std.ExtTreeMap Temp Nat}

theorem free?_eq_some {taken : List Nat} (h : free? k taken = some index) : index < k ∧ index ∉ taken := by
  simp only [free?, List.find?_range_eq_some] at h
  exact ⟨by simpa using h.2.1, by simpa using h.1⟩

/-- Colors below `k`, different for neighbours. Some vertices may not have one yet. -/
structure Proper (g : InterferenceGraph) (k : Nat) (assignment : Std.ExtTreeMap Temp Nat) : Prop where
  below : ∀ {t : Temp} {index}, assignment[t]? = some index → index < k
  differ : ∀ {s t : Temp} {index}, t ∈ g.neighbors s → assignment[s]? = some index →
    assignment[t]? ≠ some index

theorem proper_empty (g : InterferenceGraph) (k : Nat) : Proper g k ∅ := by
  constructor <;> simp

/-- A color that no neighbour has can be given to a vertex. -/
theorem Proper.insert (hg : g.Simple) (hp : Proper g k start)
    (h : free? k ((g.neighbors t).toList.filterMap (start[·]?)) = some index) :
    Proper g k (start.insert t index) := by
  obtain ⟨hk, hfree⟩ := free?_eq_some h
  have hneighbor : ∀ s, s ∈ g.neighbors t → start[s]? ≠ some index := fun s hs hi =>
    hfree (List.mem_filterMap.mpr ⟨s, Std.ExtTreeSet.mem_toList.mpr hs, hi⟩)
  constructor
  · intro s i hi
    rw [Std.ExtTreeMap.getElem?_insert] at hi
    split at hi
    · cases hi
      exact hk
    · exact hp.below hi
  · intro a b i hb ha hi
    -- only a pair with the new vertex can clash, and it may be on either side
    simp only [Std.ExtTreeMap.getElem?_insert, Std.LawfulEqCmp.compare_eq_iff_eq] at ha hi
    by_cases hta : t = a
    · subst a
      by_cases htb : t = b
      · subst b
        exact hg.irrefl hb
      · rw [if_pos rfl] at ha
        rw [if_neg htb, ← ha] at hi
        exact hneighbor b hb hi
    · by_cases htb : t = b
      · subst b
        rw [if_pos rfl] at hi
        rw [if_neg hta, ← hi] at ha
        exact hneighbor a (hg.symm hb) ha
      · rw [if_neg hta] at ha
        rw [if_neg htb] at hi
        exact hp.differ hb ha hi

/-- To color a vertex is to find it in the graph, to find an index for it, and to color the rest. -/
theorem select_cons_eq_ok_iff : select g k (t :: ts) start = .ok final ↔ t ∈ g.vertices ∧
    ∃ index, free? k ((g.neighbors t).toList.filterMap (start[·]?)) = some index ∧
      select g k ts (start.insert t index) = .ok final := by
  rw [select, bind_eq_ok]
  constructor
  · intro h
    obtain ⟨row, hrow, h⟩ := h
    obtain ⟨ht, rfl⟩ := neighborsOf_eq_ok_iff.mp hrow
    split at h
    · next index hindex => exact ⟨ht, index, hindex, h⟩
    · cases h
  · intro h
    obtain ⟨ht, index, hindex, h⟩ := h
    refine ⟨_, neighborsOf_of_mem ht, ?_⟩
    rw [hindex]
    exact h

/-- What is no vertex cannot be colored. -/
example : select .empty 1 [⟨3⟩] ∅ = .error (.notInGraph ⟨3⟩) := rfl

/-- Selection colors what is on the stack, and keeps a proper coloring proper. -/
theorem select_eq_ok (hg : g.Simple) (h : select g k ts start = .ok final) :
    (∀ t, t ∈ final ↔ t ∈ ts ∨ t ∈ start) ∧ (Proper g k start → Proper g k final) := by
  induction ts generalizing start with
  | nil =>
    cases h
    simp
  | cons t ts ih =>
    obtain ⟨_, index, hfree, h⟩ := select_cons_eq_ok_iff.mp h
    obtain ⟨hmem, hproper⟩ := ih h
    refine ⟨fun s => ?_, fun hp => hproper (hp.insert hg hfree)⟩
    rw [hmem, Std.ExtTreeMap.mem_insert, Std.LawfulEqCmp.compare_eq_iff_eq, List.mem_cons]
    grind

variable {pool : RegisterPool} {a : Allocation}

/-- A proper coloring of exactly the vertices, with the indices of the pool. -/
structure Valid (a : Allocation) (g : InterferenceGraph) : Prop where
  mem_iff : ∀ t, t ∈ a.assignment ↔ t ∈ g.vertices
  proper : Proper g a.pool.size a.assignment

theorem color_of_stuck_eq_nil {elimination : Elimination} (h : Elimination.ofGraph g pool.size = .ok elimination)
    (hstuck : elimination.stuck = []) : color g pool = (select g pool.size elimination.stack ∅).map (⟨pool, ·⟩) := by
  rw [color, h]
  simp only [bind, Except.bind, hstuck]

theorem color_of_stuck_ne_nil {elimination : Elimination} (h : Elimination.ofGraph g pool.size = .ok elimination)
    (hstuck : elimination.stuck ≠ []) :
    color g pool = .error (.tooFewRegisters pool.size (elimination.stuck.map Entry.temp)) := by
  rw [color, h]
  simp only [bind, Except.bind]

/-- A coloring comes of a selection in which every vertex takes its turn. -/
theorem select_of_color (h : color g pool = .ok a) :
    ∃ elimination, Elimination.ofGraph g pool.size = .ok elimination ∧ elimination.stuck = [] ∧ a.pool = pool ∧
      select g pool.size elimination.stack ∅ = .ok a.assignment := by
  obtain ⟨elimination, helimination, h⟩ := bind_eq_ok.mp h
  refine ⟨elimination, helimination, ?_⟩
  split at h
  · next hstuck =>
    obtain ⟨final, hselect, rfl⟩ := map_eq_ok.mp h
    exact ⟨hstuck, rfl, hselect⟩
  · cases h

/-- If the graph can be colored at all, the coloring is valid and from the given pool. -/
theorem valid_of_color (hg : g.Simple) (h : color g pool = .ok a) : a.pool = pool ∧ a.Valid g := by
  obtain ⟨elimination, helimination, hstuck, rfl, hselect⟩ := select_of_color h
  obtain ⟨hmem, hproper⟩ := select_eq_ok hg hselect
  refine ⟨rfl, fun t => ?_, hproper (proper_empty g a.pool.size)⟩
  rw [hmem t, (Elimination.perm_stack helimination hstuck).mem_iff]
  simp

theorem mem_assignment_of_index? (h : a.index? t = some index) : t ∈ a.assignment :=
  Std.ExtTreeMap.mem_iff_isSome_getElem?.mpr (Option.isSome_of_eq_some h)

theorem mem_assignment_of_register? {name : String} (h : a.register? t = some name) :
    t ∈ a.assignment := by
  obtain ⟨index, hi, _⟩ := Option.bind_eq_some_iff.mp h
  exact mem_assignment_of_index? hi

theorem mem_entries {name : String} : (t, name) ∈ a.entries ↔ a.register? t = some name := by
  simp only [entries, List.mem_filterMap, Std.ExtTreeMap.mem_keys, Option.map_eq_some_iff, Prod.mk.injEq]
  constructor
  · rintro ⟨_, _, _, hr, rfl, rfl⟩
    exact hr
  · intro hr
    exact ⟨t, mem_assignment_of_register? hr, name, hr, rfl, rfl⟩

/-- The listing of an allocation is in strictly ascending order, so it has no temporary twice. -/
theorem pairwise_entries (a : Allocation) : (a.entries.map Prod.fst).Pairwise (· < ·) := by
  rw [List.pairwise_map, entries, List.pairwise_filterMap]
  apply a.assignment.ordered_keys.imp
  intro s t hlt _ hs _ ht
  obtain ⟨_, _, rfl⟩ := Option.map_eq_some_iff.mp hs
  obtain ⟨_, _, rfl⟩ := Option.map_eq_some_iff.mp ht
  exact Temp.compare_eq_lt.mp hlt

namespace Valid

theorem exists_register (hv : a.Valid g) (ht : t ∈ g.vertices) :
    ∃ name ∈ a.pool.names, a.register? t = some name := by
  have hsome := (hv.mem_iff t).mpr ht
  rw [Std.ExtTreeMap.mem_iff_isSome_getElem?] at hsome
  obtain ⟨index, hi⟩ := Option.isSome_iff_exists.mp hsome
  have hlt : index < a.pool.names.length := hv.proper.below hi
  refine ⟨a.pool.names[index], List.getElem_mem hlt, ?_⟩
  simp [register?, index?, hi, RegisterPool.name?, List.getElem?_eq_getElem hlt]

theorem mem_vertices (hv : a.Valid g) {name : String} (h : a.register? t = some name) : t ∈ g.vertices :=
  (hv.mem_iff t).mp (mem_assignment_of_register? h)

/-- Neighbours differ in the names of their registers, because no name stands twice in a pool. -/
theorem register?_ne (hv : a.Valid g) (h : t ∈ g.neighbors s) {name : String}
    (hs : a.register? s = some name) : a.register? t ≠ some name := by
  intro ht
  obtain ⟨i, hi, hiname⟩ := Option.bind_eq_some_iff.mp hs
  obtain ⟨j, hj, hjname⟩ := Option.bind_eq_some_iff.mp ht
  have hlt : i < a.pool.names.length := hv.proper.below hi
  have hij : i = j := (List.getElem?_inj hlt a.pool.distinct).mp (hiname.trans hjname.symm)
  subst j
  exact hv.proper.differ h hi hj

end Valid

/-- A coloring of a graph made by any calls, with any pool, gives a register of the pool to every vertex and
to no other temporary, lists each vertex once in ascending order, and tells neighbours apart by name. -/
theorem color_ofGrowth (steps : List Growth) (h : color (ofGrowth steps) pool = .ok a) :
    (∀ t, t ∈ (ofGrowth steps).vertices → ∃ name ∈ pool.names, a.register? t = some name) ∧
    (∀ t, t ∉ (ofGrowth steps).vertices → a.index? t = none ∧ a.register? t = none) ∧
    (a.entries.map Prod.fst).Pairwise (· < ·) ∧
    (∀ t name, (t, name) ∈ a.entries ↔ t ∈ (ofGrowth steps).vertices ∧ a.register? t = some name) ∧
    ∀ s t, (ofGrowth steps).interferes s t = true → a.register? s ≠ a.register? t := by
  have hg := simple_ofGrowth steps
  obtain ⟨rfl, hv⟩ := valid_of_color hg h
  refine ⟨fun t => hv.exists_register, fun t ht => ?_, pairwise_entries a, fun t name => ?_, fun s t hst => ?_⟩
  · have hnone : a.index? t = none := Std.ExtTreeMap.getElem?_eq_none fun hm => ht ((hv.mem_iff t).mp hm)
    exact ⟨hnone, by simp [register?, hnone]⟩
  · rw [mem_entries]
    exact ⟨fun hr => ⟨hv.mem_vertices hr, hr⟩, And.right⟩
  · have ht : t ∈ (ofGrowth steps).neighbors s := hst
    obtain ⟨name, _, hs⟩ := hv.exists_register (hg.mem_vertices (hg.symm ht))
    rw [hs]
    exact (hv.register?_ne ht hs).symm

/-- Two registers for a path of three vertices. -/
theorem color_path : ∃ a, color (ofGrowth [.edge ⟨0⟩ ⟨1⟩, .vertex ⟨2⟩, .edge ⟨2⟩ ⟨1⟩])
      ⟨["a", "b"], by decide, by decide⟩ = .ok a ∧ a.register? ⟨0⟩ ≠ a.register? ⟨1⟩ := by
  have hok : ∃ a ∈ (color (ofGrowth [.edge ⟨0⟩ ⟨1⟩, .vertex ⟨2⟩, .edge ⟨2⟩ ⟨1⟩])
      ⟨["a", "b"], by decide, by decide⟩).toOption, a.size = 3 := by decide +kernel
  obtain ⟨a, ha, _⟩ := exists_ok_of_toOption hok
  exact ⟨a, ha, (color_ofGrowth _ ha).2.2.2.2 ⟨0⟩ ⟨1⟩ (by decide +kernel)⟩

end Allocation
end RegisterColoring

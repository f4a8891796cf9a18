import Mathlib.Data.List.Dedup
import Mathlib.Data.Nat.Find
import Mathlib.Order.Bounds.Basic
import RegisterColoring.Proofs.Recount

/-! What it comes to that each vertex takes the least free index. Main statements: the registers in use are the first of
the pool, at most one more than the largest degree; and with more registers than any vertex has neighbours, the coloring
goes down from the last vertex, so that the size of the pool does not matter. -/
namespace RegisterColoring

namespace InterferenceGraph
variable {g : InterferenceGraph} {t : Temp}

/-- The largest number of neighbours that a vertex has. -/
def maxDegree (g : InterferenceGraph) : Nat := g.vertices.foldr (fun t most => Nat.max (g.degree t) most) 0

theorem degree_le_maxDegree (ht : t ∈ g.vertices) : g.degree t ≤ g.maxDegree := by
  unfold maxDegree
  generalize g.vertices = ts at ht
  induction ts with
  | nil => cases ht
  | cons s ts ih =>
    rw [List.foldr_cons]
    rcases List.mem_cons.mp ht with rfl | ht
    · exact Nat.le_max_left _ _
    · exact (ih ht).trans (Nat.le_max_right _ _)

end InterferenceGraph

namespace Temp
variable {lower upper : List Temp} {s t : Temp}

/-- In ascending order, what comes after a member is what is above it. -/
theorem mem_upper_iff (h : (lower ++ t :: upper).Pairwise (· < ·)) :
    s ∈ upper ↔ s ∈ lower ++ t :: upper ∧ t < s := by
  obtain ⟨_, hupper, hacross⟩ := List.pairwise_append.mp h
  constructor
  · intro hs
    exact ⟨List.mem_append_right _ (List.mem_cons_of_mem t hs), (List.pairwise_cons.mp hupper).1 s hs⟩
  · rintro ⟨hs, hlt⟩
    rcases List.mem_append.mp hs with hs | hs
    · exact absurd hlt (lt_asymm (hacross s hs t List.mem_cons_self))
    · exact (List.mem_cons.mp hs).resolve_left (ne_of_lt hlt).symm

end Temp

namespace Elimination
open InterferenceGraph
variable {g : InterferenceGraph} {k : Nat} {e : Entry} {entries : List Entry} {result : Elimination}

/-- When the first entry goes, the others keep their order, and none has more neighbours than before. -/
theorem without_cons (neighbors : TempSet) (entries : List Entry) (hlow : e.degree < k) :
    (without k neighbors (e :: entries)).map Entry.temp = entries.map Entry.temp ∧
      ((∀ d ∈ entries, d.degree < k) → ∀ d ∈ without k neighbors (e :: entries), d.degree < k) := by
  have herase : (e :: entries).eraseP (·.degree < k) = entries := List.eraseP_cons_of_pos (by simpa using hlow)
  constructor
  · rw [map_temp_without, herase]
  · intro hall d hd
    rw [without, herase] at hd
    obtain ⟨old, hold, rfl⟩ := List.mem_map.mp hd
    have hk := hall old hold
    split
    · exact Nat.lt_of_le_of_lt (Nat.sub_le _ _) hk
    · exact hk

/-- If all have fewer than `k` neighbours, they are put aside as they come. -/
theorem Eliminates.of_low (h : Eliminates g k entries result) (hall : ∀ e ∈ entries, e.degree < k) :
    result.removed.map Entry.temp = entries.map Entry.temp ∧ result.stuck = [] := by
  induction h with
  | @stop entries hnone =>
    cases entries with
    | nil => exact ⟨rfl, rfl⟩
    | cons e entries =>
      have hlow := hall e List.mem_cons_self
      simp [hlow] at hnone
  | @next entries e rest hsome _ _ ih =>
    cases entries with
    | nil => cases hsome
    | cons d entries =>
      have hlow := hall d List.mem_cons_self
      rw [List.find?_cons_of_pos (by simpa using hlow)] at hsome
      cases hsome
      obtain ⟨htemps, hdegrees⟩ := without_cons (g.neighbors e.temp) entries hlow
      obtain ⟨hremoved, hstuck⟩ := ih (hdegrees fun d he => hall d (List.mem_cons_of_mem e he))
      rw [htemps] at hremoved
      exact ⟨congrArg (e.temp :: ·) hremoved, hstuck⟩

theorem ofGraph_of_low (h : ofGraph g k = .ok result) (hall : ∀ t ∈ g.vertices, g.degree t < k) :
    result.stack = g.vertices.reverse ∧ result.stuck = [] := by
  have hentries : ∀ e ∈ counted g, e.degree < k := by
    intro e he
    obtain ⟨t, ht, rfl⟩ := List.mem_map.mp he
    exact hall t ht
  obtain ⟨hremoved, hstuck⟩ := (ofGraph_eq_ok_iff.mp h).of_low hentries
  rw [map_temp_counted] at hremoved
  exact ⟨congrArg List.reverse hremoved, hstuck⟩

end Elimination

namespace Allocation
open InterferenceGraph Elimination
variable {g : InterferenceGraph} {k index : Nat} {t : Temp} {ts : List Temp} {index? : Temp → Option Nat}
  {pool : RegisterPool} {a : Allocation}

theorem greedy_of_color (hg : g.Simple) (h : color g pool = .ok a) :
    ∃ elimination, ofGraph g pool.size = .ok elimination ∧ elimination.stack.Perm g.vertices ∧
      Greedy g pool.size elimination.stack a.index? := by
  obtain ⟨elimination, helimination, hstuck, _, hselect⟩ := select_of_color h
  have hperm := perm_stack helimination hstuck
  have hnodup := Temp.nodup_of_ascending (pairwise_vertices g)
  exact ⟨elimination, helimination, hperm, greedy_of_select hg (hperm.nodup_iff.mpr hnodup) hselect⟩

theorem Valid.mem_vertices_of_index? (hv : a.Valid g) (hindex : a.index? t = some index) : t ∈ g.vertices :=
  (hv.mem_iff t).mp (mem_assignment_of_index? hindex)

/-- The index of a vertex is below `k`, and all below it have gone to neighbours. -/
theorem Greedy.of_mem (h : Greedy g k ts index?) (ht : t ∈ ts) (hindex : index? t = some index) :
    index < k ∧ ∀ lower < index, ∃ s, s ∈ g.neighbors t ∧ index? s = some lower := by
  obtain ⟨before, after, rfl⟩ := List.append_of_mem ht
  obtain ⟨i, hk, hi, _, hlower⟩ := h before t after rfl
  cases hi.symm.trans hindex
  refine ⟨hk, fun lower hlt => ?_⟩
  obtain ⟨s, _, hs⟩ := hlower lower hlt
  exact ⟨s, hs⟩

/-- No vertex needs an index above the number of its neighbours. -/
theorem Greedy.le_degree (h : Greedy g k ts index?) (ht : t ∈ ts) (hindex : index? t = some index) :
    index ≤ g.degree t := by
  have hheld : List.range index ⊆ (g.neighbors t).toList.filterMap index? := by
    intro lower hlt
    obtain ⟨s, hs, hlower⟩ := (h.of_mem ht hindex).2 lower (List.mem_range.mp hlt)
    exact List.mem_filterMap.mpr ⟨s, Std.ExtTreeSet.mem_toList.mpr hs, hlower⟩
  calc index = (List.range index).length := List.length_range.symm
    _ ≤ ((g.neighbors t).toList.filterMap index?).length :=
      (List.subperm_of_subset List.nodup_range hheld).length_le
    _ ≤ (g.neighbors t).toList.length := List.length_filterMap_le _ _
    _ = g.degree t := Std.ExtTreeSet.length_toList

/-! ### Registers in use -/

theorem mem_values : index ∈ a.assignment.values ↔ ∃ t, a.index? t = some index := by
  -- the library has no lemma on the values of such a map, but they are collected by a fold
  have hfold : a.assignment.values = a.assignment.foldr (fun _ i indices => i :: indices) [] := rfl
  rw [hfold, Std.ExtTreeMap.foldr_eq_foldr_toList]
  simp [List.foldr_cons_eq_append, Std.ExtTreeMap.mem_toList_iff_getElem?_eq_some, index?]

theorem mem_used {name : String} : name ∈ a.used ↔ ∃ t, a.register? t = some name := by
  simp only [used, List.mem_filterMap, Prod.exists, List.mem_zipIdx_iff_getElem?, Option.ite_none_right_eq_some,
    Option.some.injEq, mem_values]
  constructor
  · rintro ⟨_, index, hname, ⟨t, hindex⟩, rfl⟩
    exact ⟨t, Option.bind_eq_some_iff.mpr ⟨index, hindex, hname⟩⟩
  · rintro ⟨t, ht⟩
    obtain ⟨index, hindex, hname⟩ := Option.bind_eq_some_iff.mp ht
    exact ⟨name, index, hname, ⟨t, hindex⟩, rfl⟩

/-- The number of different registers that temporaries have. -/
def registerCount (a : Allocation) : Nat := (a.entries.map Prod.snd).dedup.length

theorem mem_registers {name : String} : name ∈ (a.entries.map Prod.snd).dedup ↔ ∃ t, a.register? t = some name := by
  simp [List.mem_dedup, mem_entries]

private theorem filterMap_zipIdx_lt (names : List String) (first m : Nat) :
    (names.zipIdx first).filterMap (fun (name, index) => if index < first + m then some name else none) =
      names.take m := by
  induction names generalizing first m with
  | nil => simp
  | cons name names ih =>
    cases m with
    | zero =>
      rw [List.take_zero, List.filterMap_eq_nil_iff]
      intro pair hpair
      exact if_neg (Nat.not_lt_of_le (List.le_snd_of_mem_zipIdx hpair))
    | succ m =>
      have hrest := ih (first + 1) m
      rw [Nat.succ_add_eq_add_succ] at hrest
      simp [List.zipIdx_cons, hrest]

/-- Together the vertices have the indices below some number, because no index is passed over. -/
theorem Greedy.exists_bound (h : Greedy g k ts index?) (hts : ∀ {t i}, index? t = some i → t ∈ ts) :
    ∃ m ≤ k, ∀ index, (∃ t, index? t = some index) ↔ index < m := by
  classical
  have hk : ¬ ∃ t, index? t = some k := fun ⟨t, ht⟩ => Nat.lt_irrefl k (h.of_mem (hts ht) ht).1
  have hunused : ∃ i, ¬ ∃ t, index? t = some i := ⟨k, hk⟩
  -- the bound is the least index that nothing has: a vertex with a higher one would have a neighbour with it
  refine ⟨Nat.find hunused, Nat.find_min' hunused hk, fun index => ⟨?_, fun hlt => ?_⟩⟩
  · rintro ⟨t, ht⟩
    by_contra hge
    rcases Nat.lt_or_eq_of_le (Nat.le_of_not_lt hge) with hlt | heq
    · obtain ⟨s, _, hs⟩ := (h.of_mem (hts ht) ht).2 _ hlt
      exact Nat.find_spec hunused ⟨s, hs⟩
    · exact Nat.find_spec hunused ⟨t, heq ▸ ht⟩
  · exact not_not.mp (Nat.find_min hunused hlt)

theorem used_of_bound {m : Nat} (h : ∀ index, (∃ t, a.index? t = some index) ↔ index < m) :
    a.used = a.pool.names.take m := by
  have htake := filterMap_zipIdx_lt a.pool.names 0 m
  rw [Nat.zero_add] at htake
  simp only [used, mem_values, h]
  exact htake

theorem registerCount_eq (h : a.used.Nodup) : a.registerCount = a.used.length := by
  apply List.Perm.length_eq
  rw [List.perm_ext_iff_of_nodup (List.nodup_dedup _) h]
  intro name
  rw [mem_registers, mem_used]

/-- A coloring of a graph made by any calls, with any pool, uses the first registers of the pool and leaves out none in
between. Their number is at most one more than the largest degree. -/
theorem used_eq_take (steps : List Growth) (h : color (ofGrowth steps) pool = .ok a) :
    a.used = pool.names.take a.registerCount ∧ a.registerCount ≤ pool.size ∧
      (∀ name, name ∈ a.used ↔ ∃ t ∈ (ofGrowth steps).vertices, a.register? t = some name) ∧
      a.registerCount ≤ (ofGrowth steps).maxDegree + 1 := by
  have hg := simple_ofGrowth steps
  obtain ⟨elimination, _, hperm, hgreedy⟩ := greedy_of_color hg h
  obtain ⟨rfl, hv⟩ := valid_of_color hg h
  have hstack {t : Temp} {i : Nat} (hi : a.index? t = some i) : t ∈ elimination.stack :=
    hperm.mem_iff.mpr (hv.mem_vertices_of_index? hi)
  obtain ⟨m, hm, hbound⟩ := hgreedy.exists_bound hstack
  have hused := used_of_bound hbound
  have hcount : a.registerCount = m := by
    have hnodup : a.used.Nodup := hused ▸ a.pool.distinct.sublist (List.take_sublist m a.pool.names)
    rw [registerCount_eq hnodup, hused, List.length_take]
    exact Nat.min_eq_left hm
  rw [hcount]
  refine ⟨hused, hm, fun name => ?_, ?_⟩
  · rw [mem_used]
    exact ⟨fun ⟨t, ht⟩ => ⟨t, hv.mem_vertices ht, ht⟩, fun ⟨t, _, ht⟩ => ⟨t, ht⟩⟩
  · cases m with
    | zero => exact Nat.zero_le _
    | succ last =>
      obtain ⟨t, ht⟩ := (hbound last).mpr (Nat.lt_succ_self last)
      apply Nat.succ_le_succ
      calc last ≤ (ofGrowth steps).degree t := hgreedy.le_degree (hstack ht) ht
        _ ≤ (ofGrowth steps).maxDegree := degree_le_maxDegree (hv.mem_vertices_of_index? ht)

/-- The triangle takes the first three of four registers, and its tail none of its own. -/
theorem used_triangleWithTail :
    ∃ a, color (ofGrowth triangleWithTail) ⟨["a", "b", "c", "d"], by decide, by decide⟩ = .ok a ∧
      a.used = ["a", "b", "c"] := by
  have hok : ∃ a ∈ (color (ofGrowth triangleWithTail) ⟨["a", "b", "c", "d"], by decide, by decide⟩).toOption,
      a.registerCount = 3 := by
    decide +kernel
  obtain ⟨a, ha, hcount⟩ := exists_ok_of_toOption hok
  have hused := (used_eq_take triangleWithTail ha).1
  rw [hcount] at hused
  exact ⟨a, ha, hused⟩

/-! ### More registers than neighbours -/

/-- The indices that no neighbour above a vertex has. -/
def freeAbove (g : InterferenceGraph) (index? : Temp → Option Nat) (t : Temp) : Set Nat :=
  {i | ∀ s, s ∈ g.neighbors t → t < s → index? s ≠ some i}

/-- Each vertex has the least index that none of its neighbours above it has, and nothing else has an index. -/
structure Descending (g : InterferenceGraph) (index? : Temp → Option Nat) : Prop where
  least : ∀ t ∈ g.vertices, ∃ index, index? t = some index ∧ IsLeast (freeAbove g index? t) index
  none : ∀ t, t ∉ g.vertices → index? t = none

/-- Going down, the vertices colored before one are those above it. -/
theorem Greedy.descending (hg : g.Simple) (h : Greedy g k g.vertices.reverse index?)
    (hnone : ∀ t, t ∉ g.vertices → index? t = none) : Descending g index? := by
  refine ⟨fun t ht => ?_, hnone⟩
  obtain ⟨lower, upper, hsplit⟩ := List.append_of_mem ht
  have hupper (s : Temp) : s ∈ upper.reverse ↔ s ∈ g.vertices ∧ t < s := by
    rw [List.mem_reverse, Temp.mem_upper_iff (hsplit ▸ pairwise_vertices g), hsplit]
  obtain ⟨index, _, hindex, hfree, htaken⟩ := h upper.reverse t lower.reverse (by simp [hsplit])
  refine ⟨index, hindex, fun s hs hlt => ?_, fun i hi => ?_⟩
  · exact hfree s ((hupper s).mpr ⟨hg.mem_vertices hs, hlt⟩) hs
  · by_contra hlt
    obtain ⟨s, hs, hneighbor, hsame⟩ := htaken i (Nat.lt_of_not_le hlt)
    exact hi s hneighbor ((hupper s).mp hs).2 hsame

/-- The rule settles the indices from the last vertex down. -/
private theorem Descending.agree (hg : g.Simple) {other : Temp → Option Nat} (h : Descending g index?)
    (h' : Descending g other) {lower upper : List Temp} (hsplit : g.vertices = lower ++ upper) :
    ∀ t ∈ upper, index? t = other t := by
  induction upper generalizing lower with
  | nil => simp
  | cons t upper ih =>
    have habove : ∀ s ∈ upper, index? s = other s :=
      ih (hsplit.trans (List.append_assoc lower [t] upper).symm)
    have ht : t ∈ g.vertices := hsplit ▸ List.mem_append_right lower List.mem_cons_self
    obtain ⟨i, hi, hleast⟩ := h.least t ht
    obtain ⟨j, hj, hleast'⟩ := h'.least t ht
    -- what is free for a vertex depends on the vertices above it only, where both agree
    have hfree : freeAbove g index? t = freeAbove g other t := by
      ext i
      apply forall₃_congr
      intro s hs hlt
      have hupper : s ∈ upper :=
        (Temp.mem_upper_iff (hsplit ▸ pairwise_vertices g)).mpr ⟨hsplit ▸ hg.mem_vertices hs, hlt⟩
      rw [habove s hupper]
    rw [hfree] at hleast
    intro s hs
    rcases List.mem_cons.mp hs with rfl | hs
    · rw [hi, hj, hleast.unique hleast']
    · exact habove s hs

theorem Descending.unique (hg : g.Simple) {other : Temp → Option Nat} (h : Descending g index?)
    (h' : Descending g other) : index? = other := by
  funext t
  by_cases ht : t ∈ g.vertices
  · exact h.agree hg h' (List.nil_append g.vertices).symm t ht
  · rw [h.none t ht, h'.none t ht]

/-- A pool with more registers than any vertex has neighbours. -/
def Ample (g : InterferenceGraph) (pool : RegisterPool) : Prop := ∀ t ∈ g.vertices, g.degree t < pool.size

theorem exists_color_of_ample (hg : g.Simple) (h : Ample g pool) :
    ∃ a, color g pool = .ok a ∧ Descending g a.index? := by
  obtain ⟨elimination, helimination⟩ := exists_ofGraph g pool.size
  obtain ⟨hstack, hstuck⟩ := ofGraph_of_low helimination h
  rcases color_eq hg helimination with ⟨_, a, ha⟩ | ⟨hne, _⟩
  · obtain ⟨_, hsame, _, hgreedy⟩ := greedy_of_color hg ha
    cases helimination.symm.trans hsame
    rw [hstack] at hgreedy
    have hv := (valid_of_color hg ha).2
    refine ⟨a, ha, hgreedy.descending hg fun t ht => ?_⟩
    exact Std.ExtTreeMap.getElem?_eq_none (mt (hv.mem_iff t).mp ht)
  · exact absurd hstuck hne

/-- With more registers than any vertex has neighbours, a graph made by any calls is colored from its last vertex down,
each vertex with the least index that no neighbour above it has. So all such pools give the same indices. -/
theorem color_of_ample (steps : List Growth) (h : Ample (ofGrowth steps) pool) :
    ∃ a, color (ofGrowth steps) pool = .ok a ∧ Descending (ofGrowth steps) a.index? ∧
      ∀ other, Ample (ofGrowth steps) other →
        ∃ b, color (ofGrowth steps) other = .ok b ∧ ∀ t, b.index? t = a.index? t := by
  have hg := simple_ofGrowth steps
  obtain ⟨a, ha, hdescending⟩ := exists_color_of_ample hg h
  refine ⟨a, ha, hdescending, fun other hother => ?_⟩
  obtain ⟨b, hb, hdescending'⟩ := exists_color_of_ample hg hother
  exact ⟨b, hb, congrFun (hdescending'.unique hg hdescending)⟩

/-- The path from 4 over 1 and 2 to 3. -/
def bentPath : List Growth := [.edge ⟨4⟩ ⟨1⟩, .edge ⟨1⟩ ⟨2⟩, .edge ⟨2⟩ ⟨3⟩]

/-- Two registers would do, but as soon as there are three the path takes them all, and never a fourth. -/
theorem color_bentPath : ∃ a b, color (ofGrowth bentPath) ⟨["a", "b", "c"], by decide, by decide⟩ = .ok a ∧
    color (ofGrowth bentPath) .standard = .ok b ∧ a.index? ⟨1⟩ = some 2 ∧ b.index? ⟨1⟩ = some 2 := by
  have hthree : Ample (ofGrowth bentPath) ⟨["a", "b", "c"], by decide, by decide⟩ := by
    unfold Ample
    decide +kernel
  have hten : Ample (ofGrowth bentPath) .standard := by
    unfold Ample
    decide +kernel
  obtain ⟨a, ha, _, hsame⟩ := color_of_ample bentPath hthree
  obtain ⟨b, hb, hindex⟩ := hsame .standard hten
  have hlast : ∃ a ∈ (color (ofGrowth bentPath) ⟨["a", "b", "c"], by decide, by decide⟩).toOption,
      a.index? ⟨1⟩ = some 2 := by
    decide +kernel
  obtain ⟨c, hc, hone⟩ := exists_ok_of_toOption hlast
  cases ha.symm.trans hc
  exact ⟨a, b, ha, hb, hone, (hindex ⟨1⟩).trans hone⟩

end Allocation
end RegisterColoring

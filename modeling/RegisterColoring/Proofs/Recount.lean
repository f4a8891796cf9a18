import RegisterColoring.Proofs.Core

/-! Coloring as its plain description has it. Main statements: counting the neighbours of every remaining vertex anew
before each removal gives the same order and the same rest, and each vertex gets the least index that none of its
neighbours colored before it has. -/
namespace RegisterColoring

namespace TempSet
variable {s : TempSet} {q : Temp → Bool} {t : Temp}

theorem min?_filter (s : TempSet) (q : Temp → Bool) : (s.filter q).min? = s.toList.find? q := by
  rw [Std.ExtTreeSet.min?_eq_head?_toList, Std.ExtTreeSet.toList_filter, List.head?_filter]

theorem mem_of_min?_filter (h : (s.filter q).min? = some t) : t ∈ s ∧ q t = true := by
  rw [min?_filter] at h
  exact ⟨Std.ExtTreeSet.mem_toList.mp (List.mem_of_find?_eq_some h), List.find?_some h⟩

theorem size_erase_lt (h : t ∈ s) : (s.erase t).size < s.size :=
  size_lt_of_subset (fun _ => Std.ExtTreeSet.mem_of_mem_erase) h fun he =>
    (Std.ExtTreeSet.mem_erase.mp he).1 (Std.LawfulEqCmp.compare_eq_iff_eq.mpr rfl)

end TempSet

namespace Elimination
open InterferenceGraph
variable {g : InterferenceGraph} {k : Nat} {left : TempSet} {entries : List Entry} {t : Temp} {result : Elimination}

/-- The least of the vertices left that has fewer than `k` neighbours among them. -/
def least? (g : InterferenceGraph) (k : Nat) (left : TempSet) : Option Temp :=
  (left.filter fun t => (g.neighbors t ∩ left).size < k).min?

/-- The order in which vertices leave if their neighbours are counted before every step, and those that stay. -/
def recount (g : InterferenceGraph) (k : Nat) (left : TempSet) : List Temp × TempSet :=
  match _h : least? g k left with
  | none => ([], left)
  | some t =>
    let rest := recount g k (left.erase t)
    (t :: rest.1, rest.2)
termination_by left.size
decreasing_by exact TempSet.size_erase_lt (TempSet.mem_of_min?_filter _h).1

theorem recount_of_none (h : least? g k left = none) : recount g k left = ([], left) := by
  rw [recount]
  split
  · rfl
  · next ht =>
    rw [h] at ht
    cases ht

theorem recount_of_some (h : least? g k left = some t) :
    recount g k left = (t :: (recount g k (left.erase t)).1, (recount g k (left.erase t)).2) := by
  rw [recount]
  split
  · next hn =>
    rw [h] at hn
    cases hn
  · next u hu =>
    cases h.symm.trans hu
    rfl

theorem eq_of_recount_eq_nil {s : TempSet} (h : recount g k s = ([], left)) : least? g k s = none ∧ s = left := by
  cases hleast : least? g k s with
  | none =>
    rw [recount_of_none hleast] at h
    exact ⟨rfl, (Prod.mk.injEq .. ▸ h).2⟩
  | some t =>
    rw [recount_of_some hleast] at h
    cases h

/-- The first entry with fewer than `k` neighbours is that of the least such vertex. -/
theorem least?_remaining (ha : Accurate g entries) (hasc : (entries.map Entry.temp).Pairwise (· < ·)) :
    least? g k (remaining entries) = (entries.find? (·.degree < k)).map Entry.temp := by
  rw [least?, TempSet.min?_filter, remaining, TempSet.toList_ofTemps hasc, List.find?_map, ← List.head?_filter,
    ← List.head?_filter]
  congr 2
  apply List.filter_congr
  intro e he
  rw [Function.comp_apply, ha.degree e he]
  rfl

/-- Keeping the numbers up to date takes the same vertices out in the same order as counting anew. -/
theorem Eliminates.eq_recount (hg : g.Simple) (h : Eliminates g k entries result) (ha : Accurate g entries)
    (hasc : (entries.map Entry.temp).Pairwise (· < ·)) :
    result.removed.map Entry.temp = (recount g k (remaining entries)).1 ∧
      remaining result.stuck = (recount g k (remaining entries)).2 := by
  induction h with
  | stop hnone =>
    have hleast := least?_remaining (k := k) ha hasc
    rw [hnone, Option.map_none] at hleast
    rw [recount_of_none hleast]
    exact ⟨rfl, rfl⟩
  | @next entries e rest hsome _ _ ih =>
    have hleast := least?_remaining (k := k) ha hasc
    rw [hsome, Option.map_some] at hleast
    have hrest := ih (ha.without hg hsome) (hasc.sublist sublist_without)
    rw [remaining_without ha.nodup hsome] at hrest
    rw [recount_of_some hleast]
    exact ⟨congrArg (e.temp :: ·) hrest.1, hrest.2⟩

theorem ofGraph_eq_recount (hg : g.Simple) (h : ofGraph g k = .ok result) :
    result.stack = (recount g k (.ofTemps g.vertices)).1.reverse ∧
      result.stuck.map Entry.temp = (recount g k (.ofTemps g.vertices)).2.toList := by
  have hasc : ((counted g).map Entry.temp).Pairwise (· < ·) := by
    rw [map_temp_counted]
    exact pairwise_vertices g
  have hrun := (ofGraph_eq_ok_iff.mp h).eq_recount hg (accurate_counted hg) hasc
  have hall : remaining (counted g) = .ofTemps g.vertices := by rw [remaining, map_temp_counted]
  rw [hall] at hrun
  constructor
  · rw [stack, hrun.1]
  · rw [← hrun.2]
    exact (TempSet.toList_ofTemps (ascending_stuck h)).symm

/-- Every vertex leaves, and only once, or stays. -/
theorem mem_recount (g : InterferenceGraph) (k : Nat) (left : TempSet) :
    (recount g k left).1.Nodup ∧ ∀ t, t ∈ left ↔ t ∈ (recount g k left).1 ∨ t ∈ (recount g k left).2 := by
  fun_induction recount g k left with
  | case1 left h => simp
  | case2 left t h rest ih =>
    obtain ⟨hnodup, hmem⟩ := ih
    have ht := (TempSet.mem_of_min?_filter h).1
    have herase (u : Temp) : u ∈ left.erase t ↔ t ≠ u ∧ u ∈ left := by
      rw [Std.ExtTreeSet.mem_erase, ne_eq, Std.LawfulEqCmp.compare_eq_iff_eq]
    simp only [herase] at hmem
    refine ⟨List.nodup_cons.mpr ⟨fun h => ((hmem t).mpr (.inl h)).1 rfl, hnodup⟩, fun u => ?_⟩
    rw [List.mem_cons, or_assoc, ← hmem u]
    grind

end Elimination

namespace Allocation
open InterferenceGraph Elimination
variable {g : InterferenceGraph} {k index : Nat} {s t : Temp} {ts : List Temp} {pool : RegisterPool}
  {start final : Std.ExtTreeMap Temp Nat}

/-- Colored in order, each vertex has the least index below `k` that none of its neighbours before it has. -/
def Greedy (g : InterferenceGraph) (k : Nat) (ts : List Temp) (index? : Temp → Option Nat) : Prop :=
  ∀ before t after, ts = before ++ t :: after → ∃ index < k, index? t = some index ∧
    (∀ s ∈ before, s ∈ g.neighbors t → index? s ≠ some index) ∧
    ∀ lower < index, ∃ s ∈ before, s ∈ g.neighbors t ∧ index? s = some lower

theorem free?_eq_some_iff {taken : List Nat} :
    free? k taken = some index ↔ index < k ∧ index ∉ taken ∧ ∀ lower < index, lower ∈ taken := by
  simp only [free?, List.find?_range_eq_some, List.mem_range, decide_eq_true_eq]
  grind

/-- Selection leaves the colors alone that were given before. -/
theorem getElem?_of_select (h : select g k ts start = .ok final) (hs : s ∉ ts) : final[s]? = start[s]? := by
  induction ts generalizing start with
  | nil =>
    cases h
    rfl
  | cons t ts ih =>
    obtain ⟨_, index, _, h⟩ := select_cons_eq_ok_iff.mp h
    obtain ⟨hne, hs⟩ := not_or.mp (mt List.mem_cons.mpr hs)
    rw [ih h hs, Std.ExtTreeMap.getElem?_insert]
    simp [Ne.symm hne]

/-- The index of a vertex on the way is the least that none of its neighbours outside the rest of the way has. -/
private theorem select_append_cons {before after : List Temp} (hnodup : (before ++ t :: after).Nodup)
    (hstart : ∀ s ∈ before ++ t :: after, start[s]? = none)
    (h : select g k (before ++ t :: after) start = .ok final) :
    ∃ index < k, final[t]? = some index ∧
      (∀ s, s ∈ g.neighbors t → s ∉ t :: after → final[s]? ≠ some index) ∧
      ∀ lower < index, ∃ s, s ∈ g.neighbors t ∧ s ∉ t :: after ∧ final[s]? = some lower := by
  induction before generalizing start with
  | nil =>
    obtain ⟨_, index, hfree, h'⟩ := select_cons_eq_ok_iff.mp h
    obtain ⟨hk, hnew, hlower⟩ := free?_eq_some_iff.mp hfree
    -- outside of what is still to come, the final colors are those at the start
    have hkeep : ∀ s, s ∉ t :: after → final[s]? = start[s]? := fun s => getElem?_of_select h
    refine ⟨index, hk, ?_, fun s hs hout hsame => hnew ?_, fun lower hlt => ?_⟩
    · rw [getElem?_of_select h' (List.nodup_cons.mp hnodup).1, Std.ExtTreeMap.getElem?_insert_self]
    · rw [hkeep s hout] at hsame
      exact List.mem_filterMap.mpr ⟨s, Std.ExtTreeSet.mem_toList.mpr hs, hsame⟩
    · obtain ⟨s, hs, hsome⟩ := List.mem_filterMap.mp (hlower lower hlt)
      have hout : s ∉ t :: after := by
        intro hin
        rw [hstart s hin] at hsome
        cases hsome
      exact ⟨s, Std.ExtTreeSet.mem_toList.mp hs, hout, by rw [hkeep s hout, hsome]⟩
  | cons u before ih =>
    obtain ⟨_, index, _, h⟩ := select_cons_eq_ok_iff.mp h
    obtain ⟨hu, hnodup⟩ := List.nodup_cons.mp hnodup
    refine ih hnodup (fun s hs => ?_) h
    have hne : u ≠ s := by
      rintro rfl
      exact hu hs
    rw [Std.ExtTreeMap.getElem?_insert]
    simp [hne, hstart s (List.mem_cons_of_mem u hs)]

theorem greedy_of_select (hg : g.Simple) (hnodup : ts.Nodup) (h : select g k ts ∅ = .ok final) :
    Greedy g k ts (final[·]?) := by
  rintro before t after rfl
  obtain ⟨index, hk, hindex, hfree, hlower⟩ := select_append_cons hnodup (fun s _ => by simp) h
  have hmem := (select_eq_ok hg h).1
  refine ⟨index, hk, hindex, fun s hs hneighbor => hfree s hneighbor ?_, fun lower hlt => ?_⟩
  · exact fun hin => (List.nodup_append.mp hnodup).2.2 s hs s hin rfl
  · obtain ⟨s, hneighbor, hout, hsome⟩ := hlower lower hlt
    have hin : s ∈ final := Std.ExtTreeMap.mem_iff_isSome_getElem?.mpr (Option.isSome_of_eq_some hsome)
    have hbefore : s ∈ before := by
      rcases (hmem s).mp hin with hs | hs
      · exact (List.mem_append.mp hs).resolve_right hout
      · simp at hs
    exact ⟨s, hbefore, hneighbor, hsome⟩

end Allocation
end RegisterColoring

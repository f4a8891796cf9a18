import Mathlib.Data.List.Perm.Subperm
import Mathlib.Logic.Relation
import RegisterColoring.Proofs.Coloring

/-! When the registers do not suffice. Main statement: coloring fails exactly if some vertices all have too many
neighbours among themselves, and then it names the largest set of such vertices, the core, in ascending order. -/
namespace RegisterColoring
open Relation

namespace Temp
variable {ts : List Temp}

theorem lt_asymm {s t : Temp} (h : s < t) : ¬ t < s := Nat.lt_asymm h

theorem ne_of_lt {s t : Temp} (h : s < t) : s ≠ t := by
  rintro rfl
  exact lt_asymm h h

theorem nodup_of_ascending (h : ts.Pairwise (· < ·)) : ts.Nodup := h.imp ne_of_lt

theorem eq_of_ascending {us : List Temp} (hts : ts.Pairwise (· < ·)) (hus : us.Pairwise (· < ·))
    (h : ∀ t, t ∈ ts ↔ t ∈ us) : ts = us := by
  apply List.Perm.eq_of_pairwise (fun s t _ _ hst hlt => absurd hlt (lt_asymm hst)) hts hus
  rw [List.perm_ext_iff_of_nodup (nodup_of_ascending hts) (nodup_of_ascending hus)]
  exact h

end Temp

namespace TempSet
variable {a b : TempSet} {ts : List Temp}

theorem size_lt_of_subset {t : Temp} (h : ∀ s, s ∈ a → s ∈ b) (ht : t ∈ b) (hn : t ∉ a) : a.size < b.size := by
  by_contra hle
  have hab : a = b := eq_of_subset_of_size_le h (Nat.le_of_not_lt hle)
  exact hn (hab ▸ ht)

theorem size_inter_mono {s : TempSet} (h : ∀ t, t ∈ a → t ∈ b) : (s ∩ a).size ≤ (s ∩ b).size := by
  apply size_le_of_subset
  intro t ht
  rw [Std.ExtTreeSet.mem_inter_iff] at ht ⊢
  exact ⟨ht.1, h t ht.2⟩

theorem size_inter_erase {t : Temp} (ht : t ∈ b) :
    (a ∩ b.erase t).size = if a.contains t then (a ∩ b).size - 1 else (a ∩ b).size := by
  have herase : a ∩ b.erase t = (a ∩ b).erase t := by
    apply Std.ExtTreeSet.ext_mem
    intro s
    simp only [Std.ExtTreeSet.mem_inter_iff, Std.ExtTreeSet.mem_erase]
    grind
  have hb : b.contains t = true := ht
  rw [herase, Std.ExtTreeSet.size_erase, Std.ExtTreeSet.contains_inter, hb, Bool.and_true]

theorem pairwise_toList (s : TempSet) : s.toList.Pairwise (· < ·) :=
  s.ordered_toList.imp fun h => Temp.compare_eq_lt.mp h

theorem toList_ofTemps (h : ts.Pairwise (· < ·)) : (ofTemps ts).toList = ts :=
  Temp.eq_of_ascending (pairwise_toList _) h fun t => by simp

end TempSet

namespace InterferenceGraph
variable {g : InterferenceGraph} {k : Nat} {s s' core : TempSet} {t : Temp}

/-- Vertices that all have at least `k` neighbours among themselves. -/
structure Crowded (g : InterferenceGraph) (k : Nat) (s : TempSet) : Prop where
  vertices : ∀ t, t ∈ s → t ∈ g.vertices
  neighbors : ∀ t, t ∈ s → k ≤ (g.neighbors t ∩ s).size

/-- The largest set of such vertices. -/
structure IsCore (g : InterferenceGraph) (k : Nat) (core : TempSet) : Prop where
  crowded : g.Crowded k core
  greatest : ∀ s, g.Crowded k s → ∀ t, t ∈ s → t ∈ core

/-- A vertex with fewer than `k` neighbours among the others leaves the set, whichever it is. -/
def Prunes (g : InterferenceGraph) (k : Nat) (s s' : TempSet) : Prop :=
  ∃ t, t ∈ s ∧ (g.neighbors t ∩ s).size < k ∧ s' = s.erase t

theorem IsCore.unique (h : g.IsCore k core) (h' : g.IsCore k s) : s = core :=
  Std.ExtTreeSet.ext_mem fun t => ⟨h.greatest s h'.crowded t, h'.greatest core h.crowded t⟩

theorem IsCore.eq_empty_iff (h : g.IsCore k core) : core = ∅ ↔ ∀ s, g.Crowded k s → s = ∅ := by
  constructor
  · rintro rfl s hs
    apply Std.ExtTreeSet.ext_mem
    intro t
    exact ⟨h.greatest s hs t, fun ht => absurd ht Std.ExtTreeSet.not_mem_empty⟩
  · intro hall
    exact hall core h.crowded

/-- Crowded vertices are never among those that leave. -/
theorem Crowded.subset_of_prunes (h : g.Crowded k core) (hs : ∀ t, t ∈ core → t ∈ s) (hp : g.Prunes k s s') :
    ∀ t, t ∈ core → t ∈ s' := by
  obtain ⟨gone, _, hfew, rfl⟩ := hp
  intro t ht
  rw [Std.ExtTreeSet.mem_erase]
  refine ⟨fun he => ?_, hs t ht⟩
  obtain rfl : gone = t := Std.LawfulEqCmp.compare_eq_iff_eq.mp he
  have hmany := h.neighbors gone ht
  have hmono : (g.neighbors gone ∩ core).size ≤ (g.neighbors gone ∩ s).size := TempSet.size_inter_mono hs
  omega

/-- However the vertices are pruned, what is left when no more can go is the core. -/
theorem isCore_of_pruned (hp : ReflTransGen (g.Prunes k) (.ofTemps g.vertices) s)
    (hlast : ∀ further, ¬ g.Prunes k s further) : g.IsCore k s := by
  have hvertices : ∀ t, t ∈ s → t ∈ g.vertices := by
    clear hlast
    induction hp with
    | refl => exact fun t => TempSet.mem_ofTemps.mp
    | tail _ hstep ih =>
      obtain ⟨_, _, _, rfl⟩ := hstep
      exact fun t ht => ih t (Std.ExtTreeSet.mem_of_mem_erase ht)
  refine ⟨⟨hvertices, fun t ht => ?_⟩, fun core hcore => ?_⟩
  · by_contra hfew
    exact hlast _ ⟨t, ht, Nat.lt_of_not_le hfew, rfl⟩
  · clear hlast hvertices
    induction hp with
    | refl => exact fun t ht => TempSet.mem_ofTemps.mpr (hcore.vertices t ht)
    | tail _ hstep ih => exact hcore.subset_of_prunes ih hstep

end InterferenceGraph

namespace Elimination
open InterferenceGraph
variable {g : InterferenceGraph} {k : Nat} {entries : List Entry} {e : Entry} {result : Elimination}

/-- The vertices of a worklist. -/
def remaining (entries : List Entry) : TempSet := .ofTemps (entries.map Entry.temp)

/-- A worklist of different vertices that knows how many neighbours each has in it. -/
structure Accurate (g : InterferenceGraph) (entries : List Entry) : Prop where
  nodup : (entries.map Entry.temp).Nodup
  degree : ∀ e ∈ entries, e.degree = (g.neighbors e.temp ∩ remaining entries).size

theorem pairwise_vertices (g : InterferenceGraph) : g.vertices.Pairwise (· < ·) :=
  g.adjacency.ordered_keys.imp fun h => Temp.compare_eq_lt.mp h

theorem accurate_counted (hg : g.Simple) : Accurate g (counted g) := by
  constructor
  · rw [map_temp_counted]
    exact Temp.nodup_of_ascending (pairwise_vertices g)
  · intro e he
    obtain ⟨t, _, rfl⟩ := List.mem_map.mp he
    have hall : g.neighbors t ∩ remaining (counted g) = g.neighbors t := by
      apply Std.ExtTreeSet.ext_mem
      intro s
      rw [Std.ExtTreeSet.mem_inter_iff, remaining, map_temp_counted, TempSet.mem_ofTemps]
      exact ⟨And.left, fun hs => ⟨hs, hg.mem_vertices hs⟩⟩
    exact (congrArg Std.ExtTreeSet.size hall).symm

private theorem nodup_without (neighbors : TempSet) (hd : (entries.map Entry.temp).Nodup)
    (h : entries.find? (·.degree < k) = some e) :
    e.temp ∉ (without k neighbors entries).map Entry.temp ∧ ((without k neighbors entries).map Entry.temp).Nodup :=
  List.nodup_cons.mp ((perm_without neighbors h).nodup_iff.mpr hd)

theorem remaining_without {neighbors : TempSet} (hd : (entries.map Entry.temp).Nodup)
    (h : entries.find? (·.degree < k) = some e) :
    remaining (without k neighbors entries) = (remaining entries).erase e.temp := by
  apply Std.ExtTreeSet.ext_mem
  intro t
  have hnot := (nodup_without neighbors hd h).1
  have hmem : t = e.temp ∨ t ∈ (without k neighbors entries).map Entry.temp ↔ t ∈ entries.map Entry.temp := by
    rw [← List.mem_cons]
    exact (perm_without neighbors h).mem_iff
  rw [Std.ExtTreeSet.mem_erase, ne_eq, Std.LawfulEqCmp.compare_eq_iff_eq, remaining, remaining,
    TempSet.mem_ofTemps, TempSet.mem_ofTemps, ← hmem]
  grind

/-- One step keeps the numbers of neighbours right. -/
theorem Accurate.without (hg : g.Simple) (ha : Accurate g entries) (h : entries.find? (·.degree < k) = some e) :
    Accurate g (without k (g.neighbors e.temp) entries) := by
  refine ⟨(nodup_without _ ha.nodup h).2, fun d hd => ?_⟩
  obtain ⟨old, hold, rfl⟩ := List.mem_map.mp hd
  have hdegree := ha.degree old (List.mem_of_mem_eraseP hold)
  have hin : e.temp ∈ remaining entries :=
    TempSet.mem_ofTemps.mpr (List.mem_map_of_mem (List.mem_of_find?_eq_some h))
  have hboth : (g.neighbors e.temp).contains old.temp = true ↔ (g.neighbors old.temp).contains e.temp = true :=
    ⟨hg.symm, hg.symm⟩
  rw [remaining_without ha.nodup h, TempSet.size_inter_erase hin]
  split
  · next hi =>
    rw [if_pos (hboth.mp hi)]
    exact congrArg (· - 1) hdegree
  · next hi =>
    rw [if_neg (mt hboth.mpr hi)]
    exact hdegree

theorem prunes_without (ha : Accurate g entries) (h : entries.find? (·.degree < k) = some e) :
    g.Prunes k (remaining entries) (remaining (Elimination.without k (g.neighbors e.temp) entries)) := by
  have hm := List.mem_of_find?_eq_some h
  refine ⟨e.temp, TempSet.mem_ofTemps.mpr (List.mem_map_of_mem hm), ?_, remaining_without ha.nodup h⟩
  rw [← ha.degree e hm]
  simpa using List.find?_some h

/-- Elimination is one way to prune, and goes on as long as any vertex can leave. -/
theorem Eliminates.prunes (hg : g.Simple) (h : Eliminates g k entries result) (ha : Accurate g entries) :
    ReflTransGen (g.Prunes k) (remaining entries) (remaining result.stuck) ∧
      Accurate g result.stuck ∧ ∀ e ∈ result.stuck, k ≤ e.degree := by
  induction h with
  | stop hnone => exact ⟨.refl, ha, by simpa using hnone⟩
  | next hsome _ _ ih =>
    obtain ⟨hprunes, hstuck⟩ := ih (ha.without hg hsome)
    exact ⟨hprunes.head (prunes_without ha hsome), hstuck⟩

theorem sublist_without {neighbors : TempSet} :
    ((without k neighbors entries).map Entry.temp).Sublist (entries.map Entry.temp) := by
  rw [map_temp_without]
  exact List.eraseP_sublist.map Entry.temp

/-- What is stuck keeps its order. -/
theorem Eliminates.sublist (h : Eliminates g k entries result) :
    (result.stuck.map Entry.temp).Sublist (entries.map Entry.temp) := by
  induction h with
  | stop _ => exact List.Sublist.refl _
  | next _ _ _ ih => exact ih.trans sublist_without

theorem ascending_stuck (h : ofGraph g k = .ok result) : (result.stuck.map Entry.temp).Pairwise (· < ·) := by
  have hsub := (ofGraph_eq_ok_iff.mp h).sublist
  rw [map_temp_counted] at hsub
  exact (pairwise_vertices g).sublist hsub

/-- What is stuck at the end is the core of the graph. -/
theorem isCore_stuck (hg : g.Simple) (h : ofGraph g k = .ok result) : g.IsCore k (remaining result.stuck) := by
  obtain ⟨hprunes, haccurate, hmany⟩ := (ofGraph_eq_ok_iff.mp h).prunes hg (accurate_counted hg)
  rw [remaining, map_temp_counted] at hprunes
  apply isCore_of_pruned hprunes
  rintro further ⟨t, ht, hfew, _⟩
  obtain ⟨e, he, rfl⟩ := List.mem_map.mp (TempSet.mem_ofTemps.mp ht)
  rw [← haccurate.degree e he] at hfew
  exact Nat.not_lt_of_le (hmany e he) hfew

/-- Each vertex has fewer than `k` neighbours among those after it. -/
def Sparse (g : InterferenceGraph) (k : Nat) : List Temp → Prop
  | [] => True
  | t :: rest => (g.neighbors t ∩ TempSet.ofTemps rest).size < k ∧ Sparse g k rest

/-- A vertex is put aside with few neighbours left, hence with few among those that follow it. -/
theorem Eliminates.sparse (hg : g.Simple) (h : Eliminates g k entries result) (ha : Accurate g entries) :
    Sparse g k (result.removed.map Entry.temp) := by
  induction h with
  | stop _ => exact trivial
  | @next entries e rest hsome _ hrest ih =>
    refine ⟨?_, ih (ha.without hg hsome)⟩
    have hfew : e.degree < k := by simpa using List.find?_some hsome
    have hdegree := ha.degree e (List.mem_of_find?_eq_some hsome)
    have hleft : ∀ t, t ∈ TempSet.ofTemps (rest.removed.map Entry.temp) → t ∈ remaining entries := by
      intro t ht
      rw [TempSet.mem_ofTemps] at ht
      rw [remaining, TempSet.mem_ofTemps, ← (perm_without (g.neighbors e.temp) hsome).mem_iff]
      apply List.mem_cons_of_mem
      exact hrest.perm.mem_iff.mp (List.mem_append_left _ ht)
    have hmono := TempSet.size_inter_mono (s := g.neighbors e.temp) hleft
    omega

end Elimination

namespace Allocation
open InterferenceGraph Elimination
variable {g : InterferenceGraph} {k : Nat} {ts : List Temp} {pool : RegisterPool} {elimination : Elimination}

/-- Fewer than `k` taken indices leave one of the first `k`. -/
theorem exists_free? {taken : List Nat} (h : taken.length < k) : ∃ index, free? k taken = some index := by
  cases hf : free? k taken with
  | some index => exact ⟨index, rfl⟩
  | none =>
    have hall : List.range k ⊆ taken := by
      intro i hi
      simpa using List.find?_eq_none.mp hf i hi
    have hlen := (List.subperm_of_subset List.nodup_range hall).length_le
    rw [List.length_range] at hlen
    omega

private theorem select_append {us : List Temp} {start colored final : Std.ExtTreeMap Temp Nat}
    (h : select g k ts start = .ok colored) (h' : select g k us colored = .ok final) :
    select g k (ts ++ us) start = .ok final := by
  induction ts generalizing start with
  | nil =>
    cases h
    exact h'
  | cons t ts ih =>
    obtain ⟨ht, index, hindex, h⟩ := select_cons_eq_ok_iff.mp h
    exact select_cons_eq_ok_iff.mpr ⟨ht, index, hindex, ih h⟩

/-- Selection in the opposite order finds a color for each of them. -/
theorem exists_select (hg : g.Simple) (hts : ∀ t ∈ ts, t ∈ g.vertices) (h : Sparse g k ts) :
    ∃ final, select g k ts.reverse ∅ = .ok final := by
  induction ts with
  | nil => exact ⟨∅, rfl⟩
  | cons t ts ih =>
    obtain ⟨hfew, hrest⟩ := h
    obtain ⟨ht, hts⟩ := List.forall_mem_cons.mp hts
    obtain ⟨colored, hc⟩ := ih hts hrest
    -- only the vertices after `t` have a color yet
    have htaken : ((g.neighbors t).toList.filterMap (colored[·]?)).length ≤
        (g.neighbors t ∩ TempSet.ofTemps ts).size := by
      rw [List.length_filterMap_eq_countP, List.countP_eq_length_filter, ← Std.ExtTreeSet.toList_filter,
        Std.ExtTreeSet.length_toList]
      apply TempSet.size_le_of_subset
      intro s hs
      have hmem := (select_eq_ok hg hc).1 s
      simp_all
    obtain ⟨index, hindex⟩ := exists_free? (Nat.lt_of_le_of_lt htaken hfew)
    refine ⟨colored.insert t index, ?_⟩
    rw [List.reverse_cons]
    exact select_append hc (select_cons_eq_ok_iff.mpr ⟨ht, index, hindex, rfl⟩)

theorem exists_select_stack (hg : g.Simple) (h : ofGraph g k = .ok elimination) :
    ∃ final, select g k elimination.stack ∅ = .ok final := by
  apply exists_select hg
  · intro t ht
    exact mem_vertices_of_mem_stack h (List.mem_reverse.mpr ht)
  · exact (ofGraph_eq_ok_iff.mp h).sparse hg (accurate_counted hg)

/-- Once all vertices are put aside, coloring succeeds. Otherwise it names those that are not. -/
theorem color_eq (hg : g.Simple) (h : ofGraph g pool.size = .ok elimination) :
    (elimination.stuck = [] ∧ ∃ a, color g pool = .ok a) ∨
      (elimination.stuck ≠ [] ∧
        color g pool = .error (.tooFewRegisters pool.size (elimination.stuck.map Entry.temp))) := by
  by_cases hstuck : elimination.stuck = []
  · left
    obtain ⟨final, hfinal⟩ := exists_select_stack hg h
    rw [color_of_stuck_eq_nil h hstuck, hfinal]
    exact ⟨hstuck, ⟨pool, final⟩, rfl⟩
  · right
    exact ⟨hstuck, color_of_stuck_ne_nil h hstuck⟩

private theorem remaining_eq_empty {entries : List Entry} : remaining entries = ∅ ↔ entries = [] := by
  constructor
  · intro h
    cases entries with
    | nil => rfl
    | cons e rest =>
      have he : e.temp ∈ remaining (e :: rest) := TempSet.mem_ofTemps.mpr List.mem_cons_self
      rw [h] at he
      exact absurd he Std.ExtTreeSet.not_mem_empty
  · rintro rfl
    rfl

theorem exists_color_iff_stuck (hg : g.Simple) (h : ofGraph g pool.size = .ok elimination) :
    (∃ a, color g pool = .ok a) ↔ remaining elimination.stuck = ∅ := by
  rw [remaining_eq_empty]
  rcases color_eq hg h with ⟨hstuck, hok⟩ | ⟨hstuck, herror⟩
  · exact ⟨fun _ => hstuck, fun _ => hok⟩
  · refine ⟨fun ⟨a, ha⟩ => ?_, fun h => absurd h hstuck⟩
    rw [ha] at herror
    cases herror

/-- A graph can be colored exactly if none of its vertices are crowded. -/
theorem exists_color_iff (hg : g.Simple) :
    (∃ a, color g pool = .ok a) ↔ ∀ s, g.Crowded pool.size s → s = ∅ := by
  obtain ⟨elimination, h⟩ := exists_ofGraph g pool.size
  exact (exists_color_iff_stuck hg h).trans (isCore_stuck hg h).eq_empty_iff

/-- Whatever is looked up while a graph is colored is one of its vertices. -/
theorem color_ne_notInGraph (hg : g.Simple) (pool : RegisterPool) (t : Temp) :
    color g pool ≠ .error (.notInGraph t) := by
  obtain ⟨elimination, h⟩ := exists_ofGraph g pool.size
  rcases color_eq hg h with ⟨_, a, ha⟩ | ⟨_, herror⟩
  · rw [ha]
    simp
  · rw [herror]
    simp

/-- Coloring a graph made by any calls, with any pool, fails exactly if the core is not empty, and then says so
of the core in ascending order. No vertex is missed in the graph, selection by itself never fails, and any order in
which vertices could be pruned comes to the same core. -/
theorem color_by_core (steps : List Growth) (pool : RegisterPool) :
    ∃ core, (ofGrowth steps).IsCore pool.size core ∧
      ((∃ a, color (ofGrowth steps) pool = .ok a) ↔ core = ∅) ∧
      (core ≠ ∅ → color (ofGrowth steps) pool = .error (.tooFewRegisters pool.size core.toList)) ∧
      (∀ t, color (ofGrowth steps) pool ≠ .error (.notInGraph t)) ∧
      (∃ elimination final, ofGraph (ofGrowth steps) pool.size = .ok elimination ∧
        select (ofGrowth steps) pool.size elimination.stack ∅ = .ok final) ∧
      ∀ rest, ReflTransGen ((ofGrowth steps).Prunes pool.size) (.ofTemps (ofGrowth steps).vertices) rest →
        (∀ further, ¬ (ofGrowth steps).Prunes pool.size rest further) → rest = core := by
  have hg := simple_ofGrowth steps
  obtain ⟨elimination, h⟩ := exists_ofGraph (ofGrowth steps) pool.size
  obtain ⟨final, hfinal⟩ := exists_select_stack hg h
  have hcore := isCore_stuck hg h
  refine ⟨_, hcore, exists_color_iff_stuck hg h, fun hne => ?_, color_ne_notInGraph hg pool,
    ⟨elimination, final, h, hfinal⟩, ?_⟩
  · rcases color_eq hg h with ⟨hstuck, _⟩ | ⟨_, herror⟩
    · exact absurd (remaining_eq_empty.mpr hstuck) hne
    · rw [herror, remaining, TempSet.toList_ofTemps (ascending_stuck h)]
  · intro rest hprunes hlast
    exact hcore.unique (isCore_of_pruned hprunes hlast)

def triangleWithTail : List Growth := [.edge ⟨7⟩ ⟨3⟩, .edge ⟨2⟩ ⟨1⟩, .edge ⟨1⟩ ⟨3⟩, .edge ⟨3⟩ ⟨2⟩]

/-- Two registers do not do for the triangle. The tail that hangs on it is not named. -/
theorem color_triangleWithTail :
    ∃ core, (ofGrowth triangleWithTail).IsCore 2 core ∧ core.toList = [⟨1⟩, ⟨2⟩, ⟨3⟩] ∧
      color (ofGrowth triangleWithTail) ⟨["a", "b"], by decide, by decide⟩ =
        .error (.tooFewRegisters 2 [⟨1⟩, ⟨2⟩, ⟨3⟩]) := by
  have hcolor : color (ofGrowth triangleWithTail) ⟨["a", "b"], by decide, by decide⟩ =
      .error (.tooFewRegisters 2 [⟨1⟩, ⟨2⟩, ⟨3⟩]) := by
    decide +kernel
  obtain ⟨core, hcore, hiff, herror, -⟩ := color_by_core triangleWithTail ⟨["a", "b"], by decide, by decide⟩
  have hne : core ≠ ∅ := by
    intro he
    obtain ⟨a, ha⟩ := hiff.mpr he
    rw [hcolor] at ha
    cases ha
  have hnamed := (herror hne).symm.trans hcolor
  refine ⟨core, hcore, ?_, hcolor⟩
  injection hnamed with hfault
  injection hfault

end Allocation
end RegisterColoring

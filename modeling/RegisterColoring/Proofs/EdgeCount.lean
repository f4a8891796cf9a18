import Mathlib.Data.Prod.Basic
import RegisterColoring.Proofs.Core

/-! Counting the edges of a graph. Main statement: after any calls that add to a graph, its edges are listed once each in
ascending order, and the degrees count each of them twice. -/
namespace RegisterColoring

theorem Temp.lt_or_lt_of_ne {s t : Temp} (h : s ≠ t) : s < t ∨ t < s := by
  have hserial : s.serial.toNat ≠ t.serial.toNat := by
    intro he
    cases s
    cases t
    exact h (congrArg Temp.mk (UInt32.toNat_inj.mp he))
  exact Nat.lt_or_gt_of_ne hserial

namespace InterferenceGraph
variable {g : InterferenceGraph} {a b : Temp}

/-- Every edge as each of its ends sees it. -/
def ends (g : InterferenceGraph) : List (Temp × Temp) :=
  g.vertices.flatMap fun a => (g.neighbors a).toList.map (a, ·)

theorem pairwise_ends (g : InterferenceGraph) : g.ends.Pairwise (Prod.Lex (· < ·) (· < ·)) := by
  rw [ends, List.pairwise_flatMap]
  constructor
  · intro a _
    rw [List.pairwise_map]
    exact (TempSet.pairwise_toList _).imp fun h => .right a h
  · refine (Elimination.pairwise_vertices g).imp fun {a b} hab => ?_
    intro x hx y hy
    obtain ⟨_, _, rfl⟩ := List.mem_map.mp hx
    obtain ⟨_, _, rfl⟩ := List.mem_map.mp hy
    exact .left _ _ hab

theorem mem_ends (hg : g.Simple) : (a, b) ∈ g.ends ↔ b ∈ g.neighbors a := by
  simp only [ends, List.mem_flatMap, List.mem_map, Prod.mk.injEq, Std.ExtTreeSet.mem_toList]
  constructor
  · rintro ⟨_, _, _, hb, rfl, rfl⟩
    exact hb
  · intro hb
    exact ⟨a, hg.mem_vertices (hg.symm hb), b, hb, rfl, rfl⟩

theorem length_ends (g : InterferenceGraph) : g.ends.length = g.degreeSum := by
  have hsum (ts : List Temp) : (ts.flatMap fun a => (g.neighbors a).toList.map (a, ·)).length =
      ts.foldr (fun t sum => g.degree t + sum) 0 := by
    induction ts with
    | nil => rfl
    | cons t ts ih =>
      rw [List.flatMap_cons, List.length_append, List.length_map, Std.ExtTreeSet.length_toList, ih]
      rfl
  exact hsum g.vertices

/-- The edges are what the lower ends see. -/
theorem edges_eq_filter (g : InterferenceGraph) : g.edges = g.ends.filter fun e => e.1 < e.2 := by
  simp only [edges, ends, List.filter_flatMap, List.filter_map]
  rfl

theorem pairwise_edges (g : InterferenceGraph) : g.edges.Pairwise (Prod.Lex (· < ·) (· < ·)) := by
  rw [edges_eq_filter]
  exact (pairwise_ends g).filter _

theorem mem_edges (hg : g.Simple) : (a, b) ∈ g.edges ↔ a < b ∧ b ∈ g.neighbors a := by
  rw [edges_eq_filter, List.mem_filter, mem_ends hg, decide_eq_true_eq, and_comm]

private theorem nodup_of_lex {es : List (Temp × Temp)} (h : es.Pairwise (Prod.Lex (· < ·) (· < ·))) : es.Nodup := by
  refine h.imp fun {e e'} hlt => ?_
  rintro rfl
  cases hlt with
  | left _ _ hlt => exact Temp.lt_asymm hlt hlt
  | right _ hlt => exact Temp.lt_asymm hlt hlt

/-- What the higher ends see are the edges the other way round. -/
private theorem perm_higher_ends (hg : g.Simple) : (g.ends.filter fun e => !(e.1 < e.2)).Perm (g.edges.map Prod.swap) := by
  have hends : (g.ends.filter fun e => !(e.1 < e.2)).Nodup := (nodup_of_lex (pairwise_ends g)).filter _
  have hedges : (g.edges.map Prod.swap).Nodup := by
    rw [List.nodup_iff_pairwise_ne, List.pairwise_map]
    exact (nodup_of_lex (pairwise_edges g)).imp fun hne he => hne (Prod.swap_injective he)
  rw [List.perm_ext_iff_of_nodup hends hedges]
  rintro ⟨a, b⟩
  have hswap : (a, b) ∈ g.edges.map Prod.swap ↔ (b, a) ∈ g.edges := by
    rw [List.mem_map]
    constructor
    · rintro ⟨e, he, hswapped⟩
      obtain rfl : e = (b, a) := Prod.swap_injective hswapped
      exact he
    · intro he
      exact ⟨(b, a), he, rfl⟩
  rw [hswap, mem_edges hg, List.mem_filter, mem_ends hg]
  simp only [Bool.not_eq_true', decide_eq_false_iff_not]
  constructor
  · rintro ⟨hb, hlt⟩
    have hne : a ≠ b := fun he => hg.irrefl (he ▸ hb)
    exact ⟨(Temp.lt_or_lt_of_ne hne).resolve_left hlt, hg.symm hb⟩
  · rintro ⟨hlt, ha⟩
    exact ⟨hg.symm ha, Temp.lt_asymm hlt⟩

/-- Each edge is seen from both of its ends, so the degrees count it twice. -/
theorem degreeSum_eq (hg : g.Simple) : g.degreeSum = 2 * g.edges.length := by
  calc
    g.degreeSum = g.ends.length := (length_ends g).symm
    _ = ((g.ends.filter fun e => e.1 < e.2) ++ g.ends.filter fun e => !(e.1 < e.2)).length :=
      (List.filter_append_perm _ g.ends).length_eq.symm
    _ = g.edges.length + (g.edges.map Prod.swap).length := by
      rw [List.length_append, ← edges_eq_filter, (perm_higher_ends hg).length_eq]
    _ = 2 * g.edges.length := by
      rw [List.length_map]
      omega

/-- After any calls that add to a graph: adjacency goes both ways, joins vertices only and none with itself; the vertices
are the temporaries passed, and two of them are adjacent exactly if they differ and a call joined them. The edges are
listed in ascending order, each adjacent pair once from the lower to the higher end. Their number is the edge count, and
the degrees add up to exactly twice as many. -/
theorem edges_of_growth (steps : List Growth) :
    (ofGrowth steps).Simple ∧
    (∀ t, t ∈ (ofGrowth steps).vertices ↔ ∃ step ∈ steps, t ∈ step.temps) ∧
    (∀ a b, (ofGrowth steps).interferes a b = true ↔ a ≠ b ∧ (.edge a b ∈ steps ∨ .edge b a ∈ steps)) ∧
    (ofGrowth steps).edges.Pairwise (Prod.Lex (· < ·) (· < ·)) ∧
    (∀ a b, (ofGrowth steps).edges.count (a, b) = if a < b ∧ (ofGrowth steps).interferes a b = true then 1 else 0) ∧
    (ofGrowth steps).edgeCount = (ofGrowth steps).edges.length ∧
    (ofGrowth steps).degreeSum = 2 * (ofGrowth steps).edgeCount := by
  have hsimple := simple_ofGrowth steps
  have hsum := degreeSum_eq hsimple
  have hcount : (ofGrowth steps).edgeCount = (ofGrowth steps).edges.length := by
    rw [edgeCount, hsum]
    omega
  refine ⟨hsimple, fun t => mem_vertices_ofGrowth, fun a b => ?_, pairwise_edges _, fun a b => ?_, hcount, hcount ▸ hsum⟩
  · rw [interferes_iff, mem_neighbors_ofGrowth]
  · rw [(nodup_of_lex (pairwise_edges _)).count]
    simp only [mem_edges hsimple, interferes_iff]

end InterferenceGraph
end RegisterColoring

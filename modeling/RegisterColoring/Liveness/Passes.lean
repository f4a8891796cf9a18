import RegisterColoring.Liveness.Sweep

/-! Passes repeated until one changes nothing. They end because each adds a temporary of the listing to
some set and takes none away. Main statement: the last pass leaves a solution of the flow equations. -/
namespace RegisterColoring

namespace TempSet

theorem size_le_of_subset {a b : TempSet} (h : ∀ t, t ∈ a → t ∈ b) : a.size ≤ b.size := by
  have hu : a ∪ b = b := Std.ExtTreeSet.ext_mem fun t => by
    rw [Std.ExtTreeSet.mem_union_iff]
    exact ⟨fun ht => ht.elim (h t) id, .inr⟩
  exact hu ▸ Std.ExtTreeSet.size_left_le_size_union

theorem eq_of_subset_of_size_le {a b : TempSet} (h : ∀ t, t ∈ a → t ∈ b) (hs : b.size ≤ a.size) :
    a = b := by
  have hi : b ∩ a = a := Std.ExtTreeSet.ext_mem fun t => by
    rw [Std.ExtTreeSet.mem_inter_iff]
    exact ⟨And.right, fun ht => ⟨h t ht, ht⟩⟩
  have hd : (b \ a).size + (b ∩ a).size = b.size :=
    Std.ExtTreeSet.size_diff_add_size_inter_eq_size_left
  rw [hi] at hd
  have he : b \ a = ∅ := Std.ExtTreeSet.eq_empty_iff_size_eq_zero.mpr (by omega)
  refine Std.ExtTreeSet.ext_mem fun t => ⟨h t, fun ht => ?_⟩
  apply Decidable.byContradiction
  intro hn
  have hm : t ∈ b \ a := Std.ExtTreeSet.mem_diff_iff.mpr ⟨ht, hn⟩
  rw [he] at hm
  exact Std.ExtTreeSet.not_mem_empty hm

end TempSet

namespace LiveSets

/-- The number of memberships in the sets. -/
def weight : List LiveSets → Nat
  | [] => 0
  | a :: as => a.liveIn.size + a.liveOut.size + weight as

private theorem weight_le {as bs : List LiveSets} (h : AllWithin as bs) : weight as ≤ weight bs := by
  induction as generalizing bs with
  | nil => exact Nat.zero_le _
  | cons a as ih =>
    cases bs with
    | nil => exact h.elim
    | cons b bs =>
      have hi := TempSet.size_le_of_subset h.1.1
      have ho := TempSet.size_le_of_subset h.1.2
      have hr := ih h.2
      simp only [weight]
      omega

/-- Sets that grow without being the same have more memberships. -/
theorem weight_lt {as bs : List LiveSets} (h : AllWithin as bs) (hne : bs ≠ as) :
    weight as < weight bs := by
  apply Nat.lt_of_not_le
  intro hw
  apply hne
  induction as generalizing bs with
  | nil =>
    cases bs with
    | nil => rfl
    | cons b bs => exact h.elim
  | cons a as ih =>
    cases bs with
    | nil => exact h.elim
    | cons b bs =>
      have hi := TempSet.size_le_of_subset h.1.1
      have ho := TempSet.size_le_of_subset h.1.2
      have hr := weight_le h.2
      simp only [weight] at hw
      have hin : a.liveIn = b.liveIn := TempSet.eq_of_subset_of_size_le h.1.1 (by omega)
      have hout : a.liveOut = b.liveOut := TempSet.eq_of_subset_of_size_le h.1.2 (by omega)
      have hbs : bs = as := Decidable.byContradiction fun hn => hn (ih h.2 hn (by omega))
      cases a; cases b; simp_all

theorem weight_le_of_covered {mentioned : TempSet} {sets : List LiveSets}
    (h : Covered mentioned sets) : weight sets ≤ sets.length * (2 * mentioned.size) := by
  induction sets with
  | nil => simp [weight]
  | cons a as ih =>
    have ha := h a List.mem_cons_self
    have hi := TempSet.size_le_of_subset ha.1
    have ho := TempSet.size_le_of_subset ha.2
    have hr := ih fun b hb => h b (List.mem_cons_of_mem _ hb)
    simp only [weight, List.length_cons, Nat.succ_mul] at *
    omega

end LiveSets

namespace FlowNode
open LiveSets

theorem length_sweepFrom (old : List LiveSets) (position : Nat) (nodes : List FlowNode) :
    (sweepFrom old position nodes).length = nodes.length := by
  induction nodes generalizing position with
  | nil => rfl
  | cons node rest ih => simp [sweepFrom, ih]

def unswept (nodes : List FlowNode) : List LiveSets := nodes.map fun _ => .empty

/-- Sets that the next pass only adds to. -/
structure Rising (nodes : List FlowNode) where
  sets : List LiveSets
  rises : AllWithin sets (sweep nodes sets)
  covered : Covered (temps nodes) sets

namespace Rising
variable {nodes : List FlowNode}

private theorem empty_within (old : List LiveSets) (position : Nat) (nodes : List FlowNode) :
    AllWithin (unswept nodes) (sweepFrom old position nodes) := by
  induction nodes generalizing position with
  | nil => exact trivial
  | cons node rest ih =>
    refine ⟨⟨fun t ht => ?_, fun t ht => ?_⟩, ih (position + 1)⟩ <;> simp [LiveSets.empty] at ht

def initial (nodes : List FlowNode) : Rising nodes where
  sets := unswept nodes
  rises := empty_within _ 0 nodes
  covered a ha := by
    obtain ⟨_, _, rfl⟩ := List.mem_map.mp ha
    constructor <;> intro t ht <;> simp [LiveSets.empty] at ht

def next (state : Rising nodes) : Rising nodes where
  sets := sweep nodes state.sets
  rises := sweep_mono nodes state.rises
  covered := sweep_covered nodes state.covered

private theorem room_lt (state : Rising nodes) (h : state.next.sets ≠ state.sets) :
    nodes.length * (2 * (temps nodes).size) - weight state.next.sets <
      nodes.length * (2 * (temps nodes).size) - weight state.sets := by
  have hlt := weight_lt state.rises h
  have hle := weight_le_of_covered state.next.covered
  have hlen : state.next.sets.length = nodes.length := length_sweepFrom _ _ _
  rw [hlen] at hle
  have : weight state.next.sets = weight (sweep nodes state.sets) := rfl
  omega

/-- The sets after each further pass, up to and without the pass that changes nothing. -/
def passes (state : Rising nodes) : List (List LiveSets) :=
  let next := state.next
  if _h : next.sets = state.sets then [] else next.sets :: next.passes
termination_by nodes.length * (2 * (temps nodes).size) - weight state.sets
decreasing_by exact room_lt state _h

/-- A further pass after all passes changes nothing. -/
theorem sweep_last (state : Rising nodes) :
    sweep nodes (state.passes.getLastD state.sets) = state.passes.getLastD state.sets := by
  fun_induction passes state with
  | case1 state next h => exact h
  | case2 state next h ih => rw [List.getLastD_cons]; exact ih

end Rising
end FlowNode
end RegisterColoring

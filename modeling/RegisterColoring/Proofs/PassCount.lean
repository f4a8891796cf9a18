import Mathlib.Data.Finset.Card
import Mathlib.Data.Finset.Range
import RegisterColoring.Proofs.FirstOffence

/-! The number of passes of the analysis. A pass goes from the last position to the first, so all that it takes from the
sets before it comes back over jumps to earlier positions. Main statement: there are at most two passes more than
positions that control can go back from. -/
namespace RegisterColoring

namespace LiveSets

/-- The live-out set at a position, empty where there is none. -/
def liveOutAt (sets : List LiveSets) (position : Nat) : TempSet :=
  (sets[position]?.map liveOut).getD ∅

/-- Sets of listings of one length are the same if they have the same members. -/
theorem eq_of_same_mem {as bs : List LiveSets} (hlen : as.length = bs.length)
    (h : ∀ n t, (t ∈ liveInAt as n ↔ t ∈ liveInAt bs n) ∧ (t ∈ liveOutAt as n ↔ t ∈ liveOutAt bs n)) : as = bs := by
  apply List.ext_getElem hlen
  intro n ha hb
  have hin : as[n].liveIn = bs[n].liveIn := Std.ExtTreeSet.ext_mem fun t => by
    simpa [liveInAt, List.getElem?_eq_getElem ha, List.getElem?_eq_getElem hb] using (h n t).1
  have hout : as[n].liveOut = bs[n].liveOut := Std.ExtTreeSet.ext_mem fun t => by
    simpa [liveOutAt, List.getElem?_eq_getElem ha, List.getElem?_eq_getElem hb] using (h n t).2
  cases ha' : as[n]
  cases hb' : bs[n]
  simp_all

end LiveSets

namespace FlowNode
open LiveSets
variable {nodes : List FlowNode} {old new : List LiveSets} {n : Nat} {t : Temp}

/-- The positions that control can go back from, or stay at. -/
def backward (nodes : List FlowNode) : Finset Nat :=
  (Finset.range nodes.length).filter fun n => ∃ node ∈ nodes[n]?, ∃ s ∈ node.successors, s ≤ n

/-- The positions to which a jump back brings the temporary, out of the sets before a pass. -/
def fed (nodes : List FlowNode) (old : List LiveSets) (t : Temp) : Finset Nat :=
  (Finset.range nodes.length).filter fun n => ∃ node ∈ nodes[n]?, ∃ s ∈ node.successors, s ≤ n ∧ t ∈ liveInAt old s

theorem mem_backward : n ∈ backward nodes ↔ ∃ node, nodes[n]? = some node ∧ ∃ s ∈ node.successors, s ≤ n := by
  simp only [backward, Finset.mem_filter, Finset.mem_range, Option.mem_def, and_iff_right_iff_imp]
  rintro ⟨node, hn, _⟩
  exact (List.getElem?_eq_some_iff.mp hn).1

theorem mem_fed : n ∈ fed nodes old t ↔
    ∃ node, nodes[n]? = some node ∧ ∃ s ∈ node.successors, s ≤ n ∧ t ∈ liveInAt old s := by
  simp only [fed, Finset.mem_filter, Finset.mem_range, Option.mem_def, and_iff_right_iff_imp]
  rintro ⟨node, hn, _⟩
  exact (List.getElem?_eq_some_iff.mp hn).1

theorem fed_subset_backward : fed nodes old t ⊆ backward nodes := by
  intro n hn
  obtain ⟨node, hnode, s, hs, hle, _⟩ := mem_fed.mp hn
  exact mem_backward.mpr ⟨node, hnode, s, hs, hle⟩

/-- After a pass, a temporary is live on exit if it is live on entry to a later position that can follow, or if it was
live before the pass at an earlier one. -/
theorem mem_liveOutAt_sweep : t ∈ liveOutAt (sweep nodes old) n ↔
    (∃ node, nodes[n]? = some node ∧ ∃ s ∈ node.successors, n < s ∧ t ∈ liveInAt (sweep nodes old) s) ∨
      n ∈ fed nodes old t := by
  rw [mem_fed, liveOutAt, getElem?_sweep]
  cases nodes[n]? with
  | none => simp
  | some node =>
    simp only [Option.map_some, Option.getD_some, mem_liveOut_transfer, Option.some.injEq, exists_eq_left']
    constructor
    · rintro ⟨s, hs, hm⟩
      split at hm
      · next hlt => exact .inl ⟨s, hs, hlt, hm⟩
      · next hle => exact .inr ⟨s, hs, Nat.le_of_not_lt hle, hm⟩
    · rintro (⟨s, hs, hlt, hm⟩ | ⟨s, hs, hle, hm⟩)
      · exact ⟨s, hs, by rwa [if_pos hlt]⟩
      · exact ⟨s, hs, by rwa [if_neg (Nat.not_lt.mpr hle)]⟩

theorem mem_liveInAt_sweep : t ∈ liveInAt (sweep nodes old) n ↔
    ∃ node, nodes[n]? = some node ∧ (t ∈ node.uses ∨ t ∈ liveOutAt (sweep nodes old) n ∧ t ∉ node.defs) := by
  rw [liveInAt, liveOutAt, getElem?_sweep]
  cases nodes[n]? with
  | none => simp
  | some node => simp [mem_liveIn_transfer]

/-- Two passes find a temporary at the same positions if jumps back bring it to the same ones. -/
theorem sweep_congr (h : fed nodes old t = fed nodes new t) (n : Nat) :
    (t ∈ liveInAt (sweep nodes old) n ↔ t ∈ liveInAt (sweep nodes new) n) ∧
      (t ∈ liveOutAt (sweep nodes old) n ↔ t ∈ liveOutAt (sweep nodes new) n) := by
  -- a pass goes from the last position to the first
  induction hk : nodes.length - n using Nat.strongRecOn generalizing n with
  | _ k ih =>
    have hlater {node : FlowNode} (hnode : nodes[n]? = some node) (s : Nat) (hlt : n < s) :
        t ∈ liveInAt (sweep nodes old) s ↔ t ∈ liveInAt (sweep nodes new) s := by
      have hn : n < nodes.length := (List.getElem?_eq_some_iff.mp hnode).1
      exact (ih (nodes.length - s) (by omega) s rfl).1
    have hout : t ∈ liveOutAt (sweep nodes old) n ↔ t ∈ liveOutAt (sweep nodes new) n := by
      rw [mem_liveOutAt_sweep, mem_liveOutAt_sweep, h]
      apply or_congr_left
      refine exists_congr fun node => and_congr_right fun hnode => exists_congr fun s => ?_
      exact and_congr_right fun _ => and_congr_right (hlater hnode s)
    refine ⟨?_, hout⟩
    rw [mem_liveInAt_sweep, mem_liveInAt_sweep, hout]

namespace Rising

/-- The state after so many passes. -/
def after (nodes : List FlowNode) : Nat → Rising nodes
  | 0 => initial nodes
  | k + 1 => (after nodes k).next

/-- The pass is the first one that changes nothing. -/
def FirstIdle (nodes : List FlowNode) (pass : Nat) : Prop :=
  ∃ k, pass = k + 1 ∧ (after nodes (k + 1)).sets = (after nodes k).sets ∧
    ∀ j < k, (after nodes (j + 1)).sets ≠ (after nodes j).sets

private theorem fed_mono (nodes : List FlowNode) (t : Temp) (k : Nat) :
    fed nodes (after nodes k).sets t ⊆ fed nodes (after nodes (k + 1)).sets t := by
  intro n hn
  obtain ⟨node, hnode, s, hs, hle, hm⟩ := mem_fed.mp hn
  exact mem_fed.mpr ⟨node, hnode, s, hs, hle, liveInAt_mono (after nodes k).rises s hm⟩

private theorem fed_congr (h : ∀ n, t ∈ liveInAt old n ↔ t ∈ liveInAt new n) : fed nodes old t = fed nodes new t := by
  ext n
  simp only [mem_fed, h]

/-- Once a pass brings a temporary back to no further position, no later pass does; up to then, each has added one. -/
private theorem fed_eq_or_card (nodes : List FlowNode) (t : Temp) (k : Nat) :
    fed nodes (after nodes k).sets t = fed nodes (after nodes (k + 1)).sets t ∨
      k < (fed nodes (after nodes (k + 1)).sets t).card := by
  have hgrows (k : Nat) : fed nodes (after nodes k).sets t = fed nodes (after nodes (k + 1)).sets t ∨
      (fed nodes (after nodes k).sets t).card < (fed nodes (after nodes (k + 1)).sets t).card :=
    (fed_mono nodes t k).eq_or_ssubset.imp_right Finset.card_lt_card
  induction k with
  | zero => exact (hgrows 0).imp_right Nat.zero_lt_of_lt
  | succ k ih =>
    rcases ih with hsame | hcard
    · exact .inl (fed_congr fun n => (sweep_congr hsame n).1)
    · exact (hgrows (k + 1)).imp_right (Nat.lt_of_le_of_lt hcard)

/-- One pass more than there are positions to go back from, and the sets stay as they are. -/
theorem sets_after_backward (nodes : List FlowNode) :
    (after nodes ((backward nodes).card + 2)).sets = (after nodes ((backward nodes).card + 1)).sets := by
  apply eq_of_same_mem
  · exact (length_sweepFrom _ _ _).trans (length_sweepFrom _ _ _).symm
  · intro n t
    have hfed : fed nodes (after nodes ((backward nodes).card + 1)).sets t =
        fed nodes (after nodes (backward nodes).card).sets t := by
      rcases fed_eq_or_card nodes t (backward nodes).card with hsame | hcard
      · exact hsame.symm
      · exact absurd hcard (Nat.not_lt.mpr (Finset.card_le_card fed_subset_backward))
    exact sweep_congr hfed n

private theorem idle_after_passes (state : Rising nodes) (k : Nat) (hk : state = after nodes k) :
    (after nodes (k + state.passes.length + 1)).sets = (after nodes (k + state.passes.length)).sets ∧
      ∀ j < state.passes.length, (after nodes (k + j + 1)).sets ≠ (after nodes (k + j)).sets := by
  fun_induction passes state generalizing k with
  | case1 state next hsame =>
    subst hk
    exact ⟨hsame, fun j hj => absurd hj (Nat.not_lt_zero j)⟩
  | case2 state next hmore ih =>
    subst hk
    obtain ⟨hidle, hbusy⟩ := ih (k + 1) rfl
    rw [List.length_cons, show k + (next.passes.length + 1) = k + 1 + next.passes.length by omega]
    refine ⟨hidle, fun j hj => ?_⟩
    cases j with
    | zero => exact hmore
    | succ j =>
      rw [show k + (j + 1) = k + 1 + j by omega]
      exact hbusy j (by omega)

end Rising
end FlowNode

namespace Liveness
open LabelIndex FlowNode
variable {l : Liveness} {commands : List Command} {n : Nat}

/-- The positions that control can go back from, or stay at. -/
def backward (l : Liveness) : Finset Nat := FlowNode.backward l.nodes

theorem mem_backward : n ∈ l.backward ↔ ∃ s ≤ n, l.Follows n s := by
  simp only [backward, FlowNode.mem_backward, follows_iff]
  constructor
  · rintro ⟨node, hnode, s, hs, hle⟩
    exact ⟨s, hle, node, hnode, hs⟩
  · rintro ⟨s, hle, node, hnode, hs⟩
    exact ⟨node, hnode, s, hs, hle⟩

theorem firstIdle_iterations (h : ofCommands commands = .ok l) : Rising.FirstIdle l.nodes l.iterations := by
  obtain ⟨_, _, _, hl⟩ := ofCommands_eq_ok h
  have hpasses : l.history = (Rising.initial l.nodes).passes := congrArg history hl
  have hidle := Rising.idle_after_passes (Rising.initial l.nodes) 0 rfl
  simp only [Nat.zero_add, ← hpasses] at hidle
  exact ⟨l.history.length, rfl, hidle⟩

theorem iterations_le (h : ofCommands commands = .ok l) : l.iterations ≤ l.backward.card + 2 := by
  obtain ⟨k, hk, _, hbusy⟩ := firstIdle_iterations h
  have hle : k ≤ (FlowNode.backward l.nodes).card + 1 := by
    apply Nat.le_of_not_lt
    intro hlt
    exact hbusy _ hlt (Rising.sets_after_backward l.nodes)
  rw [hk]
  exact Nat.succ_le_succ hle

/-- The analysis of a listing ends if its labels are defined once and its jumps go somewhere: its last pass is the first
that changes nothing. It makes at most two passes more than there are positions with a successor at or before them; so
at most two passes if there are no jumps back, however long the listing is. -/
theorem iterations_within_backward (hlabels : ∀ n, ¬ Repeats commands n)
    (htargets : ∀ name n, ¬ DanglesTo commands name n) :
    ∃ l, ofCommands commands = .ok l ∧ Rising.FirstIdle l.nodes l.iterations ∧
      l.iterations ≤ l.backward.card + 2 ∧ ((∀ n s, l.Follows n s → n < s) → l.iterations ≤ 2) := by
  obtain ⟨l, hl⟩ := exists_ofCommands_iff.mpr ⟨hlabels, htargets⟩
  have hle := iterations_le hl
  refine ⟨l, hl, firstIdle_iterations hl, hle, fun hforward => ?_⟩
  have hnone : l.backward = ∅ := by
    rw [Finset.eq_empty_iff_forall_notMem]
    intro n hn
    obtain ⟨s, hback, hs⟩ := mem_backward.mp hn
    exact absurd (hforward n s hs) (Nat.not_lt.mpr hback)
  rwa [hnone, Finset.card_empty, Nat.zero_add] at hle

/-- A loop that waits for a temporary to be other than zero. -/
def waiting : List Command := [.label "wait", .jumpIfZero ⟨0⟩ "wait"]

/-- It has one jump back, and takes all of the three passes that it may. -/
theorem waiting_takes_three : ∃ l, ofCommands waiting = .ok l ∧ l.backward.card = 1 ∧
    l.iterations ≤ l.backward.card + 2 ∧ l.iterations = 3 := by
  have hok : ∃ l ∈ (ofCommands waiting).toOption, l.backward.card = 1 ∧ l.iterations = 3 := by decide +kernel
  obtain ⟨l, hl, hcard, hiterations⟩ := exists_ok_of_toOption hok
  obtain ⟨hlabels, htargets⟩ := exists_ofCommands_iff.mp ⟨l, hl⟩
  obtain ⟨_, hl', _, hle, _⟩ := iterations_within_backward hlabels htargets
  cases hl.symm.trans hl'
  exact ⟨l, hl, hcard, hle, hiterations⟩

end Liveness
end RegisterColoring

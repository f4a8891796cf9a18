import RegisterColoring.Flow

/-! One backward pass of the liveness analysis over a listing. Main statements: a pass keeps the order
by inclusion, and invents no temporaries. -/
namespace RegisterColoring

/-- The temporaries needed just before and just after an instruction. -/
structure LiveSets where
  liveIn : TempSet
  liveOut : TempSet
deriving DecidableEq

namespace LiveSets

def empty : LiveSets := ⟨∅, ∅⟩

def Within (a b : LiveSets) : Prop :=
  (∀ t, t ∈ a.liveIn → t ∈ b.liveIn) ∧ (∀ t, t ∈ a.liveOut → t ∈ b.liveOut)

/-- The live-in set at a position, empty where there is none. -/
def liveInAt (sets : List LiveSets) (position : Nat) : TempSet :=
  (sets[position]?.map liveIn).getD ∅

@[simp] theorem liveInAt_nil (position : Nat) : liveInAt [] position = ∅ := rfl

@[simp] theorem liveInAt_cons_zero (a : LiveSets) (sets : List LiveSets) :
    liveInAt (a :: sets) 0 = a.liveIn := rfl

@[simp] theorem liveInAt_cons_succ (a : LiveSets) (sets : List LiveSets) (position : Nat) :
    liveInAt (a :: sets) (position + 1) = liveInAt sets position := rfl

/-- Position by position, the sets of one listing are part of those of another as long. -/
def AllWithin : List LiveSets → List LiveSets → Prop
  | [], [] => True
  | a :: as, b :: bs => Within a b ∧ AllWithin as bs
  | _, _ => False

def Covered (mentioned : TempSet) (sets : List LiveSets) : Prop :=
  ∀ a ∈ sets, Within a ⟨mentioned, mentioned⟩

theorem liveInAt_mono {as bs : List LiveSets} (h : AllWithin as bs) (position : Nat) {t : Temp}
    (ht : t ∈ liveInAt as position) : t ∈ liveInAt bs position := by
  induction as generalizing bs position with
  | nil => simp at ht
  | cons a as ih =>
    cases bs with
    | nil => exact h.elim
    | cons b bs =>
      cases position with
      | zero => exact h.1.1 t ht
      | succ position => exact ih h.2 position ht

theorem liveInAt_covered {mentioned : TempSet} {sets : List LiveSets} (h : Covered mentioned sets)
    (position : Nat) {t : Temp} (ht : t ∈ liveInAt sets position) : t ∈ mentioned := by
  unfold liveInAt at ht
  cases hp : sets[position]? with
  | none => simp [hp] at ht
  | some a =>
    rw [hp] at ht
    exact (h a (List.mem_of_getElem? hp)).1 t ht

end LiveSets

namespace FlowNode

/-- What an instruction needs, if `liveIn` tells what its successors need: after it all that, and
before it that without what it writes and with what it reads. -/
def transfer (node : FlowNode) (liveIn : Nat → TempSet) : LiveSets :=
  let after := TempSet.unionMap liveIn node.successors
  ⟨node.uses ∪ (after \ node.defs), after⟩

theorem mem_liveOut_transfer {node : FlowNode} {liveIn : Nat → TempSet} {t : Temp} :
    t ∈ (node.transfer liveIn).liveOut ↔ ∃ s ∈ node.successors, t ∈ liveIn s := by
  simp [transfer]

theorem mem_liveIn_transfer {node : FlowNode} {liveIn : Nat → TempSet} {t : Temp} :
    t ∈ (node.transfer liveIn).liveIn ↔
      t ∈ node.uses ∨ t ∈ (node.transfer liveIn).liveOut ∧ t ∉ node.defs := by
  simp [transfer]

theorem transfer_mono {node : FlowNode} {f g : Nat → TempSet} (h : ∀ s t, t ∈ f s → t ∈ g s) :
    (node.transfer f).Within (node.transfer g) := by
  constructor <;> intro t ht
  · rw [mem_liveIn_transfer, mem_liveOut_transfer] at ht ⊢
    exact ht.imp id fun ⟨⟨s, hs, hm⟩, hd⟩ => ⟨⟨s, hs, h s t hm⟩, hd⟩
  · rw [mem_liveOut_transfer] at ht ⊢
    obtain ⟨s, hs, hm⟩ := ht
    exact ⟨s, hs, h s t hm⟩

def temps (nodes : List FlowNode) : TempSet :=
  TempSet.unionMap (fun node => node.defs ∪ node.uses) nodes

theorem mem_temps {nodes : List FlowNode} {t : Temp} :
    t ∈ temps nodes ↔ ∃ node ∈ nodes, t ∈ node.defs ∨ t ∈ node.uses := by
  simp [temps]

/-- A pass over the nodes from `position` on. The last one comes first, so that a node sees what the
pass has found for later positions, and what `old` says about its own and earlier ones. -/
def sweepFrom (old : List LiveSets) : Nat → List FlowNode → List LiveSets
  | _, [] => []
  | position, node :: rest =>
    let later := sweepFrom old (position + 1) rest
    node.transfer (fun s =>
      if position < s then LiveSets.liveInAt later (s - (position + 1))
      else LiveSets.liveInAt old s) :: later

def sweep (nodes : List FlowNode) (old : List LiveSets) : List LiveSets := sweepFrom old 0 nodes

open LiveSets

private theorem sweepFrom_mono {old new : List LiveSets} (h : AllWithin old new) (position : Nat)
    (nodes : List FlowNode) :
    AllWithin (sweepFrom old position nodes) (sweepFrom new position nodes) := by
  induction nodes generalizing position with
  | nil => exact trivial
  | cons node rest ih =>
    refine ⟨transfer_mono fun s t ht => ?_, ih (position + 1)⟩
    split
    · next hs => rw [if_pos hs] at ht; exact liveInAt_mono (ih (position + 1)) _ ht
    · next hs => rw [if_neg hs] at ht; exact liveInAt_mono h _ ht

/-- From larger sets a pass gets larger sets. -/
theorem sweep_mono (nodes : List FlowNode) {old new : List LiveSets} (h : AllWithin old new) :
    AllWithin (sweep nodes old) (sweep nodes new) :=
  sweepFrom_mono h 0 nodes

private theorem sweepFrom_covered {mentioned : TempSet} {old : List LiveSets}
    (h : Covered mentioned old) (position : Nat) (nodes : List FlowNode)
    (hn : ∀ node ∈ nodes, ∀ t, t ∈ node.uses → t ∈ mentioned) :
    Covered mentioned (sweepFrom old position nodes) := by
  induction nodes generalizing position with
  | nil => intro a ha; simp [sweepFrom] at ha
  | cons node rest ih =>
    have hrest := ih (position + 1) fun n hm => hn n (List.mem_cons_of_mem _ hm)
    have hout : ∀ t, t ∈ (node.transfer (fun s =>
        if position < s then liveInAt (sweepFrom old (position + 1) rest) (s - (position + 1))
        else liveInAt old s)).liveOut → t ∈ mentioned := by
      intro t ht
      obtain ⟨s, _, hs⟩ := mem_liveOut_transfer.mp ht
      split at hs
      · exact liveInAt_covered hrest _ hs
      · exact liveInAt_covered h _ hs
    intro a ha
    rw [sweepFrom, List.mem_cons] at ha
    obtain rfl | ha := ha
    · refine ⟨fun t ht => ?_, hout⟩
      exact (mem_liveIn_transfer.mp ht).elim (hn node List.mem_cons_self t) fun hm => hout t hm.1
    · exact hrest a ha

/-- A pass finds temporaries of the listing only. -/
theorem sweep_covered (nodes : List FlowNode) {old : List LiveSets} (h : Covered (temps nodes) old) :
    Covered (temps nodes) (sweep nodes old) :=
  sweepFrom_covered h 0 nodes fun node hn _ ht => mem_temps.mpr ⟨node, hn, .inr ht⟩

end FlowNode
end RegisterColoring

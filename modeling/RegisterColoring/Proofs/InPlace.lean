import RegisterColoring.Proofs.LiveEquations

/-! A pass as a loop from the last position to the first that overwrites the sets in place. Main statement: if control
stays within the listing, the loop looks at positions of the listing only; it leaves the sets of a pass, has logged every
change, and knows whether there was one. -/
namespace RegisterColoring

/-- What the sets call for at a node. There is no answer if a successor has no sets. -/
def FlowNode.transfer? (node : FlowNode) (sets : List LiveSets) : Option LiveSets := do
  let found ← node.successors.mapM fun s => sets[s]?
  let after := TempSet.unionMap LiveSets.liveIn found
  return ⟨node.uses ∪ (after \ node.defs), after⟩

/-- A pass on its way. -/
structure Sweeping where
  /-- The sets as they are now. -/
  sets : List LiveSets
  /-- The changes so far, each with the new sets of its position. -/
  log : List (Nat × LiveSets)
  changed : Bool
deriving DecidableEq

namespace Sweeping

/-- Brings the sets of a position up to date. -/
def visit? (nodes : List FlowNode) (position : Nat) (p : Sweeping) : Option Sweeping := do
  let node ← nodes[position]?
  let old ← p.sets[position]?
  let new ← node.transfer? p.sets
  return if new = old then p else ⟨p.sets.set position new, p.log ++ [(position, new)], true⟩

/-- Brings the sets of all positions below a bound up to date, the last one first. -/
def visitBelow? (nodes : List FlowNode) : Nat → Sweeping → Option Sweeping
  | 0, p => some p
  | position + 1, p => (p.visit? nodes position).bind (visitBelow? nodes position)

/-- A whole pass over the sets. -/
def pass? (nodes : List FlowNode) (sets : List LiveSets) : Option Sweeping :=
  visitBelow? nodes sets.length ⟨sets, [], false⟩

end Sweeping

namespace FlowNode
open LiveSets

/-- Control never leaves the listing. -/
def Closed (nodes : List FlowNode) : Prop := ∀ node ∈ nodes, ∀ s ∈ node.successors, s < nodes.length

variable {node : FlowNode} {sets : List LiveSets}

private theorem mapM_getElem? {positions : List Nat} (h : ∀ s ∈ positions, s < sets.length) :
    (positions.mapM fun s => sets[s]?) = some (positions.map fun s => sets[s]?.getD .empty) := by
  induction positions with
  | nil => rfl
  | cons s positions ih =>
    have hs : sets[s]? = some (sets[s]?.getD .empty) := by
      rw [List.getElem?_eq_getElem (h s List.mem_cons_self)]
      rfl
    rw [List.mapM_cons, hs, ih fun r hr => h r (List.mem_cons_of_mem s hr)]
    rfl

/-- If all successors have sets, the node gets what they need. -/
theorem transfer?_eq_some (h : ∀ s ∈ node.successors, s < sets.length) :
    node.transfer? sets = some (node.transfer (liveInAt sets)) := by
  have hin (s : Nat) : (sets[s]?.getD .empty).liveIn = liveInAt sets s := by
    rw [liveInAt]
    cases sets[s]? <;> rfl
  have hunion : TempSet.unionMap liveIn (node.successors.map fun s => sets[s]?.getD .empty) =
      TempSet.unionMap (liveInAt sets) node.successors := by
    simp only [TempSet.unionMap, List.foldl_map, hin]
  unfold transfer?
  rw [mapM_getElem? h]
  simp only [Option.bind_eq_bind, Option.bind_some, hunion]
  rfl

end FlowNode

namespace Sweeping
open FlowNode LiveSets
variable {nodes : List FlowNode} {old new : List LiveSets} {k : Nat}

/-- The changes at the positions from `k` on, last position first. -/
private def changesFrom (old new : List LiveSets) (k : Nat) : List (Nat × LiveSets) :=
  (((old.zip new).zipIdx.drop k).filterMap fun ((a, b), position) =>
    if a = b then none else some (position, b)).reverse

/-- The pass when it has been to the positions from `k` on. -/
private def midway (old new : List LiveSets) (k : Nat) : Sweeping where
  sets := old.take k ++ new.drop k
  log := changesFrom old new k
  changed := !(changesFrom old new k).isEmpty

private theorem changesFrom_eq {a b : LiveSets} (ha : old[k]? = some a) (hb : new[k]? = some b) :
    changesFrom old new k = changesFrom old new (k + 1) ++ if b = a then [] else [(k, b)] := by
  have hzip : (old.zip new)[k]? = some (a, b) := List.getElem?_zip_eq_some.mpr ⟨ha, hb⟩
  have hget : (old.zip new).zipIdx[k]? = some ((a, b), k) := by
    rw [List.getElem?_zipIdx, hzip, Option.map_some, Nat.zero_add]
  obtain ⟨hk, hget⟩ := List.getElem?_eq_some_iff.mp hget
  rw [changesFrom, List.drop_eq_getElem_cons hk, hget, changesFrom]
  by_cases hab : a = b
  · simp [hab]
  · simp [hab, Ne.symm hab]

private theorem liveInAt_midway (hlen : new.length = old.length) (hk : k < old.length) (s : Nat) :
    liveInAt (midway old new (k + 1)).sets s = if k < s then liveInAt new s else liveInAt old s := by
  have hget : (midway old new (k + 1)).sets[s]? = if k < s then new[s]? else old[s]? := by
    simp only [midway]
    grind
  rw [liveInAt, hget]
  split <;> rfl

private theorem set_midway {a b : LiveSets} (ha : old[k]? = some a) (hb : new[k]? = some b) :
    (old.take (k + 1) ++ new.drop (k + 1)).set k b = old.take k ++ new.drop k := by
  obtain ⟨hold, rfl⟩ := List.getElem?_eq_some_iff.mp ha
  obtain ⟨hnew, rfl⟩ := List.getElem?_eq_some_iff.mp hb
  have hlen : (old.take k).length = k := List.length_take_of_le (Nat.le_of_lt hold)
  rw [← List.take_append_getElem hold, List.drop_eq_getElem_cons hnew, List.append_assoc,
    List.set_append_right _ _ (Nat.le_of_eq hlen), hlen, Nat.sub_self]
  rfl

/-- A visit brings the loop from one position to the one before it. -/
private theorem visit?_midway (hclosed : Closed nodes) (hlen : old.length = nodes.length) (hk : k < nodes.length) :
    (midway old (sweep nodes old) (k + 1)).visit? nodes k = some (midway old (sweep nodes old) k) := by
  have hnew : (sweep nodes old).length = old.length := (length_sweepFrom old 0 nodes).trans hlen.symm
  have hnode : nodes[k]? = some nodes[k] := List.getElem?_eq_getElem hk
  obtain ⟨a, ha⟩ : ∃ a, old[k]? = some a := ⟨_, List.getElem?_eq_getElem (hlen ▸ hk)⟩
  obtain ⟨b, hb⟩ : ∃ b, (sweep nodes old)[k]? = some b := ⟨_, List.getElem?_eq_getElem (hnew ▸ hlen ▸ hk)⟩
  have hcurrent : (midway old (sweep nodes old) (k + 1)).sets[k]? = some a := by
    simp only [midway]
    grind
  -- the sets are old up to here and new behind, which is what a pass goes by
  have htransfer : nodes[k].transfer? (midway old (sweep nodes old) (k + 1)).sets = some b := by
    rw [transfer?_eq_some, ← hb, getElem?_sweep, hnode]
    · refine congrArg (some ∘ nodes[k].transfer) (funext fun s => ?_)
      exact liveInAt_midway hnew (hlen ▸ hk) s
    · intro s hs
      have := hclosed _ (List.getElem_mem hk) s hs
      simp only [midway, List.length_append, List.length_take, List.length_drop]
      omega
  have hsets := set_midway ha hb
  simp only [visit?, hnode, hcurrent, htransfer, Option.bind_eq_bind, Option.bind_some, Option.pure_def]
  apply congrArg some
  by_cases hab : b = a
  · subst hab
    obtain ⟨_, hget⟩ := List.getElem?_eq_some_iff.mp hcurrent
    simp only [midway, ← hget, List.set_getElem_self] at hsets
    rw [if_pos rfl]
    simp only [midway, changesFrom_eq ha hb, if_pos, List.append_nil, hsets]
  · rw [if_neg hab]
    simp only [midway, changesFrom_eq ha hb, if_neg hab, hsets]
    simp

private theorem visitBelow?_midway (hclosed : Closed nodes) (hlen : old.length = nodes.length) (hk : k ≤ nodes.length) :
    visitBelow? nodes k (midway old (sweep nodes old) k) = some (midway old (sweep nodes old) 0) := by
  induction k with
  | zero => rfl
  | succ k ih =>
    rw [visitBelow?, visit?_midway hclosed hlen hk, Option.bind_some]
    exact ih (Nat.le_of_succ_le hk)

/-- The loop finds sets wherever it looks, and overwriting comes to the same as a pass that builds new sets. -/
theorem pass?_eq_some (hclosed : Closed nodes) (hlen : old.length = nodes.length) :
    pass? nodes old = some ⟨sweep nodes old, Liveness.changes old (sweep nodes old),
      !(Liveness.changes old (sweep nodes old)).isEmpty⟩ := by
  have hstart : midway old (sweep nodes old) old.length = ⟨old, [], false⟩ := by
    have hnew : (sweep nodes old).length = old.length := (length_sweepFrom old 0 nodes).trans hlen.symm
    have hpairs : (old.zip (sweep nodes old)).zipIdx.drop old.length = [] := by
      apply List.drop_eq_nil_of_le
      rw [List.length_zipIdx, List.length_zip]
      exact Nat.min_le_left _ _
    have hnone : changesFrom old (sweep nodes old) old.length = [] := by rw [changesFrom, hpairs]; rfl
    have hsets : old.take old.length ++ (sweep nodes old).drop old.length = old := by simp [hnew]
    rw [midway, hnone, hsets]
    rfl
  have hend : midway old (sweep nodes old) 0 = ⟨sweep nodes old, Liveness.changes old (sweep nodes old),
      !(Liveness.changes old (sweep nodes old)).isEmpty⟩ := rfl
  rw [pass?, ← hstart, ← hend]
  exact visitBelow?_midway hclosed hlen (Nat.le_of_eq hlen)

end Sweeping

/-- The nodes of a listing lead to positions of the listing only. -/
theorem Liveness.closed_nodes {commands : List Command} {l : Liveness} (h : ofCommands commands = .ok l) :
    FlowNode.Closed l.nodes := by
  intro node hnode s hs
  obtain ⟨n, hn⟩ := List.mem_iff_getElem?.mp hnode
  obtain ⟨c, _, hflow⟩ := (follows_iff_command h).mp (follows_iff.mpr ⟨node, hn, hs⟩)
  have hsize : l.nodes.length = commands.length := size_eq h
  rw [hsize]
  rcases hflow with ⟨_, _, hlt⟩ | ⟨name, _, hlabel⟩
  · exact hlt
  · exact (List.getElem?_eq_some_iff.mp hlabel).1

end RegisterColoring

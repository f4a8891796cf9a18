import RegisterColoring.Liveness.Passes

/-! The liveness of a listing: which temporaries are needed before and after each position, and how the
passes of the analysis got there. -/
namespace RegisterColoring

/-- The outcome of the analysis: the control flow, and the sets after each pass that changed some. -/
structure Liveness where
  nodes : List FlowNode
  history : List (List LiveSets)
deriving DecidableEq

namespace Liveness

def ofNodes (nodes : List FlowNode) : Liveness :=
  ⟨nodes, (FlowNode.Rising.initial nodes).passes⟩

/-- The liveness of a listing. Labels are looked at before jumps. -/
def ofCommands (commands : List Command) : Except Fault Liveness := do
  let labels ← LabelIndex.ofCommands commands
  let nodes ← FlowNode.ofCommands labels commands
  return ofNodes nodes

def sets (l : Liveness) : List LiveSets := l.history.getLastD (FlowNode.unswept l.nodes)

/-- The number of passes, with the last one, which changed nothing. -/
def iterations (l : Liveness) : Nat := l.history.length + 1

def size (l : Liveness) : Nat := l.nodes.length

def temps (l : Liveness) : TempSet := FlowNode.temps l.nodes

def item {α : Type} (items : List α) (position : Nat) : Except Fault α :=
  match items[position]? with
  | some x => .ok x
  | none => .error (.positionOutOfRange position items.length)

def liveIn (l : Liveness) (position : Nat) : Except Fault TempSet :=
  (item l.sets position).map LiveSets.liveIn

def liveOut (l : Liveness) (position : Nat) : Except Fault TempSet :=
  (item l.sets position).map LiveSets.liveOut

def defs (l : Liveness) (position : Nat) : Except Fault TempSet :=
  (item l.nodes position).map FlowNode.defs

def uses (l : Liveness) (position : Nat) : Except Fault TempSet :=
  (item l.nodes position).map FlowNode.uses

def successors (l : Liveness) (position : Nat) : Except Fault (List Nat) :=
  (item l.nodes position).map FlowNode.successors

/-- The positions whose sets differ after a pass, last position first, with the sets after it. -/
def changes (before after : List LiveSets) : List (Nat × LiveSets) :=
  ((before.zip after).zipIdx.filterMap fun ((old, new), position) =>
    if old = new then none else some (position, new)).reverse

def allChanges (l : Liveness) : List (Nat × LiveSets) :=
  ((FlowNode.unswept l.nodes :: l.history).zip l.history).flatMap fun (before, after) =>
    changes before after

end Liveness
end RegisterColoring

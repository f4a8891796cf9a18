import RegisterColoring.Command
import RegisterColoring.Fault

/-! The control flow of a listing: which positions can follow each position. -/
namespace RegisterColoring

abbrev LabelIndex := List (String × Nat)

namespace LabelIndex

/-- Adds the labels of the instructions from `position` on to the labels before them. -/
def extend (labels : LabelIndex) (position : Nat) : List Command → Except Fault LabelIndex
  | [] => .ok labels
  | c :: rest =>
    match c.label? with
    | none => labels.extend (position + 1) rest
    | some name =>
      match labels.lookup name with
      | none => LabelIndex.extend ((name, position) :: labels) (position + 1) rest
      | some first => .error (.duplicateLabel name first position)

def ofCommands (commands : List Command) : Except Fault LabelIndex :=
  LabelIndex.extend [] 0 commands

end LabelIndex

/-- An instruction as the analysis sees it: what it writes, what it reads, and where control goes. -/
structure FlowNode where
  defs : TempSet
  uses : TempSet
  successors : List Nat
deriving DecidableEq

namespace FlowNode

/-- The positions that can follow the instruction at a position of a listing of `size` instructions:
the next one if control falls through to it, then the target of a jump. -/
def successorsOf (labels : LabelIndex) (size position : Nat) (c : Command) :
    Except Fault (List Nat) :=
  let next := if c.fallsThrough && position + 1 < size then [position + 1] else []
  match c.target? with
  | none => .ok next
  | some name =>
    match labels.lookup name with
    | none => .error (.unknownLabel name position)
    | some target => .ok (if target ∈ next then next else next ++ [target])

def ofCommand (labels : LabelIndex) (size position : Nat) (c : Command) : Except Fault FlowNode :=
  (successorsOf labels size position c).map fun successors =>
    { defs := .ofTemps c.def?.toList, uses := .ofTemps c.uses, successors }

def ofCommands (labels : LabelIndex) (commands : List Command) : Except Fault (List FlowNode) :=
  commands.zipIdx.mapM fun (c, position) => ofCommand labels commands.length position c

end FlowNode
end RegisterColoring

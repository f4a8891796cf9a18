import RegisterColoring.Temp

/-! Three-address instructions: what each defines, uses and where control goes from it. -/
namespace RegisterColoring

inductive Operator where
  | add | sub | mul | div | eq | gt | lt
deriving DecidableEq

/-- A place in memory: a global by its name, or a slot at an offset from the frame pointer. -/
inductive Address where
  | global (name : String)
  | frame (offset : Int64)
deriving DecidableEq

inductive Command where
  | compute (op : Operator) (dst lhs rhs : Temp)
  | const (dst : Temp) (value : Int64)
  | load (dst : Temp) (addr : Address)
  | store (src : Temp) (addr : Address)
  | print (src : Temp)
  | ret (value : Option Temp)
  | jumpIfZero (cond : Temp) (target : String)
  | jump (target : String)
  | label (name : String)
deriving DecidableEq

namespace Command

/-- The temporary that the instruction writes. -/
def def? : Command → Option Temp
  | compute _ dst _ _ => some dst
  | const dst _ => some dst
  | load dst _ => some dst
  | _ => none

/-- The temporaries that the instruction reads, in the order of its text and with repetitions. -/
def uses : Command → List Temp
  | compute _ _ lhs rhs => [lhs, rhs]
  | store src _ => [src]
  | print src => [src]
  | ret value => value.toList
  | jumpIfZero cond _ => [cond]
  | _ => []

def temps (c : Command) : List Temp := c.def?.toList ++ c.uses

def fallsThrough : Command → Bool
  | ret _ => false
  | jump _ => false
  | _ => true

/-- The label that the instruction can jump to. -/
def target? : Command → Option String
  | jumpIfZero _ target => some target
  | jump target => some target
  | _ => none

def label? : Command → Option String
  | label name => some name
  | _ => none

end Command
end RegisterColoring

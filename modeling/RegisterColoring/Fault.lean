import RegisterColoring.Temp

/-! Why a listing gets no registers, or a question about it no answer. -/
namespace RegisterColoring

/-- The causes of failure. Positions count the instructions of a listing from zero. -/
inductive Fault where
  | duplicateLabel (name : String) (first second : Nat)
  | unknownLabel (name : String) (position : Nat)
  | tooFewRegisters (registers : Nat) (uncolorable : List Temp)
  | positionOutOfRange (position size : Nat)
  | notInGraph (temp : Temp)
  | invalidPool (reason : String)
deriving DecidableEq

namespace Fault

def message : Fault → String
  | duplicateLabel name first second =>
    "Malformed IR: label '" ++ name ++ "' defined at instruction " ++ first.repr ++
      " and again at instruction " ++ second.repr
  | unknownLabel name position =>
    "Malformed IR: instruction " ++ position.repr ++ " jumps to undefined label '" ++ name ++ "'"
  | tooFewRegisters registers uncolorable =>
    "Register allocation failed: insufficient registers (" ++ registers.repr ++
      " available) to color " ++ braced (uncolorable.map Temp.text)
  | positionOutOfRange position size =>
    "Instruction position " ++ position.repr ++ " out of range for listing of " ++ size.repr ++
      " instruction(s)"
  | notInGraph temp => "Temporary " ++ temp.text ++ " is not in the interference graph"
  | invalidPool reason => "Invalid register pool: " ++ reason

def isMalformedListing : Fault → Bool
  | duplicateLabel _ _ _ => true
  | unknownLabel _ _ => true
  | _ => false

/-- Whether the question was at fault. -/
def isPreconditionViolation : Fault → Bool
  | positionOutOfRange _ _ => true
  | notInGraph _ => true
  | _ => false

end Fault
end RegisterColoring

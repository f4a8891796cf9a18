import RegisterColoring.Temp

/-! The log of an allocation: what each step found. -/
namespace RegisterColoring

inductive Severity where
  | warn | debug | trace
deriving DecidableEq

def Severity.word : Severity → String
  | warn => "WARN"
  | debug => "DEBUG"
  | trace => "TRACE"

inductive Event where
  | labelsFound (instructions labels : Nat)
  | setsChanged (position : Nat) (liveIn liveOut : TempSet)
  /-- The last of so many passes changed nothing. -/
  | passesDone (passes : Nat)
  | graphBuilt (temps edges : Nat)
  | putAside (temp : Temp) (degree : Nat)
  | stuck (registers remaining : Nat)
  | assigned (temp : Temp) (register : String)
  | colored (temps used registers : Nat)
deriving DecidableEq

namespace Event

def severity : Event → Severity
  | labelsFound _ _ => .debug
  | setsChanged _ _ _ => .trace
  | passesDone _ => .debug
  | graphBuilt _ _ => .debug
  | putAside _ _ => .trace
  | stuck _ _ => .warn
  | assigned _ _ => .trace
  | colored _ _ _ => .debug

/-- The log writes a set with the serials of its members. -/
def setText (s : TempSet) : String :=
  braced (s.toList.map fun t => "Temp(" ++ t.serial.toNat.repr ++ ")")

def text : Event → String
  | labelsFound instructions labels =>
    "liveness: " ++ instructions.repr ++ " instruction(s), " ++ labels.repr ++ " label(s)"
  | setsChanged position liveIn liveOut =>
    "liveness: [" ++ position.repr ++ "] in " ++ setText liveIn ++ " out " ++ setText liveOut
  | passesDone passes => "liveness: fixpoint reached after " ++ passes.repr ++ " pass(es)"
  | graphBuilt temps edges =>
    "interference: " ++ temps.repr ++ " temp(s), " ++ edges.repr ++ " edge(s)"
  | putAside temp degree =>
    "allocator: push " ++ temp.text ++ " (effective degree " ++ degree.repr ++ ")"
  | stuck registers remaining =>
    "allocator: no temp with fewer than " ++ registers.repr ++ " live neighbours among " ++
      remaining.repr ++ " remaining"
  | assigned temp register => "allocator: " ++ temp.text ++ " -> " ++ register
  | colored temps used registers =>
    "allocator: colored " ++ temps.repr ++ " temp(s) with " ++ used.repr ++ " of " ++
      registers.repr ++ " register(s)"

end Event
end RegisterColoring

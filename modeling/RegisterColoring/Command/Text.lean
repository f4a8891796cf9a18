import RegisterColoring.Command

/-! The spelling of instructions in a listing. -/
namespace RegisterColoring

def Operator.mnemonic : Operator → String
  | add => "add"
  | sub => "sub"
  | mul => "mul"
  | div => "div"
  | eq => "eq"
  | gt => "gt"
  | lt => "lt"

def signed (v : Int64) : String :=
  if v.toInt < 0 then "-" ++ v.toInt.natAbs.repr else v.toInt.natAbs.repr

/-- A global is written `@name`, a slot `[fp+4]` or `[fp-4]`. -/
def Address.text : Address → String
  | global name => "@" ++ name
  | frame offset =>
    "[fp" ++ (if offset.toInt < 0 then "-" else "+") ++ offset.toInt.natAbs.repr ++ "]"

def Command.text : Command → String
  | compute op dst lhs rhs =>
    dst.text ++ " = " ++ op.mnemonic ++ " " ++ lhs.text ++ ", " ++ rhs.text
  | const dst value => dst.text ++ " = " ++ signed value
  | load dst addr => dst.text ++ " = load " ++ addr.text
  | store src addr => "store " ++ src.text ++ ", " ++ addr.text
  | print src => "print " ++ src.text
  | ret none => "return"
  | ret (some value) => "return " ++ value.text
  | jumpIfZero cond target => "jz " ++ cond.text ++ ", " ++ target
  | jump target => "jump " ++ target
  | label name => name ++ ":"

end RegisterColoring

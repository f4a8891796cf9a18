import RegisterColoring.Listing.SyntaxError

/-! The places inside a line. Reading a line moves from place to place, one token at a time; each place
knows which tokens can follow and which instruction the line holds if it ends there. -/
namespace RegisterColoring

/-- An instruction that still lacks its address. -/
inductive Transfer where
  | load (dst : Temp)
  | store (src : Temp)
deriving DecidableEq

def Transfer.command : Transfer → Address → Command
  | load dst, addr => .load dst addr
  | store src, addr => .store src addr

/-- A place inside a line, named for what comes next there, with what the line has said so far. -/
inductive Place where
  | start
  | equals (dst : Temp)
  | value (dst : Temp)
  | magnitude (dst : Temp)
  | leftOperand (op : Operator) (dst : Temp)
  | operandComma (op : Operator) (dst lhs : Temp)
  | rightOperand (op : Operator) (dst lhs : Temp)
  | storeSource
  | storeComma (src : Temp)
  | address (t : Transfer)
  | globalName (t : Transfer)
  | frameBase (t : Transfer)
  | frameSign (t : Transfer)
  | frameDistance (t : Transfer) (below : Bool)
  | frameClose (t : Transfer) (offset : Int64)
  | printSource
  | returnValue
  | condition
  | conditionComma (cond : Temp)
  | branchTarget (cond : Temp)
  | jumpTarget
  | labelColon (name : String)
  | done (c : Command)
deriving DecidableEq

namespace Place

def literal (negative : Bool) (n : Nat) : Int64 := Int64.ofInt (if negative then -n else n)

def next? : Place → Token → Option Place
  | start, .temp dst => some (equals dst)
  | start, .keyword .store => some storeSource
  | start, .keyword .print => some printSource
  | start, .keyword .ret => some returnValue
  | start, .keyword .jz => some condition
  | start, .keyword .jump => some jumpTarget
  | start, .name name => some (labelColon name)
  | equals dst, .symbol .equals => some (value dst)
  | value dst, .operator op => some (leftOperand op dst)
  | value dst, .keyword .load => some (address (.load dst))
  | value dst, .symbol .minus => some (magnitude dst)
  | value dst, .number n => some (done (.const dst (literal false n)))
  | magnitude dst, .number n => some (done (.const dst (literal true n)))
  | leftOperand op dst, .temp lhs => some (operandComma op dst lhs)
  | operandComma op dst lhs, .symbol .comma => some (rightOperand op dst lhs)
  | rightOperand op dst lhs, .temp rhs => some (done (.compute op dst lhs rhs))
  | storeSource, .temp src => some (storeComma src)
  | storeComma src, .symbol .comma => some (address (.store src))
  | address t, .symbol .atSign => some (globalName t)
  | address t, .symbol .openBracket => some (frameBase t)
  | globalName t, .name name => some (done (t.command (.global name)))
  | frameBase t, .keyword .fp => some (frameSign t)
  | frameSign t, .symbol .plus => some (frameDistance t false)
  | frameSign t, .symbol .minus => some (frameDistance t true)
  | frameSign t, .symbol .closeBracket => some (done (t.command (.frame 0)))
  | frameDistance t below, .number n => some (frameClose t (literal below n))
  | frameClose t offset, .symbol .closeBracket => some (done (t.command (.frame offset)))
  | printSource, .temp src => some (done (.print src))
  | returnValue, .temp t => some (done (.ret (some t)))
  | condition, .temp cond => some (conditionComma cond)
  | conditionComma cond, .symbol .comma => some (branchTarget cond)
  | branchTarget cond, .name target => some (done (.jumpIfZero cond target))
  | jumpTarget, .name target => some (done (.jump target))
  | labelColon name, .symbol .colon => some (done (.label name))
  | _, _ => none

/-- What a line that ends at the place holds: at most one instruction. There is nothing if the line
cannot end there. -/
def finish? : Place → Option (List Command)
  | start => some []
  | returnValue => some [.ret none]
  | done c => some [c]
  | _ => none

def wanted : Place → List Wanted
  | start => [.endOfLine, .instruction, .endOfInput]
  | equals _ => [.symbol .equals]
  | value _ => [.somethingElse, .keyword .load, .integer]
  | magnitude _ => [.somethingElse]
  | leftOperand _ _ => [.temporary]
  | operandComma _ _ _ => [.symbol .comma]
  | rightOperand _ _ _ => [.temporary]
  | storeSource => [.temporary]
  | storeComma _ => [.symbol .comma]
  | address _ => [.address]
  | globalName _ => [.label]
  | frameBase _ => [.keyword .fp]
  | frameSign _ => [.symbol .plus, .symbol .minus, .symbol .closeBracket]
  | frameDistance _ _ => [.somethingElse]
  | frameClose _ _ => [.symbol .closeBracket]
  | printSource => [.temporary]
  | returnValue => [.temporary, .endOfLine, .endOfInput]
  | condition => [.temporary]
  | conditionComma _ => [.symbol .comma]
  | branchTarget _ => [.label]
  | jumpTarget => [.label]
  | labelColon _ => [.symbol .colon]
  | done _ => [.endOfLine, .endOfInput]

end Place
end RegisterColoring

import RegisterColoring.Fault
import RegisterColoring.Listing

/-! Reports of failures that point into the source. -/
namespace RegisterColoring

structure Mark where
  span : Span
  remark : String
deriving DecidableEq

inductive Advice where
  | help (text : String)
  | note (text : String)
deriving DecidableEq

structure Report where
  code : String
  title : String
  span : Span
  marks : List Mark
  advice : Option Advice
deriving DecidableEq

namespace Report

def ofSyntaxError (e : SyntaxError) : Report where
  code := "E001"
  title := "Syntax error in IR listing"
  span := e.span
  marks := [⟨e.span, e.message⟩]
  advice := some (.help
    "Each line holds one instruction, e.g. `t2 = add t0, t1` or `jz t2, done`")

/-- The spans of the instructions that write one of the given temporaries. -/
def definitions (l : Listing) (temps : List Temp) : List Span :=
  (l.lines.filter fun line => line.command.def?.any (· ∈ temps)).map Line.span

/-- The report of a failure on a listing. There is none if the failure points to no instruction. -/
def ofFault? (l : Listing) : Fault → Option Report
  | .duplicateLabel name first second => do
    let firstSpan ← l.spans[first]?
    let secondSpan ← l.spans[second]?
    return {
      code := "E101"
      title := "Label `" ++ name ++ "` is defined more than once"
      span := secondSpan
      marks := [⟨firstSpan, "first defined here"⟩, ⟨secondSpan, "redefined here"⟩]
      advice := some (.help "Every label name must appear in at most one label instruction") }
  | .unknownLabel name position => do
    let span ← l.spans[position]?
    return {
      code := "E102"
      title := "Jump to undefined label `" ++ name ++ "`"
      span
      marks := [⟨span, "no label instruction defines this target"⟩]
      advice := none }
  | .tooFewRegisters registers uncolorable => do
    let spans := definitions l uncolorable
    let span ← spans.head?
    return {
      code := "E201"
      title := "Cannot color " ++ braced (uncolorable.map Temp.text) ++ " with " ++
        registers.repr ++ " register(s)"
      span
      marks := spans.map fun s => ⟨s, "defined while too many others are live"⟩
      advice := some (.note
        "Spilling is not supported; shorten live ranges or add registers") }
  | .positionOutOfRange _ _ => none
  | .notInGraph _ => none
  | .invalidPool _ => none

end Report
end RegisterColoring

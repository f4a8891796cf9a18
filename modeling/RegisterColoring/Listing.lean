import RegisterColoring.Listing.Place
import RegisterColoring.Token.Scan

/-! Listings: one instruction a line, read from a source text. -/
namespace RegisterColoring

structure Line where
  command : Command
  span : Span
deriving DecidableEq

/-- A listing as it was read, and the temporaries above all of its own. -/
structure Listing where
  lines : List Line
  supply : TempSupply
deriving DecidableEq

/-- Why a text is not read as a listing: it has complaints, or it has none and mentions the last
temporary, so that no supply lies above its temporaries. -/
inductive ReadFailure where
  | malformed (errors : List SyntaxError)
  | exhausted
deriving DecidableEq

namespace Listing

def commands (l : Listing) : List Command := l.lines.map Line.command

def spans (l : Listing) : List Span := l.lines.map Line.span

/-- Reads on from a place inside a line whose tokens so far cover a span; `size` is where the input
ends. Reading stops at the first token that cannot follow. -/
def parseFrom (size : Nat) : Place → Span → List (Token × Span) → Except SyntaxError (List Line)
  | place, covered, [] =>
    match place.finish? with
    | some commands => .ok (commands.map (⟨·, covered⟩))
    | none => .error ⟨⟨size, size⟩, none, place.wanted⟩
  | place, covered, (token, span) :: rest =>
    if token = .newline then
      match place.finish? with
      | some commands =>
        (parseFrom size .start span rest).map (commands.map (⟨·, covered⟩) ++ ·)
      | none => .error ⟨span, some token, place.wanted⟩
    else
      match place.next? token with
      | some following =>
        let start := if place = .start then span.start else covered.start
        parseFrom size following ⟨start, span.stop⟩ rest
      | none => .error ⟨span, some token, place.wanted⟩

def parse (size : Nat) (tokens : List (Token × Span)) : Except SyntaxError (List Line) :=
  parseFrom size .start ⟨0, 0⟩ tokens

/-- All temporaries that the instructions mention, in order and with repetitions. -/
def temps (commands : List Command) : List Temp := commands.flatMap Command.temps

/-- Reads a listing. Complaints about tokens come before the one about their order. -/
def ofChars (cs : List Char) : Except ReadFailure Listing :=
  let scan := Scan.ofChars cs
  match scan.tokens with
  | none => .error (.malformed scan.errors)
  | some tokens =>
    match parse (byteLength cs) tokens, scan.errors with
    | .error e, errors => .error (.malformed (errors ++ [e]))
    | .ok _, e :: errors => .error (.malformed (e :: errors))
    | .ok lines, [] =>
      match TempSupply.above? (temps (lines.map Line.command)) with
      | none => .error .exhausted
      | some supply => .ok ⟨lines, supply⟩

def read (source : String) : Except ReadFailure Listing := ofChars source.toList

def text (commands : List Command) : String := "\n".intercalate (commands.map Command.text)

def reparses (l : Listing) : Bool :=
  match read (text l.commands) with
  | .ok again => again.commands = l.commands
  | .error _ => false

end Listing
end RegisterColoring

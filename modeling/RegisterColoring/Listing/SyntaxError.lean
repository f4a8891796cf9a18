import RegisterColoring.Source.Span
import RegisterColoring.Token

/-! Complaints about a text that is not a listing. -/
namespace RegisterColoring

inductive Wanted where
  | instruction
  | temporary
  | address
  | label
  | integer
  | symbol (s : Symbol)
  | keyword (k : Keyword)
  | endOfLine
  | endOfInput
  | somethingElse
deriving DecidableEq

namespace Wanted

/-- Words of the listing are quoted, kinds of words are not. -/
def text : Wanted → String
  | instruction => "instruction"
  | temporary => "temporary"
  | address => "address"
  | label => "label"
  | integer => "integer"
  | symbol s => "'" ++ s.char.toString ++ "'"
  | keyword k => "'" ++ k.word ++ "'"
  | endOfLine => "'end of line'"
  | endOfInput => "end of input"
  | somethingElse => "something else"

def alternatives : List Wanted → String
  | [] => ""
  | [w] => w.text
  | [v, w] => v.text ++ ", or " ++ w.text
  | w :: ws => w.text ++ ", " ++ alternatives ws

end Wanted

/-- Where reading stopped, the token there (`none` if there is none), and what was wanted instead. -/
structure SyntaxError where
  span : Span
  found : Option Token
  wanted : List Wanted
deriving DecidableEq

namespace SyntaxError

def message (e : SyntaxError) : String :=
  let found := match e.found with
    | some token => "'" ++ token.text ++ "'"
    | none => "end of input"
  "found " ++ found ++ " expected " ++ Wanted.alternatives e.wanted

def unreadable (span : Span) : SyntaxError := ⟨span, none, [.somethingElse]⟩

end SyntaxError
end RegisterColoring

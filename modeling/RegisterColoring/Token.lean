import RegisterColoring.Command.Text
import RegisterColoring.Temp.Supply

/-! Tokens of a listing and how one is recognised at the front of a text. -/
namespace RegisterColoring

inductive Keyword where
  | load | store | print | ret | jz | jump | fp
deriving DecidableEq

namespace Keyword

def word : Keyword → String
  | load => "load"
  | store => "store"
  | print => "print"
  | ret => "return"
  | jz => "jz"
  | jump => "jump"
  | fp => "fp"

def all : List Keyword := [load, store, print, ret, jz, jump, fp]

def ofWord? (w : String) : Option Keyword := all.find? fun k => k.word = w

end Keyword

namespace Operator

def all : List Operator := [add, sub, mul, div, eq, gt, lt]

def ofMnemonic? (w : String) : Option Operator := all.find? fun op => op.mnemonic = w

end Operator

inductive Symbol where
  | equals | comma | colon | atSign | openBracket | closeBracket | plus | minus
deriving DecidableEq

namespace Symbol

def char : Symbol → Char
  | equals => '='
  | comma => ','
  | colon => ':'
  | atSign => '@'
  | openBracket => '['
  | closeBracket => ']'
  | plus => '+'
  | minus => '-'

def all : List Symbol := [equals, comma, colon, atSign, openBracket, closeBracket, plus, minus]

def ofChar? (c : Char) : Option Symbol := all.find? fun s => s.char = c

end Symbol

namespace Temp

/-- The temporary that a word spells: `t` and a numeral that is a serial. -/
def ofChars? : List Char → Option Temp
  | 't' :: ds =>
    if Numeral.isNumeral ds && Numeral.value ds ≤ lastSerial.toNat then
      some ⟨UInt32.ofNat (Numeral.value ds)⟩
    else none
  | _ => none

end Temp

inductive Token where
  | number (value : Nat)
  | temp (t : Temp)
  | name (text : String)
  | operator (op : Operator)
  | symbol (s : Symbol)
  | keyword (k : Keyword)
  | newline
deriving DecidableEq

structure Lexeme where
  token : Token
  text : List Char
deriving DecidableEq

namespace Token

/-- The token as messages show it: its spelling, or a phrase for the end of a line. -/
def text : Token → String
  | number value => value.repr
  | temp t => t.text
  | name text => text
  | operator op => op.mnemonic
  | symbol s => s.char.toString
  | keyword k => k.word
  | newline => "end of line"

def maxNumber : Nat := 9223372036854775807

/-- Letters, underscore and point start a word. -/
def startsWord (c : Char) : Bool := c.isAlpha || c = '_' || c = '.'

def continuesWord (c : Char) : Bool := startsWord c || c.isDigit

/-- What a word stands for: a reserved word, a temporary, or else a name. -/
def ofWord (cs : List Char) : Token :=
  let w := String.ofList cs
  match Keyword.ofWord? w, Operator.ofMnemonic? w, Temp.ofChars? cs with
  | some k, _, _ => keyword k
  | none, some op, _ => operator op
  | none, none, some t => temp t
  | none, none, none => name w

/-- The token at the front of a text, and what follows it. A numeral above `maxNumber` is none, even
though a shorter run of its digits would be. -/
def front? : List Char → Option (Lexeme × List Char)
  | [] => none
  | c :: cs =>
    if c = '\n' then some (⟨newline, [c]⟩, cs)
    else if startsWord c then
      let w := c :: cs.takeWhile continuesWord
      some (⟨ofWord w, w⟩, cs.dropWhile continuesWord)
    else match Symbol.ofChar? c with
      | some s => some (⟨symbol s, [c]⟩, cs)
      | none => match Numeral.front? (c :: cs) with
        | some (ds, rest) =>
          if Numeral.value ds ≤ maxNumber then some (⟨number (Numeral.value ds), ds⟩, rest) else none
        | none => none

/-- Reading a token loses nothing and takes at least one character. -/
theorem append_of_front? {cs rest : List Char} {l : Lexeme} (h : front? cs = some (l, rest)) :
    l.text ++ rest = cs ∧ l.text ≠ [] := by
  unfold front? at h
  split at h
  · simp at h
  · split at h
    · cases h; simp
    · split at h
      · cases h; simp [List.takeWhile_append_dropWhile]
      · split at h
        · cases h; simp
        · split at h
          · rename_i hn
            split at h
            · cases h; exact Numeral.append_of_front? hn
            · simp at h
          · simp at h

end Token
end RegisterColoring

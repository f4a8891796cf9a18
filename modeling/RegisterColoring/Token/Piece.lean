import RegisterColoring.Source.Span
import RegisterColoring.Token

/-! A source text cut into pieces: tokens, what may stand between them, and what cannot be read.
The pieces put together again are the text. -/
namespace RegisterColoring

/-- A piece of a source text. Junk starts at a character where no token can be read and goes on up to
the next character where one can, so blanks and comments inside it are junk too. -/
inductive Piece where
  | blank (c : Char)
  | comment (body : List Char)
  | lexeme (l : Lexeme)
  | junk (first : Char) (skipped : List Char)
deriving DecidableEq

namespace Piece

def text : Piece → List Char
  | blank c => [c]
  | comment body => '#' :: body
  | lexeme l => l.text
  | junk first skipped => first :: skipped

def isBlank (c : Char) : Bool := c = ' ' || c = '\t' || c = '\r'

/-- Divides a text at the first character where a token can be read. -/
def skipUnreadable : List Char → List Char × List Char
  | [] => ([], [])
  | c :: cs =>
    if (Token.front? (c :: cs)).isSome then ([], c :: cs)
    else
      let (skipped, rest) := skipUnreadable cs
      (c :: skipped, rest)

theorem skipUnreadable_append (cs : List Char) :
    (skipUnreadable cs).1 ++ (skipUnreadable cs).2 = cs := by
  induction cs with
  | nil => rfl
  | cons c cs ih => unfold skipUnreadable; split <;> simp [ih]

/-- The first piece of a text, and what follows it. A comment ends before the end of its line. -/
def front (c : Char) (cs : List Char) : Piece × List Char :=
  if isBlank c then (blank c, cs)
  else if c = '#' then (comment (cs.takeWhile (· ≠ '\n')), cs.dropWhile (· ≠ '\n'))
  else match Token.front? (c :: cs) with
    | some (l, rest) => (lexeme l, rest)
    | none =>
      let (skipped, rest) := skipUnreadable cs
      (junk c skipped, rest)

theorem front_append (c : Char) (cs : List Char) :
    (front c cs).1.text ++ (front c cs).2 = c :: cs ∧ (front c cs).1.text ≠ [] := by
  unfold front
  split
  · simp [text]
  · split
    · rename_i hc
      simp [text, hc, List.takeWhile_append_dropWhile]
    · split
      · rename_i h
        exact Token.append_of_front? h
      · simp [text, skipUnreadable_append]

theorem length_front_lt (c : Char) (cs : List Char) :
    (front c cs).2.length < (c :: cs).length := by
  have h := front_append c cs
  have hl := congrArg List.length h.1
  have hp := List.length_pos_iff.mpr h.2
  simp only [List.length_append] at hl
  omega

def split : List Char → List Piece
  | [] => []
  | c :: cs =>
    let r := front c cs
    r.1 :: split r.2
termination_by cs => cs.length
decreasing_by exact length_front_lt c cs

/-- The pieces put together are the text. -/
theorem flatMap_text_split (cs : List Char) : (split cs).flatMap text = cs := by
  fun_induction split with
  | case1 => rfl
  | case2 c cs r ih => rw [List.flatMap_cons, ih, (front_append c cs).1]

/-- Each piece with the bytes that it covers, the first one starting at `offset`. -/
def locate (offset : Nat) : List Piece → List (Piece × Span)
  | [] => []
  | p :: ps =>
    let stop := offset + byteLength p.text
    (p, ⟨offset, stop⟩) :: locate stop ps

end Piece
end RegisterColoring

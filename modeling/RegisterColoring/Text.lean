/-! Texts as such: white space, cuts at a separator, columns, words between braces, and decimal numerals. -/
namespace RegisterColoring

/-! ### White space -/

namespace Blank

/-- The code points with the Unicode property `White_Space`. -/
def ranges : List (Nat × Nat) :=
  [(0x09, 0x0D), (0x20, 0x20), (0x85, 0x85), (0xA0, 0xA0), (0x1680, 0x1680), (0x2000, 0x200A),
    (0x2028, 0x2029), (0x202F, 0x202F), (0x205F, 0x205F), (0x3000, 0x3000)]

def isBlank (c : Char) : Bool := ranges.any fun (first, last) => first ≤ c.toNat && c.toNat ≤ last

def trimEnd (cs : List Char) : List Char := (cs.reverse.dropWhile isBlank).reverse

def trim (cs : List Char) : List Char := trimEnd (cs.dropWhile isBlank)

end Blank

/-! ### Parts and columns -/

/-- The parts of a text before, between and after its separators. There is always at least one. -/
def fields (separator : Char) : List Char → List (List Char)
  | [] => [[]]
  | c :: cs =>
    match fields separator cs with
    | [] => []
    | first :: rest => if c = separator then [] :: first :: rest else (c :: first) :: rest

def braced (words : List String) : String := "\x7b" ++ ", ".intercalate words ++ "\x7d"

namespace Column

def fill (c : Char) (count : Nat) : String := String.ofList (List.replicate count c)

def alignRight (width : Nat) (s : String) : String := fill ' ' (width - s.length) ++ s

def alignLeft (width : Nat) (s : String) : String := s ++ fill ' ' (width - s.length)

end Column

/-! ### Numerals -/

namespace Numeral

/-- Each number has one numeral: digits without a sign, and with a leading zero only alone. -/
def isNumeral : List Char → Bool
  | [] => false
  | '0' :: ds => ds.isEmpty
  | d :: ds => d.isDigit && ds.all Char.isDigit

def value (ds : List Char) : Nat := Nat.ofDigitChars 10 ds 0

/-- The longest numeral at the front of a text, and what follows it. -/
def front? : List Char → Option (List Char × List Char)
  | [] => none
  | c :: cs =>
    if c = '0' then some ([c], cs)
    else if c.isDigit then some (c :: cs.takeWhile Char.isDigit, cs.dropWhile Char.isDigit)
    else none

theorem append_of_front? {cs ds rest : List Char} (h : front? cs = some (ds, rest)) :
    ds ++ rest = cs ∧ ds ≠ [] := by
  unfold front? at h
  split at h
  · simp at h
  · split at h
    · cases h; simp
    · split at h
      · cases h; simp [List.takeWhile_append_dropWhile]
      · simp at h

end Numeral
end RegisterColoring

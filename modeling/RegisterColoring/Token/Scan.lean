import RegisterColoring.Listing.SyntaxError
import RegisterColoring.Token.Piece

/-! The tokens of a source text with their spans, and the complaints about its junk. -/
namespace RegisterColoring

/-- What scanning a text gives. There are no tokens if the text ends in junk. -/
structure Scan where
  tokens : Option (List (Token × Span))
  errors : List SyntaxError

namespace Piece

def token? : Piece × Span → Option (Token × Span)
  | (lexeme l, span) => some (l.token, span)
  | _ => none

/-- The complaint about a piece: junk is blamed on its first character. -/
def error? : Piece × Span → Option SyntaxError
  | (junk first _, span) => some (.unreadable ⟨span.start, span.start + first.utf8Size⟩)
  | _ => none

def isJunk : Piece → Bool
  | junk _ _ => true
  | _ => false

end Piece

def Scan.ofChars (cs : List Char) : Scan :=
  let pieces := Piece.split cs
  let located := Piece.locate 0 pieces
  { tokens := if pieces.getLast?.any Piece.isJunk then none else some (located.filterMap Piece.token?)
    errors := located.filterMap Piece.error? }

end RegisterColoring

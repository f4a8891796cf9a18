import RegisterColoring.Report

/-! Reports drawn under the lines of the source. Each mark is underlined, with an arrow from its middle
to its remark. The sources are of printable ASCII characters, one column each. -/
namespace RegisterColoring

structure Position where
  line : Nat
  column : Nat
deriving DecidableEq

/-- The position of a byte of a text, or of the end of the text if it is shorter. -/
def Position.ofOffset : List Char → Nat → Position
  | [], _ => ⟨0, 0⟩
  | c :: cs, offset =>
    if offset < c.utf8Size then ⟨0, 0⟩
    else
      let p := ofOffset cs (offset - c.utf8Size)
      if c = '\n' then ⟨p.line + 1, p.column⟩
      else if p.line = 0 then ⟨0, p.column + 1⟩
      else p

namespace Report

structure Drawn where
  line : Nat
  column : Nat
  width : Nat
  remark : String

namespace Drawn

def ofMark (source : List Char) (m : Mark) : Drawn :=
  let p := Position.ofOffset source m.span.start
  ⟨p.line, p.column, m.span.stop - m.span.start, m.remark⟩

def middle (d : Drawn) : Nat := d.column + d.width / 2

/-- A line under the marked columns that branches off in the middle. A mark without width is a bar. -/
def underline (d : Drawn) : String :=
  if d.width = 0 then Column.fill ' ' d.column ++ "│ "
  else Column.fill ' ' d.column ++ Column.fill '─' (d.middle - d.column) ++ "┬" ++
    Column.fill '─' (d.column + d.width - 1 - d.middle) ++ "  "

/-- The arrow to the remark, which stands two columns behind the marked ones. -/
def arrow (d : Drawn) : String :=
  Column.fill ' ' d.middle ++ "╰" ++ Column.fill '─' (d.column + d.width + 1 - d.middle) ++ " " ++
    d.remark

end Drawn

/-- The rows of the marks in ascending order, each with its line of the source, after a line that was
already drawn. Left out lines show as an empty row. -/
def rows (lines : List (List Char)) (width : Nat) : Option Nat → List Drawn → String
  | _, [] => ""
  | previous, d :: rest =>
    let margin := Column.fill ' ' (width + 2) ++ "│ "
    let gap := if previous.any (· + 1 < d.line) then margin ++ "\n" else ""
    let text := String.ofList (Blank.trimEnd (lines[d.line]?.getD []))
    gap ++ " " ++ Column.alignRight width (d.line + 1).repr ++ " │ " ++ text ++ "\n" ++
      margin ++ d.underline ++ "\n" ++ margin ++ d.arrow ++ "\n" ++ rows lines width (some d.line) rest

def adviceText : Advice → String
  | .help text => "Help: " ++ text
  | .note text => "Note: " ++ text

def draw (source : String) (r : Report) : String :=
  let cs := source.toList
  let drawn := (r.marks.map (Drawn.ofMark cs)).mergeSort fun a b => a.line ≤ b.line
  let last := (drawn.map Drawn.line).foldl max 0
  let width := (last + 1).repr.length
  let margin := Column.fill ' ' (width + 2)
  let p := Position.ofOffset cs r.span.start
  let advice := match r.advice with
    | none => ""
    | some a => margin ++ "│ \n" ++ margin ++ "│ " ++ adviceText a ++ "\n"
  "[" ++ r.code ++ "] Error: " ++ r.title ++ "\n" ++
    margin ++ "╭─[ <unknown>:" ++ (p.line + 1).repr ++ ":" ++ (p.column + 1).repr ++ " ]\n" ++
    margin ++ "│\n" ++ rows (fields '\n' cs) width none drawn ++ advice ++
    Column.fill '─' (width + 2) ++ "╯\n"

end Report
end RegisterColoring

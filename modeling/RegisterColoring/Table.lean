import RegisterColoring.Run

/-! The results of a run as tables for reading. -/
namespace RegisterColoring.Table

def livenessRow (width position : Nat) (c : Command) (sets : LiveSets) : String :=
  Column.alignRight 3 position.repr ++ "  " ++ Column.alignLeft width c.text ++
    "  in: " ++ sets.liveIn.text ++ "  out: " ++ sets.liveOut.text ++ "\n"

/-- A line for each instruction with its live sets, and the number of passes. The column of the
instructions is as wide as the longest one in bytes, although it is filled up by characters. -/
def liveness (commands : List Command) (l : Liveness) : String :=
  let width := (commands.map fun c => c.text.utf8ByteSize).foldl max 0
  let rows := (commands.zip l.sets).zipIdx.map fun ((c, sets), position) =>
    livenessRow width position c sets
  String.join rows ++ "fixpoint after " ++ l.iterations.repr ++ " pass(es)\n"

def graph (g : InterferenceGraph) : String :=
  g.size.repr ++ " temp(s), " ++ g.edgeCount.repr ++ " edge(s)\n" ++ g.text

def allocation (a : Allocation) : String :=
  a.text ++ a.size.repr ++ " temp(s) in " ++ a.used.length.repr ++ " of " ++ a.pool.size.repr ++
    " register(s)\n"

end RegisterColoring.Table

import RegisterColoring.Interference

/-! The order in which vertices leave the graph. A vertex with fewer remaining neighbours than there are
registers can be colored after all the others, so it is put aside; the least such one goes first. -/
namespace RegisterColoring

/-- A vertex that is still in the graph, with the number of its neighbours that are. -/
structure Entry where
  temp : Temp
  degree : Nat
deriving DecidableEq

/-- The vertices put aside, in order and each with its number of neighbours at that moment, and those
left over because all of them have too many. -/
structure Elimination where
  removed : List Entry
  stuck : List Entry
deriving DecidableEq

namespace Elimination

def worklist (g : InterferenceGraph) : Except Fault (List Entry) :=
  g.vertices.mapM fun t => return ⟨t, ← g.degreeOf t⟩

/-- The worklist after its first entry with fewer than `k` neighbours has left it: the neighbours lose one each. -/
def without (k : Nat) (neighbors : TempSet) (entries : List Entry) : List Entry :=
  (entries.eraseP (·.degree < k)).map fun e =>
    if neighbors.contains e.temp then { e with degree := e.degree - 1 } else e

theorem length_without_lt {k : Nat} {neighbors : TempSet} {entries : List Entry} {e : Entry}
    (h : entries.find? (·.degree < k) = some e) : (without k neighbors entries).length < entries.length := by
  have hm := List.mem_of_find?_eq_some h
  have hp := List.find?_some h
  have hl := List.length_pos_of_mem hm
  rw [without, List.length_map, List.length_eraseP_of_mem hm hp]
  omega

/-- Puts vertices of the worklist aside, as long as one has fewer than `k` neighbours in it. -/
def run (g : InterferenceGraph) (k : Nat) (entries : List Entry) : Except Fault Elimination :=
  match _h : entries.find? (·.degree < k) with
  | none => .ok ⟨[], entries⟩
  | some e => do
    let neighbors ← g.neighborsOf e.temp
    let rest ← run g k (without k neighbors entries)
    return ⟨e :: rest.removed, rest.stuck⟩
termination_by entries.length
decreasing_by exact length_without_lt _h

def ofGraph (g : InterferenceGraph) (k : Nat) : Except Fault Elimination := do run g k (← worklist g)

/-- The vertices in the order in which they are colored: the one put aside last comes first. -/
def stack (e : Elimination) : List Temp := (e.removed.map Entry.temp).reverse

end Elimination
end RegisterColoring

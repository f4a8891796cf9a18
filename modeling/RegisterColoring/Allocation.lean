import RegisterColoring.Allocation.Elimination
import RegisterColoring.RegisterPool

/-! Allocations of registers to temporaries, by coloring an interference graph. -/
namespace RegisterColoring

/-- Registers of a pool, by index, for temporaries. -/
structure Allocation where
  pool : RegisterPool
  assignment : Std.ExtTreeMap Temp Nat
deriving DecidableEq

namespace Allocation

/-- The least index below `k` that is not taken. -/
def free? (k : Nat) (taken : List Nat) : Option Nat := (List.range k).find? (· ∉ taken)

/-- Colors the temporaries in order, each with the least index that no neighbour has yet. -/
def select (g : InterferenceGraph) (k : Nat) :
    List Temp → Std.ExtTreeMap Temp Nat → Except Fault (Std.ExtTreeMap Temp Nat)
  | [], assignment => .ok assignment
  | t :: rest, assignment => do
    let neighbors ← g.neighborsOf t
    match free? k (neighbors.toList.filterMap (assignment[·]?)) with
    | some index => select g k rest (assignment.insert t index)
    | none => .error (.tooFewRegisters k [t])

/-- Colors a graph: if all vertices can be put aside, they are colored in the opposite order. -/
def color (g : InterferenceGraph) (pool : RegisterPool) : Except Fault Allocation := do
  let elimination ← Elimination.ofGraph g pool.size
  match elimination.stuck with
  | [] => (select g pool.size elimination.stack ∅).map (⟨pool, ·⟩)
  | stuck => .error (.tooFewRegisters pool.size (stuck.map Entry.temp))

def index? (a : Allocation) (t : Temp) : Option Nat := a.assignment[t]?

def register? (a : Allocation) (t : Temp) : Option String := (a.index? t).bind a.pool.name?

/-- The temporaries with their registers, in ascending order. -/
def entries (a : Allocation) : List (Temp × String) :=
  a.assignment.keys.filterMap fun t => (a.register? t).map (t, ·)

def size (a : Allocation) : Nat := a.assignment.size

/-- The names of the registers in use, in the order of the pool. -/
def used (a : Allocation) : List String :=
  a.pool.names.zipIdx.filterMap fun (name, index) =>
    if index ∈ a.assignment.values then some name else none

def text (a : Allocation) : String :=
  String.join (a.entries.map fun (t, name) => t.text ++ " -> " ++ name ++ "\n")

end Allocation
end RegisterColoring

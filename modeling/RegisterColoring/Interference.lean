import RegisterColoring.Liveness
import Std.Data.ExtTreeMap

/-! Interference graphs: temporaries, and which of them cannot share a register. Main statement: an added
edge joins exactly its two distinct ends, in both directions. -/
namespace RegisterColoring

structure InterferenceGraph where
  adjacency : Std.ExtTreeMap Temp TempSet
deriving DecidableEq

namespace InterferenceGraph

def empty : InterferenceGraph := ⟨∅⟩

def addVertex (g : InterferenceGraph) (t : Temp) : InterferenceGraph :=
  ⟨g.adjacency.insertIfNew t ∅⟩

def link (adjacency : Std.ExtTreeMap Temp TempSet) (a b : Temp) :
    Std.ExtTreeMap Temp TempSet :=
  adjacency.alter a fun row => some ((row.getD ∅).insert b)

/-- Adds an edge and its ends. An edge from a temporary to itself adds the vertex only. -/
def addEdge (g : InterferenceGraph) (a b : Temp) : InterferenceGraph :=
  if a = b then g.addVertex a else ⟨link (link g.adjacency a b) b a⟩

def vertices (g : InterferenceGraph) : List Temp := g.adjacency.keys

def contains (g : InterferenceGraph) (t : Temp) : Bool := g.adjacency.contains t

/-- The neighbours of a vertex. A temporary that is no vertex has none. -/
def neighbors (g : InterferenceGraph) (t : Temp) : TempSet := g.adjacency.getD t ∅

def degree (g : InterferenceGraph) (t : Temp) : Nat := (g.neighbors t).size

/-- The neighbours of a temporary that must be a vertex. -/
def neighborsOf (g : InterferenceGraph) (t : Temp) : Except Fault TempSet :=
  if g.contains t then .ok (g.neighbors t) else .error (.notInGraph t)

def degreeOf (g : InterferenceGraph) (t : Temp) : Except Fault Nat :=
  (g.neighborsOf t).map Std.ExtTreeSet.size

def interferes (g : InterferenceGraph) (a b : Temp) : Bool := (g.neighbors a).contains b

def size (g : InterferenceGraph) : Nat := g.adjacency.size

/-- Every edge once, from the lower to the higher end, in ascending order. -/
def edges (g : InterferenceGraph) : List (Temp × Temp) :=
  g.vertices.flatMap fun a => ((g.neighbors a).toList.filter (a < ·)).map (a, ·)

def degreeSum (g : InterferenceGraph) : Nat := g.vertices.foldr (fun t sum => g.degree t + sum) 0

/-- The number of edges: the degrees count each at both of its ends. -/
def edgeCount (g : InterferenceGraph) : Nat := g.degreeSum / 2

private theorem mem_getD_link {adjacency : Std.ExtTreeMap Temp TempSet} {a b s t : Temp} :
    t ∈ (link adjacency a b).getD s ∅ ↔ t ∈ adjacency.getD s ∅ ∨ (s = a ∧ t = b) := by
  simp only [link, Std.ExtTreeMap.getD_eq_getD_getElem?, Std.ExtTreeMap.getElem?_alter]
  by_cases h : a = s
  · subst h
    simp [or_comm, @eq_comm _ t b]
  · simp [h, Ne.symm h]

@[simp] theorem neighbors_empty (t : Temp) : empty.neighbors t = ∅ := by
  simp [neighbors, empty]

@[simp] theorem neighbors_addVertex (g : InterferenceGraph) (s t : Temp) :
    (g.addVertex s).neighbors t = g.neighbors t := by
  simp only [neighbors, addVertex, Std.ExtTreeMap.getD_insertIfNew]
  split
  · next h =>
    obtain ⟨h, hn⟩ := h
    rw [Std.LawfulEqCmp.compare_eq_iff_eq] at h
    subst h
    exact (Std.ExtTreeMap.getD_eq_fallback hn).symm
  · rfl

/-- An added edge makes its ends neighbours of each other, and no other temporaries. -/
theorem mem_neighbors_addEdge {g : InterferenceGraph} {a b s t : Temp} :
    t ∈ (g.addEdge a b).neighbors s ↔
      t ∈ g.neighbors s ∨ (a ≠ b ∧ ((s = a ∧ t = b) ∨ (s = b ∧ t = a))) := by
  unfold addEdge
  split
  · next h => simp [h]
  · next h =>
    simp only [neighbors, mem_getD_link]
    simp [h, or_assoc]

theorem mem_vertices {g : InterferenceGraph} {t : Temp} : t ∈ g.vertices ↔ t ∈ g.adjacency :=
  Std.ExtTreeMap.mem_keys

/-- A lookup finds the neighbours of a vertex, and fails for every other temporary. -/
theorem neighborsOf_eq_ok_iff {g : InterferenceGraph} {t : Temp} {row : TempSet} :
    g.neighborsOf t = .ok row ↔ t ∈ g.vertices ∧ g.neighbors t = row := by
  have hcontains : g.contains t = true ↔ t ∈ g.vertices := mem_vertices.symm
  unfold neighborsOf
  split
  · next h => simp [← hcontains, h]
  · next h => simp [← hcontains, h]

theorem neighborsOf_of_mem {g : InterferenceGraph} {t : Temp} (h : t ∈ g.vertices) :
    g.neighborsOf t = .ok (g.neighbors t) := neighborsOf_eq_ok_iff.mpr ⟨h, rfl⟩

@[simp] theorem not_mem_vertices_empty (t : Temp) : t ∉ empty.vertices := by
  simp [mem_vertices, empty]

@[simp] theorem mem_vertices_addVertex {g : InterferenceGraph} {s t : Temp} :
    t ∈ (g.addVertex s).vertices ↔ t = s ∨ t ∈ g.vertices := by
  simp [mem_vertices, addVertex, Std.ExtTreeMap.mem_insertIfNew, @eq_comm _ t s]

private theorem mem_link {adjacency : Std.ExtTreeMap Temp TempSet} {a b t : Temp} :
    t ∈ link adjacency a b ↔ t = a ∨ t ∈ adjacency := by
  rw [link, Std.ExtTreeMap.mem_alter]
  by_cases h : a = t
  · simp [h]
  · simp [h, Ne.symm h]

/-- The ends of an added edge become vertices, and no other temporaries do. -/
@[simp] theorem mem_vertices_addEdge {g : InterferenceGraph} {a b t : Temp} :
    t ∈ (g.addEdge a b).vertices ↔ t = a ∨ t = b ∨ t ∈ g.vertices := by
  unfold addEdge
  split
  · next h => simp [h]
  · simp [mem_vertices, mem_link, or_left_comm]

/-- The pairs of a temporary that an instruction writes and one that is needed after it. -/
def conflicts (l : Liveness) : List (Temp × Temp) :=
  (l.nodes.zip l.sets).flatMap fun (node, sets) =>
    node.defs.toList.flatMap fun written => sets.liveOut.toList.map fun needed => (written, needed)

/-- The interference graph of a listing: its temporaries, with an edge for each conflict. -/
def ofLiveness (l : Liveness) : InterferenceGraph :=
  (conflicts l).foldl (fun g (a, b) => g.addEdge a b) (l.temps.toList.foldl addVertex empty)

def text (g : InterferenceGraph) : String :=
  String.join (g.vertices.map fun t =>
    t.text ++ ":" ++ String.join ((g.neighbors t).toList.map fun n => " " ++ n.text) ++ "\n")

end InterferenceGraph
end RegisterColoring

import RegisterColoring.Allocation
import RegisterColoring.Event

/-! Coloring step by step, as the log tells it, with all that is kept from one step to the next. Every vertex goes from
the worklist over the stack to its color. -/
namespace RegisterColoring

inductive Stage where
  | waiting | aside | colored
deriving DecidableEq

structure Progress where
  worklist : TempSet
  /-- The number of neighbours in the graph, as it was last counted. -/
  degrees : Std.ExtTreeMap Temp Nat
  /-- The vertices put aside and not colored yet, the last one first. -/
  stack : List Temp
  stages : Std.ExtTreeMap Temp Stage
  assignment : Std.ExtTreeMap Temp Nat
deriving DecidableEq

inductive Turn where
  | onward (told : Event) (next : Progress)
  | finished (assignment : Std.ExtTreeMap Temp Nat)
  | stuck (left : List Temp)
  | noRegister (t : Temp)
  /-- The vertex on the stack is not one that was put aside. -/
  | misplaced (t : Temp)
  /-- A lookup failed, perhaps after the log had told of the step. -/
  | failed (told : Option Event) (fault : Fault)
deriving DecidableEq

/-- The steps from some moment on, each with what the log tells and what is known after it, and how they end. -/
structure History where
  moves : List (Event × Progress)
  last : Turn
deriving DecidableEq

namespace Progress

def start (g : InterferenceGraph) : Except Fault Progress := do
  let entries ← Elimination.worklist g
  return {
    worklist := .ofTemps g.vertices
    degrees := .ofList (entries.map fun e => (e.temp, e.degree))
    stack := []
    stages := g.adjacency.map fun _ _ => .waiting
    assignment := ∅ }

def candidate? (k : Nat) (p : Progress) : Option Temp :=
  p.worklist.toList.find? fun t => p.degrees[t]?.any (· < k)

/-- One neighbour fewer for each of some vertices, if it is still waiting. -/
def lower (stages : Std.ExtTreeMap Temp Stage) (degrees : Std.ExtTreeMap Temp Nat) (ts : List Temp) :
    Std.ExtTreeMap Temp Nat :=
  ts.foldl (fun degrees t => if stages[t]? = some .waiting then degrees.modify t (· - 1) else degrees) degrees

def putAside (p : Progress) (t : Temp) (neighbors : TempSet) : Progress :=
  let stages := p.stages.insert t .aside
  { p with
    worklist := p.worklist.erase t
    degrees := lower stages p.degrees neighbors.toList
    stack := t :: p.stack
    stages }

def giveColor (p : Progress) (t : Temp) (rest : List Temp) (index : Nat) : Progress :=
  { p with
    stack := rest
    stages := p.stages.insert t .colored
    assignment := p.assignment.insert t index }

/-- Puts a vertex aside as long as there is a worklist, and then colors the one put aside last. -/
def step (g : InterferenceGraph) (pool : RegisterPool) (p : Progress) : Turn :=
  if p.worklist.isEmpty then
    match p.stack with
    | [] => .finished p.assignment
    | t :: rest =>
      if p.stages[t]? = some .aside then
        match g.neighborsOf t with
        | .error fault => .failed none fault
        | .ok neighbors =>
          match Allocation.free? pool.size (neighbors.toList.filterMap (p.assignment[·]?)) with
          | some index => .onward (.assigned t ((pool.name? index).getD "?")) (p.giveColor t rest index)
          | none => .noRegister t
      else .misplaced t
  else
    match p.candidate? pool.size with
    | some t =>
      let told := .putAside t (p.degrees[t]?.getD 0)
      match g.neighborsOf t with
      | .error fault => .failed (some told) fault
      | .ok neighbors => .onward told (p.putAside t neighbors)
    | none => .stuck p.worklist.toList

theorem mem_of_candidate? {k : Nat} {p : Progress} {t : Temp} (h : p.candidate? k = some t) : t ∈ p.worklist :=
  Std.ExtTreeSet.mem_toList.mp (List.mem_of_find?_eq_some h)

section
variable {g : InterferenceGraph} {pool : RegisterPool} {p next : Progress}

/-- A step that goes on gives the vertex on top of the stack its color, or puts one of the worklist aside. -/
theorem step_eq_onward {told : Event} (h : p.step g pool = .onward told next) :
    (∃ t rest index, p.stack = t :: rest ∧ told = .assigned t ((pool.name? index).getD "?") ∧
      next = p.giveColor t rest index) ∨
    ∃ t neighbors, t ∈ p.worklist ∧ told = .putAside t (p.degrees[t]?.getD 0) ∧ next = p.putAside t neighbors := by
  unfold step at h
  split at h
  · left
    split at h
    · cases h
    · next t rest hstack =>
      split at h
      · split at h
        · cases h
        · split at h
          · next index _ =>
            cases h
            exact ⟨t, rest, index, hstack, rfl, rfl⟩
          · cases h
      · cases h
  · right
    split at h
    · next t hcandidate =>
      dsimp only at h
      split at h
      · cases h
      · next neighbors _ =>
        cases h
        exact ⟨t, neighbors, mem_of_candidate? hcandidate, rfl, rfl⟩
    · cases h

/-- A step fails only if a vertex that is kept on the stack or the worklist is not found. -/
theorem step_eq_failed {told : Option Event} {fault : Fault} (h : p.step g pool = .failed told fault) :
    (∃ t ∈ p.stack, told = none ∧ g.neighborsOf t = .error fault) ∨
    ∃ t, t ∈ p.worklist ∧ told = some (.putAside t (p.degrees[t]?.getD 0)) ∧ g.neighborsOf t = .error fault := by
  unfold step at h
  split at h
  · left
    split at h
    · cases h
    · next t rest hstack =>
      split at h
      · split at h
        · next hfault =>
          cases h
          exact ⟨t, hstack ▸ List.mem_cons_self, rfl, hfault⟩
        · split at h <;> cases h
      · cases h
  · right
    split at h
    · next t hcandidate =>
      dsimp only at h
      split at h
      · next hfault =>
        cases h
        exact ⟨t, mem_of_candidate? hcandidate, rfl, hfault⟩
      · cases h
    · cases h

/-- A vertex on the worklist has two stages before it, one on the stack has one. -/
theorem ahead_lt {told : Event} (h : p.step g pool = .onward told next) :
    2 * next.worklist.size + next.stack.length < 2 * p.worklist.size + p.stack.length := by
  rcases step_eq_onward h with ⟨t, rest, index, hstack, _, rfl⟩ | ⟨t, neighbors, hmem, _, rfl⟩
  · simp only [giveColor, hstack, List.length_cons]
    omega
  · have hcontains : p.worklist.contains t = true := hmem
    have hpos : 0 < p.worklist.toList.length := List.length_pos_of_mem (Std.ExtTreeSet.mem_toList.mpr hmem)
    rw [Std.ExtTreeSet.length_toList] at hpos
    simp only [putAside, List.length_cons, Std.ExtTreeSet.size_erase, hcontains, if_true]
    omega

end

def run (g : InterferenceGraph) (pool : RegisterPool) (p : Progress) : History :=
  match _h : p.step g pool with
  | .onward told next =>
    let rest := run g pool next
    ⟨(told, next) :: rest.moves, rest.last⟩
  | last => ⟨[], last⟩
termination_by 2 * p.worklist.size + p.stack.length
decreasing_by exact ahead_lt _h

end Progress
end RegisterColoring

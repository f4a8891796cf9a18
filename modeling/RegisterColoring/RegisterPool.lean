import RegisterColoring.Fault

/-! Pools of registers to choose from. -/
namespace RegisterColoring

/-- At least one register name, in order of choice and without repetition. -/
structure RegisterPool where
  names : List String
  nonempty : names ≠ []
  distinct : names.Nodup
deriving DecidableEq

inductive PoolFault where
  | empty
  | repeated (name : String)
deriving DecidableEq

namespace PoolFault

def message : PoolFault → String
  | empty => "at least one register is required"
  | repeated name => "register '" ++ name ++ "' listed more than once"

def toFault (f : PoolFault) : Fault := .invalidPool f.message

end PoolFault

namespace RegisterPool

/-- The first name that occurs among `seen` or earlier in the list. -/
def firstRepeated? (seen : List String) : List String → Option String
  | [] => none
  | name :: rest => if name ∈ seen then some name else firstRepeated? (name :: seen) rest

theorem nodup_of_firstRepeated? {seen names : List String} (h : firstRepeated? seen names = none) :
    names.Nodup ∧ ∀ name ∈ names, name ∉ seen := by
  induction names generalizing seen with
  | nil => simp
  | cons name rest ih =>
    simp only [firstRepeated?] at h
    split at h
    · simp at h
    · next hn =>
      obtain ⟨hd, hs⟩ := ih h
      refine ⟨List.nodup_cons.mpr ⟨fun hm => hs name hm List.mem_cons_self, hd⟩, ?_⟩
      intro other ho
      obtain rfl | ho := List.mem_cons.mp ho
      · exact hn
      · exact fun hm => hs other ho (List.mem_cons_of_mem _ hm)

def ofNames (names : List String) : Except PoolFault RegisterPool :=
  if hne : names = [] then .error .empty
  else match h : firstRepeated? [] names with
    | some name => .error (.repeated name)
    | none => .ok ⟨names, hne, (nodup_of_firstRepeated? h).1⟩

/-- The pool of a stem followed by the numbers below `count`. -/
def numbered (stem : String) (count : Nat) : Except PoolFault RegisterPool :=
  ofNames ((List.range count).map fun i => stem ++ i.repr)

/-- The pool of the first `count` temporary registers, without a bound on their number. -/
def ofSize (count : Nat) : Except PoolFault RegisterPool := numbered "$t" count

def standard : RegisterPool where
  names := (List.range 10).map fun i => "$t" ++ i.repr
  nonempty := by decide
  distinct := by decide +kernel

def size (p : RegisterPool) : Nat := p.names.length

def name? (p : RegisterPool) (index : Nat) : Option String := p.names[index]?

def text (p : RegisterPool) : String := braced p.names

end RegisterPool
end RegisterColoring

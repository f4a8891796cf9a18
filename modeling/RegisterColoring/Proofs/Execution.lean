import Mathlib.Logic.Function.Basic
import RegisterColoring.Proofs.Flow

/-! Running a listing step by step. Its temporaries can be cells of the machine themselves, or stand for other
cells such as registers. Main statements: an instruction depends on the temporaries it reads only, changes
the one it writes only, and control goes on where the flow of the listing says. -/
namespace RegisterColoring

/-- A meaning of operators, constants, tests for zero and memory. Nothing is assumed of it: values may have
any width, and addresses may overlap. -/
structure Meaning (Value Memory : Type) where
  operate : Operator → Value → Value → Value
  constant : Int64 → Value
  isZero : Value → Bool
  load : Memory → Address → Value
  store : Memory → Address → Value → Memory

/-- Arithmetic on 64-bit words, comparisons that give one or zero, and a memory where no addresses overlap. -/
def Meaning.words : Meaning Int64 (Address → Int64) where
  operate
    | .add, x, y => x + y
    | .sub, x, y => x - y
    | .mul, x, y => x * y
    | .div, x, y => x / y
    | .eq, x, y => if x = y then 1 else 0
    | .gt, x, y => if y < x then 1 else 0
    | .lt, x, y => if x < y then 1 else 0
  constant value := value
  isZero x := x = 0
  load memory addr := memory addr
  store memory addr x := Function.update memory addr x

/-- How a run ended: by a return, with its value, or behind the last instruction. -/
inductive Ending (Value : Type) where
  | returned (value : Option Value)
  | pastEnd
deriving DecidableEq

/-- What can be seen of a run without looking into its cells. Printed values and decisions of conditional
jumps are in order, and a running machine has no ending. -/
structure Visible (Value Memory : Type) where
  position : Nat
  memory : Memory
  printed : List Value
  branches : List Bool
  ending : Option (Ending Value)

namespace Visible
variable {Value Memory : Type}

def initial (memory : Memory) : Visible Value Memory := ⟨0, memory, [], [], none⟩

def next (v : Visible Value Memory) : Visible Value Memory := { v with position := v.position + 1 }

/-- Control goes to the first instruction that defines a label, behind the listing if there is none. -/
def goto (v : Visible Value Memory) (commands : List Command) (name : String) : Visible Value Memory :=
  { v with position := commands.findIdx (·.label? = some name) }

end Visible

namespace Command
variable {Value Memory : Type}

/-- What an instruction does if `read` gives the values of temporaries: what it writes, and what can be seen
after it. There is no effect if a temporary that it reads has no value. -/
def effect (m : Meaning Value Memory) (commands : List Command) (read : Temp → Option Value)
    (v : Visible Value Memory) : Command → Option (Option (Temp × Value) × Visible Value Memory)
  | compute op dst lhs rhs => do
    let x ← read lhs
    let y ← read rhs
    return (some (dst, m.operate op x y), v.next)
  | const dst value => return (some (dst, m.constant value), v.next)
  | load dst addr => return (some (dst, m.load v.memory addr), v.next)
  | store src addr => do
    let x ← read src
    return (none, { v.next with memory := m.store v.memory addr x })
  | print src => do
    let x ← read src
    return (none, { v.next with printed := v.printed ++ [x] })
  | ret none => return (none, { v with ending := some (.returned none) })
  | ret (some t) => do
    let x ← read t
    return (none, { v with ending := some (.returned (some x)) })
  | jumpIfZero cond target => do
    let x ← read cond
    let v := { v with branches := v.branches ++ [m.isZero x] }
    return (none, if m.isZero x then v.goto commands target else v.next)
  | jump target => return (none, v.goto commands target)
  | label _ => return (none, v.next)

variable {m : Meaning Value Memory} {commands : List Command} {v : Visible Value Memory}

theorem effect_congr {read other : Temp → Option Value} (c : Command)
    (h : ∀ t ∈ c.uses, read t = other t) : c.effect m commands read v = c.effect m commands other v := by
  cases c with
  | ret value => cases value <;> simp_all [effect, uses]
  | _ => simp_all [effect, uses]

/-- An instruction whose operands have values has an effect. It writes the temporary it defines, and if the
run goes on, control has fallen through or gone to the label of its jump. -/
theorem effect_eq_some (m : Meaning Value Memory) (commands : List Command) (values : Temp → Value)
    (v : Visible Value Memory) (c : Command) :
    ∃ written after, c.effect m commands (fun t => some (values t)) v = some (written, after) ∧
      written.map Prod.fst = c.def? ∧
      (after.ending = none → (c.fallsThrough = true ∧ after.position = v.position + 1) ∨
        ∃ name, c.target? = some name ∧ after.position = commands.findIdx (·.label? = some name)) := by
  cases c with
  | ret value => cases value <;> exact ⟨_, _, rfl, rfl, nofun⟩
  | jumpIfZero cond target =>
    by_cases hz : m.isZero (values cond) = true
    · exact ⟨_, _, rfl, rfl, fun _ => .inr ⟨target, rfl, by simp [hz, Visible.goto]⟩⟩
    · exact ⟨_, _, rfl, rfl, fun _ => .inl ⟨rfl, by simp [hz, Visible.next]⟩⟩
  | jump target => exact ⟨_, _, rfl, rfl, fun _ => .inr ⟨target, rfl, rfl⟩⟩
  | _ => exact ⟨_, _, rfl, rfl, fun _ => .inl ⟨rfl, rfl⟩⟩

/-- A label that the listing defines is at the position where control goes. -/
theorem getElem?_findIdx_label {name : String} {p : Nat} (hp : commands[p]? = some (.label name)) :
    commands[commands.findIdx (·.label? = some name)]? = some (.label name) := by
  have hlt : commands.findIdx (·.label? = some name) < commands.length :=
    List.findIdx_lt_length.mpr ⟨_, List.mem_of_getElem? hp, by simp [label?]⟩
  have hlabel := List.findIdx_getElem (w := hlt)
  rw [List.getElem?_eq_getElem hlt]
  exact congrArg some (label?_eq_some.mp (by simpa using hlabel))

end Command

/-- A machine in the course of a run. -/
structure Machine (Cell Value Memory : Type) where
  cells : Cell → Value
  visible : Visible Value Memory

namespace Machine
variable {Cell Value Memory : Type} [DecidableEq Cell]

/-- One step of a listing whose temporaries stand for the cells that `cell` gives them. A machine that has
ended stays as it is. There is no next machine if an operand stands for no cell. -/
def step (m : Meaning Value Memory) (commands : List Command) (cell : Temp → Option Cell)
    (s : Machine Cell Value Memory) : Option (Machine Cell Value Memory) :=
  match s.visible.ending, commands[s.visible.position]? with
  | some _, _ => some s
  | none, none => some { s with visible := { s.visible with ending := some .pastEnd } }
  | none, some c => do
    let (written, visible) ← c.effect m commands (fun t => (cell t).map s.cells) s.visible
    match written with
    | none => return ⟨s.cells, visible⟩
    | some (t, value) =>
      let x ← cell t
      return ⟨Function.update s.cells x value, visible⟩

def run (m : Meaning Value Memory) (commands : List Command) (cell : Temp → Option Cell) :
    Nat → Machine Cell Value Memory → Option (Machine Cell Value Memory)
  | 0, s => some s
  | n + 1, s => (s.step m commands cell).bind (run m commands cell n)

variable {m : Meaning Value Memory} {commands : List Command} {cell : Temp → Option Cell}
variable {s : Machine Cell Value Memory}

theorem step_of_ended {ending : Ending Value} (h : s.visible.ending = some ending) :
    s.step m commands cell = some s := by
  simp [step, h]

theorem step_of_pastEnd (h : s.visible.ending = none) (hc : commands[s.visible.position]? = none) :
    s.step m commands cell = some ⟨s.cells, { s.visible with ending := some .pastEnd }⟩ := by
  simp [step, h, hc]

variable {c : Command} {after : Visible Value Memory}

theorem step_of_silent (h : s.visible.ending = none) (hc : commands[s.visible.position]? = some c)
    (he : c.effect m commands (fun t => (cell t).map s.cells) s.visible = some (none, after)) :
    s.step m commands cell = some ⟨s.cells, after⟩ := by
  simp [step, h, hc, he]

theorem step_of_write (h : s.visible.ending = none) (hc : commands[s.visible.position]? = some c)
    {t : Temp} {x : Cell} {value : Value} (hx : cell t = some x)
    (he : c.effect m commands (fun t => (cell t).map s.cells) s.visible = some (some (t, value), after)) :
    s.step m commands cell = some ⟨Function.update s.cells x value, after⟩ := by
  simp [step, h, hc, he, hx]

end Machine
end RegisterColoring

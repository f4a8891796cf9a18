import RegisterColoring.Event
import RegisterColoring.RegisterPool

/-! The command line: what the arguments ask for. Arguments are taken from left to right. The value of an
option is looked at only when the next argument is known to be a good one. -/
namespace RegisterColoring

structure Options where
  file : String
  pool : RegisterPool
  showLiveness : Bool
  showGraph : Bool
  verbosity : Nat

inductive UsageError where
  | help
  /-- An option that is not known, or a second file. -/
  | unknownArgument
  | missingValue
  | invalidNumber
  | unexpectedValue
  /-- An option more than once, or two that exclude each other. -/
  | conflict
  | missingFile
  | invalidPool (fault : PoolFault)
deriving DecidableEq

namespace Options

inductive ValueOption where
  | registers | regs
deriving DecidableEq

inductive Flag where
  | liveness | graph | verbose | help
deriving DecidableEq

def long? : String → Option (ValueOption ⊕ Flag)
  | "registers" => some (.inl .registers)
  | "regs" => some (.inl .regs)
  | "liveness" => some (.inr .liveness)
  | "graph" => some (.inr .graph)
  | "verbose" => some (.inr .verbose)
  | "help" => some (.inr .help)
  | _ => none

def short? : Char → Option (ValueOption ⊕ Flag)
  | 'k' => some (.inl .registers)
  | 'v' => some (.inr .verbose)
  | 'h' => some (.inr .help)
  | _ => none

structure Given where
  file : Option String := none
  registers : Option Nat := none
  regs : Option (List String) := none
  liveness : Bool := false
  graph : Bool := false
  verbosity : Nat := 0

structure Pending where
  option : ValueOption
  value : Option String

/-- A decimal number of 64 bits, which may have a plus sign and leading zeros. -/
def number? (s : String) : Option Nat :=
  let digits := match s.toList with
    | '+' :: ds => ds
    | ds => ds
  let n := Nat.ofDigitChars 10 digits 0
  if !digits.isEmpty && digits.all Char.isDigit && n < UInt64.size then some n else none

namespace Given

def set (g : Given) : ValueOption → String → Except UsageError Given
  | .registers, value =>
    if g.registers.isSome then .error .conflict
    else match number? value with
      | some n => .ok { g with registers := some n }
      | none => .error .invalidNumber
  | .regs, value =>
    if g.regs.isSome then .error .conflict
    else .ok { g with regs := some ((fields ',' value.toList).map String.ofList) }

def settle (g : Given) : Option Pending → Except UsageError Given
  | none => .ok g
  | some ⟨option, some value⟩ => g.set option value
  | some ⟨_, none⟩ => .error .missingValue

/-- Sets a flag. Only verbosity can be asked for more than once; it stops at 255. -/
def raise (g : Given) : Flag → Except UsageError Given
  | .liveness => if g.liveness then .error .conflict else .ok { g with liveness := true }
  | .graph => if g.graph then .error .conflict else .ok { g with graph := true }
  | .verbose => .ok { g with verbosity := min 255 (g.verbosity + 1) }
  | .help => .error .help

/-- An option with an attached value, or one whose value is the next argument. -/
def attach (g : Given) (pending : Option Pending) (option : ValueOption) (value : Option String) :
    Except UsageError (Given × Option Pending) := do
  let g ← g.settle pending
  match value with
  | some v => return (← g.set option v, none)
  | none => return (g, some ⟨option, none⟩)

/-- Letters joined behind one dash. What follows an option with a value is its value. -/
def cluster (g : Given) (pending : Option Pending) :
    List Char → Except UsageError (Given × Option Pending)
  | [] => .ok (g, pending)
  | c :: cs =>
    match short? c with
    | none => .error .unknownArgument
    | some (.inr flag) => do
      let g ← g.settle pending
      let g ← g.raise flag
      g.cluster none cs
    | some (.inl option) =>
      match cs with
      | [] => g.attach pending option none
      | '=' :: value => g.attach pending option (some (String.ofList value))
      | value => g.attach pending option (some (String.ofList value))

def long (g : Given) (pending : Option Pending) (cs : List Char) :
    Except UsageError (Given × Option Pending) :=
  let name := String.ofList (cs.takeWhile (· ≠ '='))
  let value := match cs.dropWhile (· ≠ '=') with
    | [] => none
    | _ :: value => some (String.ofList value)
  match long? name, value with
  | none, _ => .error .unknownArgument
  | some (.inl option), value => g.attach pending option value
  | some (.inr _), some _ => .error .unexpectedValue
  | some (.inr flag), none => do
    let g ← g.settle pending
    return (← g.raise flag, none)

def setFile (g : Given) (pending : Option Pending) (name : String) : Except UsageError Given :=
  if g.file.isSome then .error .unknownArgument
  else do
    let g ← g.settle pending
    return { g with file := some name }

/-- Takes the arguments in order. After two dashes all are files. -/
def take (g : Given) (pending : Option Pending) (filesOnly : Bool) :
    List String → Except UsageError Given
  | [] => g.settle pending
  | arg :: rest =>
    if filesOnly then do
      let g ← g.setFile pending arg
      g.take none true rest
    else match arg.toList, pending with
      | ['-', '-'], _ => g.take pending true rest
      | '-' :: '-' :: cs, _ => do
        let (g, pending) ← g.long pending cs
        g.take pending false rest
      | '-' :: c :: cs, _ => do
        let (g, pending) ← g.cluster pending (c :: cs)
        g.take pending false rest
      | _, some ⟨option, none⟩ => g.take (some ⟨option, some arg⟩) false rest
      | _, _ => do
        let g ← g.setFile pending arg
        g.take none false rest

def pool (g : Given) : Except PoolFault RegisterPool :=
  match g.registers, g.regs with
  | some count, _ => RegisterPool.ofSize count
  | none, some names =>
    RegisterPool.ofNames (names.map fun name => String.ofList (Blank.trim name.toList))
  | none, none => .ok RegisterPool.standard

end Given

def ofArgs (args : List String) : Except UsageError Options := do
  let g ← Given.take {} none false args
  if g.registers.isSome && g.regs.isSome then throw .conflict
  let some file := g.file | throw .missingFile
  match g.pool with
  | .error fault => throw (.invalidPool fault)
  | .ok pool => return ⟨file, pool, g.liveness, g.graph, g.verbosity⟩

def severity (o : Options) : Severity :=
  match o.verbosity with
  | 0 => .warn
  | 1 => .debug
  | _ => .trace

end Options
end RegisterColoring

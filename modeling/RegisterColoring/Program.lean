import RegisterColoring.Options
import RegisterColoring.Report.Drawing
import RegisterColoring.Table

/-! The whole program: from arguments and a file to what is printed. -/
namespace RegisterColoring

structure Outcome where
  status : UInt32
  stdout : String := ""
  stderr : String := ""
  log : List Event := []

namespace Program

def usageLine : String := "Usage: mips-regalloc [-k K | --regs a,b,c] [--liveness] [--graph] <file>"

def helpText : String :=
  String.join ([
    "Liveness analysis and graph-colouring register allocation for IR listings",
    "",
    "Usage: mips-regalloc [OPTIONS] <file>",
    "",
    "Arguments:",
    "  <file>  IR listing to allocate",
    "",
    "Options:",
    "  -k, --registers <K>  Allocate from $t0..$t\x7bK-1\x7d instead of the MIPS temporaries",
    "      --regs <NAMES>   Comma-separated register names, in allocation order",
    "      --liveness       Print in/out sets for every instruction",
    "      --graph          Print the interference graph",
    "  -v, --verbose...     Log allocator decisions (-v debug, -vv trace)",
    "  -h, --help           Print help"].map (· ++ "\n"))

def usageMessage : UsageError → String
  | .help => ""
  | .unknownArgument => "unexpected argument found"
  | .missingValue => "a value is required but none was supplied"
  | .invalidNumber => "invalid value for '--registers <K>'"
  | .unexpectedValue => "unexpected value for a flag"
  | .conflict => "an argument cannot be used with another or more than once"
  | .missingFile => "the file argument was not provided"
  | .invalidPool fault => fault.toFault.message

def usage : UsageError → Outcome
  | .help => { status := 0, stdout := helpText }
  | e => { status := 2, stderr := "error: " ++ usageMessage e ++ "\n\n" ++ usageLine ++ "\n" }

def unreadable (file reason : String) : Outcome :=
  { status := 1, stderr := "Error reading file '" ++ file ++ "': " ++ reason ++ "\n\n" ++ usageLine ++ "\n" }

def heading (title : String) : String := "\n" ++ title ++ ":\n" ++ Column.fill '-' 60 ++ "\n"

def logged (o : Options) (events : List Event) : List Event :=
  events.filter fun e => match o.severity, e.severity with
    | .trace, _ => true
    | .debug, s => s ≠ .trace
    | .warn, s => s = .warn

def allocate (o : Options) (source : String) (listing : Listing) : Outcome :=
  let commands := listing.commands
  let summary := o.file ++ ": " ++ commands.length.repr ++ " instruction(s), " ++ o.pool.size.repr ++
    " register(s) " ++ o.pool.text ++ "\n"
  let log := logged o (Run.events commands o.pool)
  match Run.ofCommands commands o.pool with
  | .error fault =>
    let report := match Report.ofFault? listing fault with
      | some r => r.draw source
      | none => o.file ++ ": " ++ fault.message ++ "\n"
    { status := 1, stdout := summary, stderr := report, log }
  | .ok run =>
    let liveness :=
      if o.showLiveness then heading "Liveness" ++ Table.liveness commands run.liveness else ""
    let graph := if o.showGraph then heading "Interference graph" ++ Table.graph run.graph else ""
    let allocation := heading "Allocation" ++ Table.allocation run.allocation
    { status := 0, stdout := summary ++ liveness ++ graph ++ allocation, log }

def onSource (o : Options) (source : String) : Outcome :=
  match Listing.read source with
  | .error (.malformed errors) =>
    { status := 1, stderr := String.join (errors.map fun e => (Report.ofSyntaxError e).draw source) }
  | .error .exhausted => { status := 101, stderr := "attempt to add with overflow\n" }
  | .ok listing => allocate o source listing

/-- Runs the program. Files are read by `readFile`, which gives the text or the reason why not. -/
def run {m : Type → Type} [Monad m] (readFile : String → m (Except String String))
    (args : List String) : m Outcome :=
  match Options.ofArgs args with
  | .error e => pure (usage e)
  | .ok o => do
    match ← readFile o.file with
    | .error reason => return unreadable o.file reason
    | .ok source => return onSource o source

end Program
end RegisterColoring

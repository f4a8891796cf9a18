import RegisterColoring.Allocation.Progress
import RegisterColoring.Listing

/-! From a listing to its allocation, with all that is found on the way. -/
namespace RegisterColoring

structure Run where
  liveness : Liveness
  graph : InterferenceGraph
  allocation : Allocation
deriving DecidableEq

namespace Run

/-- Allocates registers of a pool to the temporaries of a listing. -/
def ofCommands (commands : List Command) (pool : RegisterPool) : Except Fault Run := do
  let liveness ← Liveness.ofCommands commands
  let graph := InterferenceGraph.ofLiveness liveness
  let allocation ← Allocation.color graph pool
  return ⟨liveness, graph, allocation⟩

def livenessEvents (l : Liveness) : List Event :=
  l.allChanges.map (fun (position, sets) => .setsChanged position sets.liveIn sets.liveOut) ++
    [.passesDone l.iterations]

def colorEvents (g : InterferenceGraph) (pool : RegisterPool) : List Event :=
  match Progress.start g with
  | .error _ => []
  | .ok start =>
    let history := start.run g pool
    history.moves.map Prod.fst ++
      match history.last with
      | .stuck left => [.stuck pool.size left.length]
      | .finished assignment =>
        let a : Allocation := ⟨pool, assignment⟩
        [.colored a.size a.used.length pool.size]
      | .failed told _ => told.toList
      | _ => []

/-- The log of a whole run, up to the step that fails. -/
def events (commands : List Command) (pool : RegisterPool) : List Event :=
  match LabelIndex.ofCommands commands with
  | .error _ => []
  | .ok labels =>
    .labelsFound commands.length labels.length ::
      match FlowNode.ofCommands labels commands with
      | .error _ => []
      | .ok nodes =>
        let liveness := Liveness.ofNodes nodes
        let graph := InterferenceGraph.ofLiveness liveness
        livenessEvents liveness ++ .graphBuilt graph.size graph.edgeCount :: colorEvents graph pool

end Run

inductive CompileError where
  | unread (failure : ReadFailure)
  | unallocated (fault : Fault)
deriving DecidableEq

def SyntaxError.located (e : SyntaxError) : String :=
  e.span.start.repr ++ ".." ++ e.span.stop.repr ++ ": " ++ e.message

def CompileError.message : CompileError → String
  | unread (.malformed errors) =>
    "Syntax error: " ++ "; ".intercalate (errors.map SyntaxError.located)
  | unread .exhausted => "no temporary lies above those of the listing"
  | unallocated fault => fault.message

def compile (source : String) (pool : RegisterPool) : Except CompileError (Listing × Run) :=
  match Listing.read source with
  | .error failure => .error (.unread failure)
  | .ok listing =>
    match Run.ofCommands listing.commands pool with
    | .error fault => .error (.unallocated fault)
    | .ok run => .ok (listing, run)

end RegisterColoring

import Std.Data.TreeMap
import WorkflowLoops.Failure.StopRule
import WorkflowLoops.Graph.Rendering
import WorkflowLoops.Log

/-!
# Reports of queries

A query has a result and, beside it, the events on the way there. Events become messages only when
they are to be read, since a long search has many.
-/

namespace WorkflowLoops

/-- What happens during a query. Nodes are given by execution id. -/
inductive Event
  | resolving (node : String)
  | resolved (node driver : String) (steps : Nat)
  | planningFailure (node : String) (stop : StopRule)
  | failurePath (path : Path)
  | foundFailurePaths (node : String) (count steps : Nat)
  | planningReset (node : String)
  | resetCycle (cycle : Path)
  | foundResetCycles (node : String) (count steps : Nat)
  | stepLimitExceeded (limit : Nat)
  | indexed (nodes : Nat)
deriving DecidableEq, Repr

/-- The message for an event in a graph. -/
def Event.message (g : Graph) : Event → Except Error Log.Message
  | resolving node => pure ⟨.trace, "Resolving loop driver of " ++ node⟩
  | resolved node driver steps =>
    pure ⟨.trace, "Loop driver of " ++ node ++ " is " ++ driver ++ " (" ++ toString steps
      ++ " steps)"⟩
  | planningFailure node stop =>
    pure ⟨.debug, "Planning failure hops from " ++ node ++ " (stop at " ++ stop.text ++ ")"⟩
  | failurePath path => do
    let text ← g.renderPath path
    pure ⟨.trace, "failure path " ++ text⟩
  | foundFailurePaths node count steps =>
    pure ⟨.debug, "Found " ++ toString count ++ " failure paths from " ++ node ++ " ("
      ++ toString steps ++ " steps)"⟩
  | planningReset node => pure ⟨.debug, "Planning reset hops from " ++ node⟩
  | resetCycle cycle => do
    let text ← g.renderPath cycle
    pure ⟨.trace, "reset cycle " ++ text⟩
  | foundResetCycles node count steps =>
    pure ⟨.debug, "Found " ++ toString count ++ " reset cycles from " ++ node ++ " ("
      ++ toString steps ++ " steps)"⟩
  | stepLimitExceeded limit => pure ⟨.debug, "step limit " ++ toString limit ++ " exceeded"⟩
  | indexed nodes => pure ⟨.debug, "Indexed drivers of " ++ toString nodes ++ " nodes"⟩

/-- The event that goes with an error: running out of steps is told when it happens. -/
def Event.ofError : Error → List Event
  | .malformed (.stepLimitExceeded _ limit) => [stepLimitExceeded limit]
  | _ => []

/-- The result of a query and the events on the way to it. -/
structure Report (α : Type) where
  events : List Event := []
  result : Except Error α

namespace Report

/-- A report without events. -/
def quiet {α : Type} (result : Except Error α) : Report α := { result }

/-- Go on from the result of a report. -/
def andThen {α β : Type} (r : Report α) (f : α → Report β) : Report β :=
  match r.result with
  | .error e => { events := r.events, result := .error e }
  | .ok a =>
    let later := f a
    { events := r.events ++ later.events, result := later.result }

/-- The messages of a report about a graph. -/
def messages {α : Type} (r : Report α) (g : Graph) : Except Error (List Log.Message) :=
  r.events.mapM (Event.message g)

end Report

/-- What a query lists for each output of a node, by the name of the output. -/
abbrev Listing (α : Type) := Std.TreeMap String (List α)

end WorkflowLoops

import WorkflowLoops.Driver.Directory
import WorkflowLoops.Failure.Routes
import WorkflowLoops.Graph.Draft
import WorkflowLoops.Graph.Graphviz
import WorkflowLoops.Reset.Cycles
import WorkflowLoops.Settings

/-!
# Loop analysis of a workflow

A workflow is checked and turned into a graph once, and then asked: which driver governs the loop
that a node is in, which routes a failure of a node takes, and which cycles a reset of a loop goes
around.
-/

namespace WorkflowLoops

/-- The graph of a workflow, and the settings by which queries about it are answered. -/
structure Analysis where
  graph : Graph
  settings : Settings

namespace Analysis

/-- What the settings of an analysis are, for the log. -/
def settingsMessage (a : Analysis) : Log.Message :=
  let steps := match a.settings.maxSteps with
    | some n => toString n
    | none => toString (a.settings.limits a.graph).maxSteps ++ " (auto)"
  ⟨.debug, "Analysis settings: failure stop at " ++ a.settings.failureStop.text
    ++ ", dedup targets " ++ (if a.settings.dedupFailureTargets then "true" else "false")
    ++ ", max steps " ++ steps⟩

/-- The analysis of a workflow, or why the workflow is refused, and the log of checking it. -/
def ofWorkflow (w : Workflow) (settings : Settings) :
    List Log.Message × Except Error Analysis :=
  let draft := Draft.ofWorkflow w
  match draft.graph with
  | .error e => (draft.fullLog, .error e)
  | .ok graph =>
    let a : Analysis := { graph, settings }
    (draft.fullLog ++ [a.settingsMessage], .ok a)

/-- The limits of queries. -/
def limits (a : Analysis) : Limits := a.settings.limits a.graph

/-- The driver of the innermost loop around a node. -/
def loopDriverOf (a : Analysis) (exeId : String) : Report Node :=
  a.graph.loopDriverOf a.limits exeId

/-- The routes of a failure of a node, for each of its outputs. -/
def failureRoutes (a : Analysis) (exeId : String) : Report (Listing Path) :=
  a.graph.failureRoutes a.limits a.settings.failureStop a.settings.dedupFailureTargets exeId

/-- The cycles of a reset of a driver, for each of its outputs. -/
def resetCycles (a : Analysis) (exeId : String) : Report (Listing Cycle) :=
  a.graph.resetCycles a.limits exeId

/-- The governing driver of every node. -/
def directory (a : Analysis) : Report Directory := Directory.ofGraph a.graph a.limits

end Analysis

end WorkflowLoops

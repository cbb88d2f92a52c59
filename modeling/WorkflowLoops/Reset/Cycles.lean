import WorkflowLoops.Report
import WorkflowLoops.Search.Survey
import WorkflowLoops.Walk.Rules

/-!
# Cycles of a reset

When a driver starts its loop again, the reset goes around the loop: along every cycle that leaves
the driver on the level of its body and comes back to it on that level, through no node twice.
-/

namespace WorkflowLoops

namespace Reset

/-- The edges that go on after an edge without leading back onto the path. They may lead back to
the driver. -/
def followable (g : Graph) (onPath : List Visit) (e : Edge) : Except Error (List Edge) := do
  let next ← g.nextEdges .reset (.after e)
  pure (next.filter fun f => (⟨f.target, none⟩ : Visit) ∉ onPath)

/-- What the search for cycles does after an edge. Back at the driver the path ends, and it is a
cycle if the driver was entered on the level of its body; paths that die out are passed over. -/
def move (g : Graph) (driver : NodeId) (onPath : List Visit) (e : Edge) : Except Error Move :=
  if e.target = driver then .ok (.finish (e.targetRole == .same))
  else if ⟨e.target, none⟩ ∈ onPath then .ok (.finish false)
  else do
    let next ← followable g (⟨e.target, none⟩ :: onPath) e
    pure (if next.isEmpty then .finish false else .enter ⟨e.target, none⟩ next)

/-- The search for the cycles of a reset. The driver is not remembered, so that it can be come back
to. -/
def strategy (g : Graph) (driver : NodeId) : Strategy where
  root := ⟨driver, none⟩
  marksRoot := false
  move := move g driver

/-- The cycles of a reset of a driver, for each of its outputs. -/
def plan (g : Graph) (limits : Limits) (driver : NodeId) : Report (Listing Cycle) :=
  match g.nodeAt driver, g.openings .reset driver with
  | .error e, _ => .quiet (.error e)
  | .ok _, .error e => .quiet (.error e)
  | .ok node, .ok openings =>
    if node.isDriver then
      let survey := Survey.run (strategy g driver) { start := node.exeId, limits } openings
      let all := survey.listings.toList.map fun (output, paths) =>
        (output, paths.filterMap Cycle.close?)
      let told := .planningReset node.exeId
        :: all.flatMap fun (_, cycles) => cycles.map fun c => .resetCycle c.path
      match survey.result with
      | .error e => { events := told ++ Event.ofError e, result := .error e }
      | .ok () =>
        let count := (all.flatMap Prod.snd).length
        { events := told ++ [.foundResetCycles node.exeId count survey.search.budget.used]
          result := .ok (.ofList all) }
    else .quiet (.error (.notALoopDriver node.exeId))

end Reset

/-- The cycles of a reset of the driver with an execution id. -/
def Graph.resetCycles (g : Graph) (limits : Limits) (exeId : String) : Report (Listing Cycle) :=
  (Report.quiet (g.nodeId exeId)).andThen (Reset.plan g limits)

end WorkflowLoops

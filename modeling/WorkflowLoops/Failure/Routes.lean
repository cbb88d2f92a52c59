import WorkflowLoops.Report
import WorkflowLoops.Search.Survey
import WorkflowLoops.Walk.Rules

/-!
# Routes of a failure

When a node fails, the failure is reported along the edges that leave it and on from node to node. A
route is a path that goes on until nothing is left to follow without coming back onto the path, or
until it enters the loop of a driver, where the driver takes over.
-/

namespace WorkflowLoops

namespace StopRule

/-- The walk that the report of a failure takes. -/
def walk : StopRule → Walk
  | governingDriver => .exit
  | sink => .flow

end StopRule

namespace Failure

/-- How a route remembers a node that it enters. On the way out of a loop a controller can be
passed on each of its two levels, so there the level counts. -/
def visitOf (g : Graph) (stop : StopRule) (e : Edge) : Except Error Visit := do
  let kind ← g.kind e.target
  pure ⟨e.target, if stop = .governingDriver ∧ kind = .controller then some e.targetRole else none⟩

/-- Whether a route ends with an edge because a driver takes over. -/
def endsAt (g : Graph) (stop : StopRule) (e : Edge) : Except Error Bool := do
  let enters ← g.entersLoop e
  pure (stop == .governingDriver && enters)

/-- The edges that go on after an edge without leading back onto the path. -/
def followable (g : Graph) (stop : StopRule) (onPath : List Visit) (e : Edge) :
    Except Error (List Edge) := do
  let next ← g.nextEdges stop.walk (.after e)
  let visits ← next.mapM (visitOf g stop)
  pure <| ((next.zip visits).filter fun (_, visit) => visit ∉ onPath).map Prod.fst

/-- What a route does after an edge. Every end of a route is listed. -/
def move (g : Graph) (stop : StopRule) (onPath : List Visit) (e : Edge) : Except Error Move := do
  let ends ← endsAt g stop e
  let visit ← visitOf g stop e
  if ends || visit ∈ onPath then pure (.finish true)
  else
    let next ← followable g stop (visit :: onPath) e
    pure (if next.isEmpty then .finish true else .enter visit next)

/-- The search for the routes of a failure. -/
def strategy (g : Graph) (stop : StopRule) (start : NodeId) : Strategy where
  root := ⟨start, none⟩
  marksRoot := true
  move := move g stop

/-- Where a route ends: the node and its input. -/
abbrev Landing := NodeId × PortIdx

/-- Keep a route unless an earlier one ends on the same input. -/
def keepNew : List Landing × Array Path → Path → List Landing × Array Path
  | (reached, kept), path =>
    match path.last? with
    | none => (reached, kept.push path)
    | some hop =>
      if (hop.target, hop.input) ∈ reached then (reached, kept)
      else ((hop.target, hop.input) :: reached, kept.push path)

/-- Drop every route that ends on an input on which an earlier route ends, through all outputs in
their order. -/
def dropRepeated (listings : List (String × List Path)) : List (String × List Path) :=
  (listings.foldl perOutput ([], #[])).2.toList
where
  /-- Go through the routes of one output. -/
  perOutput : List Landing × Array (String × List Path) → String × List Path →
      List Landing × Array (String × List Path)
    | (reached, done), (output, paths) =>
      let (reached, kept) := paths.foldl keepNew (reached, #[])
      (reached, done.push (output, kept.toList))

/-- The routes of a failure of a node, for each of its outputs. -/
def plan (g : Graph) (limits : Limits) (stop : StopRule) (dedup : Bool) (start : NodeId) :
    Report (Listing Path) :=
  match g.nodeAt start, g.openings stop.walk start with
  | .error e, _ => .quiet (.error e)
  | .ok _, .error e => .quiet (.error e)
  | .ok node, .ok openings =>
    let survey := Survey.run (strategy g stop start) { start := node.exeId, limits } openings
    let all := survey.listings.toList
    let told := .planningFailure node.exeId stop
      :: all.flatMap fun (_, paths) => paths.map .failurePath
    match survey.result with
    | .error e => { events := told ++ Event.ofError e, result := .error e }
    | .ok () =>
      let kept := if dedup then dropRepeated all else all
      let count := (kept.flatMap Prod.snd).length
      { events := told ++ [.foundFailurePaths node.exeId count survey.search.budget.used]
        result := .ok (.ofList kept) }

end Failure

/-- The routes of a failure of the node with an execution id. -/
def Graph.failureRoutes (g : Graph) (limits : Limits) (stop : StopRule) (dedup : Bool)
    (exeId : String) : Report (Listing Path) :=
  (Report.quiet (g.nodeId exeId)).andThen (Failure.plan g limits stop dedup)

end WorkflowLoops

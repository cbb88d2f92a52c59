import WorkflowLoops.Graph.Basic

/-!
# Rules of walking

Which edges a walk goes on along when it stands at a node. It depends on what the walk is for, on
what the node is to its loops, on how the walk came to the node, and on the role that an edge plays
where it leaves. Edges that leave into a nested loop carry broadcasts and are never followed, and a
walk that came in by such a broadcast goes no further.
-/

namespace WorkflowLoops

/-- What a walk is for. -/
inductive Walk
  /-- To leave the loop: towards the driver that governs the start. -/
  | exit
  /-- To find the way back to a driver through the body of its own loop. -/
  | reset
  /-- To follow the flow of data. -/
  | flow
deriving DecidableEq, Repr

/-- How a walk came to a node. -/
inductive Arrival
  /-- It starts there. -/
  | start
  /-- It came in through an input that plays this role for the node. -/
  | via (role : LoopRole)
deriving DecidableEq, Repr

/-- A node and how a walk came to it. -/
structure Spot where
  node : NodeId
  arrival : Arrival
deriving DecidableEq, Repr

/-- The spot that an edge leads to. -/
def Spot.after (e : Edge) : Spot := ⟨e.target, .via e.targetRole⟩

/-- Whether a walk follows an edge that leaves a node in a given role.

A driver where a walk starts is left towards the enclosing loop to get out, and into its own loop to
come back. A driver on the way is left on the level on which it was entered, so a nested loop is
passed by. A controller on the way out hands over between the two levels. -/
def Walk.follows (w : Walk) (kind : NodeKind) : Arrival → LoopRole → Bool
  | _, .inner => false
  | .via .inner, _ => false
  | .start, role =>
    match kind, w with
    | .driver, .exit => role == .outer
    | .driver, .reset => role == .same
    | _, _ => true
  | .via entered, role =>
    match w, kind with
    | .flow, _ => true
    | _, .driver => role == entered
    | .exit, .controller => role != entered
    | _, _ => true

namespace Graph

/-- The edges that a walk goes on along from a spot. -/
def nextEdges (g : Graph) (w : Walk) (spot : Spot) : Except Error (List Edge) := do
  let kind ← g.kind spot.node
  pure ((g.leaving spot.node).filter fun e => w.follows kind spot.arrival e.sourceRole)

/-- The outputs of a node by name, in the order of their declaration, each with the edges along
which a walk from the node takes out of it. -/
def openings (g : Graph) (w : Walk) (start : NodeId) :
    Except Error (List (String × List Edge)) := do
  let node ← g.nodeAt start
  let kind ← g.kind start
  pure <| node.outputs.toList.zipIdx.map fun (port, i) =>
    (port.name,
      (g.outgoing start (.ofNat i)).filter fun e => w.follows kind .start e.sourceRole)

end Graph

end WorkflowLoops

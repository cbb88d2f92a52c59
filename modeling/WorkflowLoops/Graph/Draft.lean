import WorkflowLoops.Declaration.PortDefects
import WorkflowLoops.Defects
import WorkflowLoops.Graph.Basic

/-!
# Drafts

A draft is a graph while it is built from declarations. Every declaration is taken in turn: what is
wrong with it is added to the list of defects, and what can be used of it is used, so that one pass
finds all defects. Nodes come before connections, and the source of a connection before its target.

Nodes and edges are numbered by their positions, and these numbers are not cut down to the 32 bits of
an identifier. So drafts, and the graphs they become, are exact for at most 2 ^ 32 nodes and 2 ^ 32
connections.
-/

namespace WorkflowLoops

/-- A graph under construction, with the defects found and the log written so far. -/
structure Draft where
  nodes : Arena NodeId Node := {}
  exeIds : Interner := {}
  edges : Arena EdgeId Edge := {}
  defects : Array Defect := #[]
  log : Array Log.Message := #[]
  /-- Whether the assertions held so far, or the fault of the first one that did not. -/
  asserted : Except Error Unit := .ok ()

namespace Draft

/-- Add one defect, and tell it. -/
def addDefect (d : Draft) (defect : Defect) : Draft :=
  { d with defects := d.defects.push defect, log := d.log.push (Defects.logged defect) }

/-- Add defects in their order. -/
def addDefects (d : Draft) (defects : List Defect) : Draft := defects.foldl addDefect d

/-- Assert that a number is the one under which the next node is filed. -/
def assertNext (d : Draft) (id : NodeId) : Except Error Unit :=
  if d.nodes.nextId = id then .ok () else .error (.fault (.misfiled id))

/-- Take a declared node. A node declared again is left out, and its ports are not looked at. The
number of a new execution id has to be the next one among the nodes. It is not cut down: this is exact
for at most 2 ^ 32 nodes. -/
def addNode (d : Draft) (n : NodeDecl) : Draft :=
  match d.exeIds.intern n.exeId with
  | ((_, false), _) => d.addDefect (.duplicateNode n.exeId)
  | ((number, true), exeIds) =>
    let d := d.addDefects n.portDefects
    { d with
      exeIds
      nodes := d.nodes.push (.ofDecl ⟨number⟩ n)
      asserted := d.asserted >>= fun _ => d.assertNext (.ofNat number) }

/-- The port that one end of a connection names, or what is wrong with that end. -/
def resolve (d : Draft) (label : String) (side : Side) (e : Endpoint) :
    Except Defect (NodeId × PortIdx) :=
  match d.exeIds.find? e.node with
  | none => .error (.danglingNode label e.node)
  | some number =>
    match (d.nodes.get? ⟨number⟩).bind (·.find? side e.port) with
    | none => .error (.danglingPort label e.node e.port side)
    | some position => .ok (⟨number⟩, position)

/-- Add an edge for a wire, unless there is one already. Its number is not cut down: this is exact for
at most 2 ^ 32 connections. -/
def addWire (d : Draft) (label : String) (w : Wire) : Draft :=
  if d.edges.values.any (·.toWire == w) then
    { d with log := d.log.push ⟨.warn, "Ignoring duplicate connection " ++ label⟩ }
  else
    { d with edges := d.edges.push ⟨w, ⟨d.edges.size⟩⟩ }

/-- Take a declared connection. -/
def connect (d : Draft) (c : Connection) : Draft :=
  match d.resolve c.label .output c.source, d.resolve c.label .input c.target with
  | .ok (source, output), .ok (target, input) =>
    d.addWire c.label ⟨source, output, c.source.role, target, input, c.target.role⟩
  | .ok _, .error defect => d.addDefect defect
  | .error defect, .ok _ => d.addDefect defect
  | .error first, .error second => (d.addDefect first).addDefect second

/-- The draft of a whole workflow. -/
def ofWorkflow (w : Workflow) : Draft := w.connections.foldl connect (w.nodes.foldl addNode {})

/-- The graph, if no assertion failed and there is no defect. -/
def graph (d : Draft) : Except Error Graph := do
  d.asserted
  Defects.verdict d.defects.toList
  pure {
    nodes := d.nodes
    edges := d.edges
    exeIds := d.exeIds
    wiring := .ofEdges d.nodes.toList d.edges.toList }

/-- The log of the whole construction: what was told on the way, then either the list of defects or
the size of the graph. -/
def fullLog (d : Draft) : List Log.Message :=
  d.log.toList ++
    if d.defects.isEmpty then
      [⟨.debug, "Built workflow graph with " ++ toString d.nodes.size ++ " nodes and "
        ++ toString d.edges.size ++ " edges"⟩]
    else Defects.report "building workflow graph" d.defects.toList

end Draft

/-- The graph that a workflow declares, or why it declares none. -/
def Graph.ofWorkflow (w : Workflow) : Except Error Graph := (Draft.ofWorkflow w).graph

end WorkflowLoops

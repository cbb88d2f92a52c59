import WorkflowLoops.Arena
import WorkflowLoops.Graph.Wiring
import WorkflowLoops.Interner

/-!
# Graphs

A graph is looked up by execution id from outside and by number from inside. A number that the graph
does not have is a fault; an execution id that it does not have is an answer, `nodeNotFound`. The
numbers of a graph are those that its draft gave out, exact for at most 2 ^ 32 nodes and edges.
-/

namespace WorkflowLoops

/-- The nodes of a workflow and the edges between their ports. -/
structure Graph where
  nodes : Arena NodeId Node
  edges : Arena EdgeId Edge
  /-- Numbers the execution ids as `nodes` numbers the nodes. -/
  exeIds : Interner
  /-- Files `edges` by the output that they leave. -/
  wiring : Wiring

namespace Graph

/-- How many nodes there are. -/
def nodeCount (g : Graph) : Nat := g.nodes.size

/-- How many edges there are. -/
def edgeCount (g : Graph) : Nat := g.edges.size

/-- The node with a number. -/
def nodeAt (g : Graph) (id : NodeId) : Except Error Node := orFault (.noNode id) (g.nodes.get? id)

/-- The edge with a number. -/
def edgeAt (g : Graph) (id : EdgeId) : Except Error Edge := orFault (.noEdge id) (g.edges.get? id)

/-- The execution id of the node with a number. -/
def exeIdAt (g : Graph) (id : NodeId) : Except Error String :=
  orFault (.noNode id) (g.exeIds.text? id.index)

/-- The number of the node with an execution id. It is not cut down: this is exact for at most 2 ^ 32
nodes. -/
def nodeId (g : Graph) (exeId : String) : Except Error NodeId :=
  match g.exeIds.find? exeId with
  | some number => .ok ⟨number⟩
  | none => .error (.nodeNotFound exeId)

/-- The node with an execution id. -/
def node (g : Graph) (exeId : String) : Except Error Node := do
  g.nodeAt (← g.nodeId exeId)

/-- The edges that leave an output of a node, in the order of their numbers. -/
def outgoing (g : Graph) (node : NodeId) (output : PortIdx) : List Edge :=
  g.wiring.outgoing node output

/-- The edges that leave a node, output by output in the order of declaration. -/
def leaving (g : Graph) (node : NodeId) : List Edge := g.wiring.leaving node

/-- The edges that leave the output with a port id. An output without connections has none. -/
def outgoingEdges (g : Graph) (exeId portId : String) : Except Error (List Edge) := do
  let node ← g.node exeId
  match node.findOutput? portId with
  | some output => pure (g.outgoing node.id output)
  | none => throw (.portNotFound exeId portId)

/-- What a node is to the loops that pass it. -/
def kind (g : Graph) (id : NodeId) : Except Error NodeKind := do
  let node ← g.nodeAt id
  pure (node.kindOf ((g.leaving id).map (·.sourceRole)))

/-- Whether an edge goes back into the loop of a driver, on the level of its own body. -/
def entersLoop (g : Graph) (e : Edge) : Except Error Bool := do
  let node ← g.nodeAt e.target
  pure (node.isDriver && e.targetRole == .same)

end Graph

end WorkflowLoops

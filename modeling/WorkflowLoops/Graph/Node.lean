import WorkflowLoops.Declaration.Basic
import WorkflowLoops.Error
import WorkflowLoops.Path.Basic

/-!
# Nodes and edges

What a graph is made of. Inside a graph, nodes are named by number and ports by position.
-/

namespace WorkflowLoops

/-- What an edge joins, and the roles that it plays at both ends. -/
structure Wire where
  source : NodeId
  output : PortIdx
  sourceRole : LoopRole
  target : NodeId
  input : PortIdx
  targetRole : LoopRole
deriving DecidableEq, Repr

/-- A wire with its number in the graph. -/
structure Edge extends Wire where
  id : EdgeId
deriving DecidableEq, Repr

/-- The move along an edge. -/
def Edge.hop (e : Edge) : Hop := ⟨e.source, e.output, e.target, e.input, e.id⟩

/-- A node of a graph. -/
structure Node where
  id : NodeId
  exeId : String
  name : String
  inputs : Array Port
  outputs : Array Port
  isDriver : Bool
deriving DecidableEq, Repr

/-- The position of the first port with a given id. -/
def Port.position? (ports : Array Port) (portId : String) : Option PortIdx :=
  (ports.findIdx? (·.id == portId)).map PortIdx.ofNat

namespace Node

/-- The node that a declaration describes, with its number. -/
def ofDecl (id : NodeId) (n : NodeDecl) : Node where
  id := id
  exeId := n.exeId
  name := n.displayName
  inputs := n.inputs.toArray
  outputs := n.outputs.toArray
  isDriver := n.isDriver

/-- The position of the input with a given port id. -/
def findInput? (n : Node) (portId : String) : Option PortIdx := Port.position? n.inputs portId

/-- The position of the output with a given port id. -/
def findOutput? (n : Node) (portId : String) : Option PortIdx := Port.position? n.outputs portId

/-- The position of a port on either side. -/
def find? (n : Node) : Side → String → Option PortIdx
  | .input => n.findInput?
  | .output => n.findOutput?

/-- The input at a position. -/
def inputAt (n : Node) (i : PortIdx) : Except Error Port :=
  orFault (.noPort n.exeId .input i) n.inputs[i.index]?

/-- The output at a position. -/
def outputAt (n : Node) (i : PortIdx) : Except Error Port :=
  orFault (.noPort n.exeId .output i) n.outputs[i.index]?

/-- The positions of all outputs, in the order of their declaration. -/
def outputIdxs (n : Node) : List PortIdx := (List.range n.outputs.size).map PortIdx.ofNat

end Node

/-- What a node is to the loops that pass it. -/
inductive NodeKind
  /-- It controls a loop. -/
  | driver
  /-- It controls no loop, but has connections leaving both on its own level and to the level
  around it: it runs a loop that another node controls. -/
  | controller
  /-- Neither of the two. -/
  | plain
deriving DecidableEq, Repr

/-- What a node is, by the roles in which edges leave it. -/
def Node.kindOf (n : Node) (leaving : List LoopRole) : NodeKind :=
  if n.isDriver then .driver
  else if .same ∈ leaving ∧ .outer ∈ leaving then .controller
  else .plain

end WorkflowLoops

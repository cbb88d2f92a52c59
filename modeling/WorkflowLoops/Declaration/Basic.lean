import WorkflowLoops.LoopRole

/-!
# Declarations

A workflow as it is handed over: nodes with their ports, and connections between ports, all named
by texts. Nothing is checked here.
-/

namespace WorkflowLoops

/-- A port of a node: an id to connect to, and a name to read. -/
structure Port where
  id : String
  name : String
deriving DecidableEq, Repr

/-- A node as it is declared. -/
structure NodeDecl where
  /-- The execution id, by which the node is known. -/
  exeId : String
  /-- The name to display, if it is not the execution id. -/
  name : Option String := none
  inputs : List Port := []
  outputs : List Port := []
  /-- Whether the node controls a loop. -/
  isDriver : Bool := false
deriving DecidableEq, Repr

/-- The name a node is displayed by. -/
def NodeDecl.displayName (n : NodeDecl) : String := n.name.getD n.exeId

/-- One end of a connection. -/
structure Endpoint where
  node : String
  port : String
  role : LoopRole
deriving DecidableEq, Repr

/-- The end as it is written in labels. -/
def Endpoint.text (e : Endpoint) : String :=
  e.node ++ ":" ++ e.port ++ " (" ++ e.role.text ++ ")"

/-- A connection as it is declared, from an output to an input. -/
structure Connection where
  source : Endpoint
  target : Endpoint
deriving DecidableEq, Repr

/-- The short form that names a connection in messages. -/
def Connection.label (c : Connection) : String := c.source.text ++ " -> " ++ c.target.text

/-- A workflow as it is declared. -/
structure Workflow where
  nodes : List NodeDecl := []
  connections : List Connection := []
deriving DecidableEq, Repr

end WorkflowLoops

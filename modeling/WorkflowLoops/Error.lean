import WorkflowLoops.Identifier

/-!
# Errors

Why a graph is refused and why a query has no answer. Every cause is a constructor; its wording is
in one function per type. A `Fault` is the one kind of error that no valid input causes: a table
was asked for an entry that it does not have, or a path was continued from the wrong node.
-/

namespace WorkflowLoops

/-- The two sides of a node. -/
inductive Side
  | input
  | output
deriving DecidableEq, Repr

/-- The word for a side in texts. -/
def Side.text : Side → String
  | input => "input"
  | output => "output"

/-- Ways in which a workflow graph is malformed, found while it is built or while it is walked. -/
inductive Defect
  /-- An execution id is declared a second time. -/
  | duplicateNode (node : String)
  /-- A port id is declared a second time on its node. -/
  | duplicatePort (node port : String)
  /-- A side of a node has more ports than can be numbered. -/
  | tooManyPorts (node : String) (side : Side) (count : Nat)
  /-- An output name is used a second time on its node. -/
  | duplicateOutputName (node name : String)
  /-- A connection ends at a node that is not declared. -/
  | danglingNode (edge node : String)
  /-- A connection ends at a port that its node does not declare on that side. -/
  | danglingPort (edge node port : String) (side : Side)
  /-- A search took more steps than it may without ending a path. -/
  | stepLimitExceeded (start : String) (limit : Nat)
  /-- A path got longer than it may. -/
  | pathTooLong (start : String) (limit : Nat)
  /-- The way out of a node's loop goes in a circle that holds no driver. -/
  | driverlessCycle (node : String)
  /-- The ways out of a node's loop lead to different drivers. -/
  | conflictingDrivers (node first second : String)
  /-- There are several defects. -/
  | aggregated (first : Defect) (more : Nat)
deriving DecidableEq, Repr, Inhabited

/-- The wording of a defect. -/
def Defect.message : Defect → String
  | duplicateNode node => "node '" ++ node ++ "' is declared more than once"
  | duplicatePort node port =>
    "node '" ++ node ++ "' declares port '" ++ port ++ "' more than once"
  | tooManyPorts node side count =>
    "node '" ++ node ++ "' declares " ++ toString count ++ " " ++ side.text
      ++ " ports, more than a node can have"
  | duplicateOutputName node name =>
    "node '" ++ node ++ "' has more than one output named '" ++ name ++ "'"
  | danglingNode edge node => "edge " ++ edge ++ " references unknown node '" ++ node ++ "'"
  | danglingPort edge node port side =>
    "edge " ++ edge ++ " references undeclared " ++ side.text ++ " port '" ++ port
      ++ "' of node '" ++ node ++ "'"
  | stepLimitExceeded start limit =>
    "traversal from '" ++ start ++ "' exceeded its bound of " ++ toString limit ++ " steps"
  | pathTooLong start limit =>
    "path from '" ++ start ++ "' grew past " ++ toString limit ++ " hops without ending"
  | driverlessCycle node =>
    "loop exit walk from '" ++ node ++ "' runs in a cycle without reaching a driver"
  | conflictingDrivers node first second =>
    "node '" ++ node ++ "' resolves to conflicting drivers '" ++ first ++ "' and '"
      ++ second ++ "'"
  | aggregated first more => first.message ++ " (and " ++ toString more ++ " more)"

/-- Ways in which the tables of a graph can fail to fit together. -/
inductive Fault
  /-- No node has this number. -/
  | noNode (id : NodeId)
  /-- No edge has this number. -/
  | noEdge (id : EdgeId)
  /-- A node has no port at this position. -/
  | noPort (node : String) (side : Side) (position : PortIdx)
  /-- A hop does not start where the path before it ends. -/
  | discontinuous (source : NodeId)
  /-- A node is filed under a number that is not its own. -/
  | misfiled (id : NodeId)
deriving DecidableEq, Repr

/-- The wording of a fault. -/
def Fault.message : Fault → String
  | noNode id => "no node has number " ++ toString id.index
  | noEdge id => "no edge has number " ++ toString id.index
  | noPort node side position =>
    "node '" ++ node ++ "' has no " ++ side.text ++ " port at position "
      ++ toString position.index
  | discontinuous source =>
    "hop from node number " ++ toString source.index ++ " does not continue the path"
  | misfiled id => "node number " ++ toString id.index ++ " is filed under another number"

/-- Why building a graph or asking it something has no result. -/
inductive Error
  /-- No node has this execution id. -/
  | nodeNotFound (node : String)
  /-- The node has no output port with this id. -/
  | portNotFound (node port : String)
  /-- The graph is malformed. -/
  | malformed (defect : Defect)
  /-- The node lies in no loop. -/
  | noGoverningDriver (node : String)
  /-- Only drivers can be asked this. -/
  | notALoopDriver (node : String)
  /-- The tables of the graph do not fit together. -/
  | fault (fault : Fault)
deriving DecidableEq, Repr

/-- The wording of an error. -/
def Error.message : Error → String
  | nodeNotFound node => "Node not found: '" ++ node ++ "'"
  | portNotFound node port => "Node '" ++ node ++ "' has no output port '" ++ port ++ "'"
  | malformed defect => "Malformed workflow graph: " ++ defect.message
  | noGoverningDriver node => "No governing loop driver found for node '" ++ node ++ "'"
  | notALoopDriver node => "Node '" ++ node ++ "' is not a loop driver"
  | fault f => "Inconsistent workflow graph: " ++ f.message

/-- A value that has to be there, or else the fault of its absence. -/
def orFault {α : Type} (f : Fault) : Option α → Except Error α
  | some a => .ok a
  | none => .error (.fault f)

@[simp] theorem orFault_some {α : Type} (f : Fault) (a : α) : orFault f (some a) = .ok a := rfl

/-- What goes on from a value has a result if the value is there and goes on to the result. -/
theorem bind_eq_ok_iff {ε α β : Type} {x : Except ε α} {f : α → Except ε β} {b : β} :
    (x >>= f) = .ok b ↔ ∃ a, x = .ok a ∧ f a = .ok b := by
  cases x with
  | error e => simp [bind, Except.bind]
  | ok a => simp [bind, Except.bind]

/-- What goes on from a value fails if the value is not there or if it goes on to a failure. -/
theorem bind_eq_error_iff {ε α β : Type} {x : Except ε α} {f : α → Except ε β} {err : ε} :
    (x >>= f) = .error err ↔ x = .error err ∨ ∃ a, x = .ok a ∧ f a = .error err := by
  cases x with
  | error e => simp [bind, Except.bind]
  | ok a => simp [bind, Except.bind]

/-- A result that is worked on is that of a value. -/
theorem map_eq_ok_iff {ε α β : Type} {f : α → β} {x : Except ε α} {b : β} :
    x.map f = .ok b ↔ ∃ a, x = .ok a ∧ f a = b := by
  cases x <;> simp [Except.map]

/-- Work on a result does not change whether it fails. -/
theorem map_eq_error_iff {ε α β : Type} {f : α → β} {x : Except ε α} {err : ε} :
    x.map f = .error err ↔ x = .error err := by
  cases x <;> simp [Except.map]

theorem orFault_eq_ok_iff {α : Type} {f : Fault} {x : Option α} {a : α} :
    orFault f x = .ok a ↔ x = some a := by
  cases x <;> simp [orFault]

/-- What has to be there and is not is a fault. -/
theorem eq_fault_of_orFault {α : Type} {f : Fault} {x : Option α} {err : Error}
    (h : orFault f x = .error err) : err = .fault f := by
  cases x with
  | none => exact (Except.error.inj h).symm
  | some a => cases h

@[simp] theorem orFault_none {α : Type} (f : Fault) :
    orFault f (none : Option α) = .error (.fault f) := rfl

end WorkflowLoops

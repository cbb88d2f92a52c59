import WorkflowLoops.Driver.Resolution

/-!
# Directory of loop drivers

The governing driver of every node, resolved at once. A node outside of all loops has none; any
other error of a resolution is the error of the whole directory.
-/

namespace WorkflowLoops

/-- The driver that governs each node, if there is one. -/
structure Directory where
  drivers : Arena NodeId (Option NodeId) := {}

namespace Directory

/-- What the resolution of one node puts into the directory. -/
def listed : Except Error NodeId → Except Error (Option NodeId)
  | .ok driver => .ok (some driver)
  | .error (.noGoverningDriver _) => .ok none
  | .error e => .error e

/-- File the driver of the next node, whose number has to be the next position. -/
def file (d : Directory) (node : NodeId) (driver : Option NodeId) : Except Error Directory :=
  if d.drivers.size = node.index then .ok ⟨d.drivers.push driver⟩
  else .error (.fault (.misfiled node))

/-- Resolve the nodes one after the other; the first error ends it. -/
def fill (g : Graph) (limits : Limits) (d : Directory) : List Node → Report Directory
  | [] => .quiet (.ok d)
  | n :: rest =>
    let r := g.resolveDriver limits n.id
    match listed r.result >>= d.file n.id with
    | .error e => { events := r.events, result := .error e }
    | .ok d =>
      let filled := fill g limits d rest
      { events := r.events ++ filled.events, result := filled.result }

/-- The directory of a graph. -/
def ofGraph (g : Graph) (limits : Limits) : Report Directory :=
  (fill g limits {} g.nodes.toList).andThen fun d =>
    { events := [.indexed g.nodeCount], result := .ok d }

/-- The driver that governs a node. -/
def driverAt (d : Directory) (g : Graph) (id : NodeId) : Except Error (Option Node) := do
  match ← orFault (.noNode id) (d.drivers.get? id) with
  | none => pure none
  | some driver => some <$> g.nodeAt driver

/-- The driver that governs the node with an execution id. -/
def driverOf (d : Directory) (g : Graph) (exeId : String) : Except Error (Option Node) := do
  d.driverAt g (← g.nodeId exeId)

/-- All nodes, in the order of their declaration, each with the driver that governs it. -/
def entries (d : Directory) (g : Graph) : Except Error (List (Node × Option Node)) :=
  g.nodes.toList.mapM fun n => do
    let driver ← d.driverAt g n.id
    pure (n, driver)

end Directory

end WorkflowLoops

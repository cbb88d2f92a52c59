import WorkflowLoops.Graph.Node

/-!
# Wiring

For every output of every node, the edges that leave it, in the order of their numbers.
-/

namespace WorkflowLoops

/-- The edges leaving each output: a row per node, a cell per output. -/
structure Wiring where
  rows : Array (Array (Array Edge)) := #[]

namespace Wiring

/-- The wiring of unconnected nodes: an empty cell for every output. -/
def blank (nodes : List Node) : Wiring :=
  ⟨(nodes.map fun n => Array.replicate n.outputs.size #[]).toArray⟩

/-- Add an edge to the cell of the output that it leaves. -/
def connect (w : Wiring) (e : Edge) : Wiring :=
  ⟨w.rows.modify e.source.index fun row => row.modify e.output.index fun cell => cell.push e⟩

/-- The wiring of nodes by edges. -/
def ofEdges (nodes : List Node) (edges : List Edge) : Wiring := edges.foldl connect (blank nodes)

/-- The edges that leave an output of a node. -/
def outgoing (w : Wiring) (node : NodeId) (output : PortIdx) : List Edge :=
  match w.rows[node.index]? with
  | none => []
  | some row =>
    match row[output.index]? with
    | none => []
    | some cell => cell.toList

/-- The edges that leave a node, by output. -/
def leaving (w : Wiring) (node : NodeId) : List Edge :=
  match w.rows[node.index]? with
  | none => []
  | some row => row.toList.flatMap Array.toList

end Wiring

end WorkflowLoops

import WorkflowLoops.Graph.Graphviz
import WorkflowLoops.Graph.Rendering
import WorkflowLoops.Proofs.Graph.Image
import WorkflowLoops.Proofs.Report
import WorkflowLoops.Proofs.Search.Unfolding

/-!
# The tables of a graph fit together

Lookups by number are not checked, so every number that a graph holds has to lead to an entry, also after
it was cut down to its bits (`Graph.Consistent`). Where it does, the graph can be drawn, and every hop and
every path along its edges has a text.
-/

namespace WorkflowLoops

/-- The port at a position of a side. -/
def Node.portAt (n : Node) : Side → PortIdx → Except Error Port
  | .input => n.inputAt
  | .output => n.outputAt

lemma Node.portAt_eq_ok_iff {n : Node} {side : Side} {position : PortIdx} {port : Port} :
    n.portAt side position = .ok port ↔ (n.ports side)[position.index]? = some port := by
  cases side <;> exact orFault_eq_ok_iff

namespace Graph

/-- Whether the numbers and positions that a graph holds lead to its entries. -/
structure Consistent (g : Graph) : Prop where
  /-- With 32 bits, the number of a node leads to the node and to its execution id. -/
  nodes : ∀ i < g.nodeCount, ∃ node,
    g.nodeAt (.ofNat i) = .ok node ∧ node.id = ⟨i⟩ ∧ g.exeIdAt (.ofNat i) = .ok node.exeId
  edges : ∀ i < g.edgeCount, ∃ e, g.edgeAt (.ofNat i) = .ok e ∧ e.id = ⟨i⟩
  /-- With 16 bits, the position of a port leads to the port. -/
  ports : ∀ node ∈ g.nodes.toList, ∀ (side : Side) (i : Nat) (port : Port),
    (node.ports side)[i]? = some port → node.portAt side (.ofNat i) = .ok port
  /-- A port that is found by its id is at the position under which it is found. -/
  find? : ∀ node ∈ g.nodes.toList, ∀ (side : Side) (portId : String) (position : PortIdx),
    node.find? side portId = some position →
      ∃ port, node.portAt side position = .ok port ∧ port.id = portId
  /-- A lookup by execution id compares it with texts that can be cut out of the buffer. -/
  filed : ∀ (hash : UInt64) (number : Nat), number ∈ g.exeIds.filedUnder hash →
    ∃ exeId, g.exeIds.text? number = some exeId
  nodeId : ∀ (exeId : String) (id : NodeId), g.nodeId exeId = .ok id →
    ∃ node, g.nodeAt id = .ok node ∧ node.exeId = exeId
  /-- An edge that is filed under an output, or under a node, is found under its number. -/
  outgoing : ∀ (id : NodeId) (output : PortIdx), ∀ e ∈ g.outgoing id output, g.edgeAt e.id = .ok e
  leaving : ∀ (id : NodeId), ∀ e ∈ g.leaving id, g.edgeAt e.id = .ok e
  /-- An edge joins ports that are there. -/
  ends : ∀ e ∈ g.edges.toList, ∃ source target output input,
    g.nodeAt e.source = .ok source ∧ g.nodeAt e.target = .ok target ∧
      source.outputAt e.output = .ok output ∧ target.inputAt e.input = .ok input

namespace WellFormed

variable {g : Graph} {e : Edge} {w : List Edge}

/-- An edge joins ports that are there. -/
lemma exists_ends (hg : g.WellFormed) (he : e ∈ g.edges.toList) :
    ∃ source target output input, g.nodeAt e.source = .ok source ∧ g.nodeAt e.target = .ok target ∧
      source.outputAt e.output = .ok output ∧ target.inputAt e.input = .ok input := by
  obtain ⟨source, hsource, houtput⟩ := hg.exists_source he
  obtain ⟨target, htarget, hinput⟩ := hg.exists_target he
  exact ⟨source, target, _, _, hsource, htarget,
    orFault_eq_ok_iff.2 (Array.getElem?_eq_getElem houtput),
    orFault_eq_ok_iff.2 (Array.getElem?_eq_getElem hinput)⟩

/-- A graph whose nodes and edges can be numbered with 32 bits is consistent. -/
theorem consistent (hg : g.WellFormed) (hnodes : g.nodeCount ≤ 2 ^ 32)
    (hedges : g.edgeCount ≤ 2 ^ 32) : g.Consistent where
  nodes i hi := by
    have hcut : NodeId.ofNat i = ⟨i⟩ :=
      congrArg NodeId.mk (Nat.mod_eq_of_lt (Nat.lt_of_lt_of_le hi hnodes))
    rw [nodeCount, Arena.size_eq_length] at hi
    have hnode : g.nodeAt ⟨i⟩ = .ok g.nodes.toList[i] :=
      nodeAt_eq_ok_iff.2 (List.getElem?_eq_getElem hi)
    rw [hcut]
    exact ⟨_, hnode, hg.id_of_nodeAt hnode, hg.exeIdAt_of_nodeAt hnode⟩
  edges i hi := by
    have hcut : EdgeId.ofNat i = ⟨i⟩ :=
      congrArg EdgeId.mk (Nat.mod_eq_of_lt (Nat.lt_of_lt_of_le hi hedges))
    rw [edgeCount, Arena.size_eq_length] at hi
    have hid := hg.edge_id i _ (List.getElem?_eq_getElem hi)
    rw [hcut, ← hid]
    exact ⟨_, hg.edgeAt_eq_ok (List.getElem_mem hi), rfl⟩
  ports node hnode side i port hport := by
    have hlt := (Array.getElem?_eq_some_iff.1 hport).1
    rw [Node.portAt_eq_ok_iff, (hg.ports node hnode).index_ofNat side hlt]
    exact hport
  find? node hnode side portId position hfind := by
    simp only [Node.portAt_eq_ok_iff]
    exact (hg.ports node hnode).exists_port_of_find? hfind
  filed _ _ hfiled := hg.numbers.exists_text?_of_filed hfiled
  nodeId _ _ hid := hg.exists_nodeAt_of_nodeId hid
  outgoing _ _ _ he := hg.edgeAt_eq_ok (hg.mem_outgoing_iff.1 he).1
  leaving _ _ he := hg.edgeAt_eq_ok (hg.mem_leaving_iff.1 he).1
  ends _ he := hg.exists_ends he

/-! ## Texts -/

lemma exists_renderHop (hg : g.WellFormed) (he : e ∈ g.edges.toList) :
    ∃ text, g.renderHop e.hop = .ok text := by
  obtain ⟨source, target, output, input, hsource, htarget, houtput, hinput⟩ := hg.exists_ends he
  exact ⟨_, bind_eq_ok_iff.2 ⟨source, hsource, bind_eq_ok_iff.2 ⟨target, htarget,
    bind_eq_ok_iff.2 ⟨output, houtput, bind_eq_ok_iff.2 ⟨input, hinput, rfl⟩⟩⟩⟩⟩

/-- A path along edges has a text. -/
lemma exists_renderPath (hg : g.WellFormed) (hw : ∀ e ∈ w, e ∈ g.edges.toList) :
    ∃ text, g.renderPath (Path.ofEdges w) = .ok text := by
  have hhops : ∀ hop ∈ (Path.ofEdges w).hops, ∃ text, g.renderHop hop = .ok text := by
    intro hop hmem
    rw [Path.hops_ofEdges] at hmem
    obtain ⟨e, he, rfl⟩ := List.mem_map.1 hmem
    exact hg.exists_renderHop (hw e he)
  obtain ⟨texts, htexts⟩ := exists_mapM_eq_ok hhops
  exact ⟨_, bind_eq_ok_iff.2 ⟨texts, htexts, rfl⟩⟩

/-- A graph has a drawing. -/
theorem exists_toDot (hg : g.WellFormed) : ∃ text, g.toDot = .ok text := by
  have hshapes : ∀ node ∈ g.nodes.toList, ∃ shape, Graphviz.shapeOf g node = .ok shape := by
    intro node hnode
    exact ⟨_, bind_eq_ok_iff.2 ⟨_, kind_of_nodeAt (hg.nodeAt_of_mem hnode), rfl⟩⟩
  have harrows : ∀ e ∈ g.edges.toList, ∃ arrow, Graphviz.arrowOf g e = .ok arrow := by
    intro e he
    obtain ⟨source, target, output, input, hsource, htarget, houtput, hinput⟩ := hg.exists_ends he
    exact ⟨_, bind_eq_ok_iff.2 ⟨source, hsource, bind_eq_ok_iff.2 ⟨target, htarget,
      bind_eq_ok_iff.2 ⟨output, houtput, bind_eq_ok_iff.2 ⟨input, hinput, rfl⟩⟩⟩⟩⟩
  obtain ⟨shapes, hshapes⟩ := exists_mapM_eq_ok hshapes
  obtain ⟨arrows, harrows⟩ := exists_mapM_eq_ok harrows
  have hstatements : Graphviz.statements g = .ok (shapes ++ arrows) :=
    bind_eq_ok_iff.2 ⟨shapes, hshapes, bind_eq_ok_iff.2 ⟨arrows, harrows, rfl⟩⟩
  exact ⟨_, bind_eq_ok_iff.2 ⟨_, hstatements, rfl⟩⟩

end WellFormed

end Graph

end WorkflowLoops

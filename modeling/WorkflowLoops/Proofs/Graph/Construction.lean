import WorkflowLoops.Graph.Draft
import WorkflowLoops.Proofs.Declaration.Ports
import WorkflowLoops.Proofs.Interner

/-!
# Well-formed graphs

Building a graph fills several tables that point into each other. `Draft.Indexed` says how they fit
together at every moment of the construction, `Graph.WellFormed` what is left of it in the graph.
The main statement is that every graph built from a workflow is well-formed.
-/

namespace WorkflowLoops

/-- Whether both ends of a wire are ports of nodes. -/
def Wire.Fits (nodes : Arena NodeId Node) (w : Wire) : Prop :=
  (∃ node, nodes.get? w.source = some node ∧ w.output.index < node.outputs.size) ∧
    ∃ node, nodes.get? w.target = some node ∧ w.input.index < node.inputs.size

/-- A node keeps its number when nodes are added. -/
lemma Arena.get?_push_of_eq_some {ι α : Type} [Numbering ι] {a : Arena ι α} {id : ι} {v u : α}
    (h : a.get? id = some v) : (a.push u).get? id = some v := by
  simp only [get?_eq_getElem?, toList_push] at h ⊢
  rw [List.getElem?_append_left (List.getElem?_eq_some_iff.1 h).1, h]

lemma Wire.Fits.push {nodes : Arena NodeId Node} {w : Wire} (h : w.Fits nodes) (n : Node) :
    w.Fits (nodes.push n) := by
  obtain ⟨⟨source, hsource, houtput⟩, target, htarget, hinput⟩ := h
  exact ⟨⟨source, Arena.get?_push_of_eq_some hsource, houtput⟩,
    target, Arena.get?_push_of_eq_some htarget, hinput⟩

/-- A port that is found is among the ports, even where its position wrapped around. -/
lemma Port.index_position?_lt {ports : Array Port} {portId : String} {position : PortIdx}
    (h : Port.position? ports portId = some position) : position.index < ports.size := by
  unfold Port.position? at h
  obtain ⟨i, hi, rfl⟩ := Option.map_eq_some_iff.1 h
  obtain ⟨hlt, -⟩ := Array.findIdx?_eq_some_iff_getElem.1 hi
  rw [PortIdx.index_ofNat]
  exact Nat.lt_of_le_of_lt (Nat.mod_le _ _) hlt

namespace Draft

/-- The tables of a draft fit together. -/
structure Indexed (d : Draft) : Prop where
  /-- Nodes and execution ids are numbered alike. -/
  numbers : d.exeIds.Numbers (d.nodes.toList.map Node.exeId)
  node_id : ∀ (i : Nat) (node : Node), d.nodes.toList[i]? = some node → node.id = ⟨i⟩
  /-- Ports that do not fit leave a defect. -/
  ports : d.defects = #[] →
    ∀ node ∈ d.nodes.toList, PortsFit node.inputs.toList node.outputs.toList
  edge_id : ∀ (i : Nat) (e : Edge), d.edges.toList[i]? = some e → e.id = ⟨i⟩
  wires_nodup : (d.edges.toList.map Edge.toWire).Nodup
  fits : ∀ e ∈ d.edges.toList, e.toWire.Fits d.nodes
  asserted : d.asserted = .ok ()

theorem indexed_empty : Indexed {} where
  numbers := Interner.numbers_empty
  node_id := by simp [Arena.toList]
  ports := by simp [Arena.toList]
  edge_id := by simp [Arena.toList]
  wires_nodup := List.nodup_nil
  fits := by simp [Arena.toList]
  asserted := rfl

/-- A defect changes nothing but the list of defects and the log. -/
lemma Indexed.addDefect {d : Draft} (h : d.Indexed) (defect : Defect) :
    (d.addDefect defect).Indexed where
  numbers := h.numbers
  node_id := h.node_id
  ports hnone := by simp [Draft.addDefect] at hnone
  edge_id := h.edge_id
  wires_nodup := h.wires_nodup
  fits := h.fits
  asserted := h.asserted

lemma addDefects_eq (defects : List Defect) (d : Draft) :
    (d.addDefects defects).nodes = d.nodes ∧ (d.addDefects defects).edges = d.edges ∧
      (d.addDefects defects).asserted = d.asserted ∧
      (d.addDefects defects).defects = d.defects ++ defects.toArray := by
  induction defects generalizing d with
  | nil => simp [Draft.addDefects]
  | cons defect rest ih =>
    obtain ⟨hnodes, hedges, hasserted, hdefects⟩ := ih (d.addDefect defect)
    refine ⟨hnodes, hedges, hasserted, hdefects.trans ?_⟩
    simp [Draft.addDefect]

/-- A declared node takes the next number, which is also the next one among the execution ids. -/
lemma Indexed.addNode {d : Draft} (h : d.Indexed) (n : NodeDecl) : (d.addNode n).Indexed := by
  unfold Draft.addNode
  cases hfind : d.exeIds.find? n.exeId with
  | some number =>
    rw [Interner.intern_of_find?_eq_some hfind]
    exact h.addDefect _
  | none =>
    rw [Interner.intern_of_find?_eq_none hfind]
    have hsize : d.exeIds.size = d.nodes.toList.length := by
      rw [h.numbers.size_eq, List.length_map]
    obtain ⟨hnodes, hedges, hasserted, hdefects⟩ := addDefects_eq n.portDefects d
    constructor
    case numbers =>
      have hnumbers := h.numbers.append (h.numbers.find?_eq_none_iff.1 hfind)
      simpa [hnodes, Node.ofDecl] using hnumbers
    case node_id =>
      intro i node hi
      simp only [hnodes, Arena.toList_push, List.getElem?_append, List.getElem?_singleton] at hi
      split at hi
      · exact h.node_id i node hi
      · split at hi
        · obtain rfl := Option.some.inj hi
          simp only [Node.ofDecl, hsize, NodeId.mk.injEq]
          omega
        · simp at hi
    case ports =>
      intro hnone node hmem
      simp only [hdefects, Array.append_eq_empty_iff] at hnone
      simp only [hnodes, Arena.toList_push, List.mem_append, List.mem_singleton] at hmem
      rcases hmem with hold | rfl
      · exact h.ports hnone.1 node hold
      · exact n.portDefects_eq_nil_iff.1 (by simpa using hnone.2)
    case edge_id => simpa only [hedges] using h.edge_id
    case wires_nodup => simpa only [hedges] using h.wires_nodup
    case fits =>
      intro e he
      simp only [hedges] at he
      simp only [hnodes]
      exact (h.fits e he).push _
    case asserted =>
      have hnext : (d.addDefects n.portDefects).nodes.nextId = NodeId.ofNat d.exeIds.size := by
        rw [hnodes, Arena.nextId, Arena.size_eq_length, hsize]
        rfl
      exact bind_eq_ok_iff.2 ⟨(), hasserted.trans h.asserted, if_pos hnext⟩

/-- An end that resolves is a port of a node. -/
lemma resolve_eq_ok {d : Draft} {label : String} {side : Side} {e : Endpoint} {id : NodeId}
    {position : PortIdx} (h : d.resolve label side e = .ok (id, position)) :
    ∃ node, d.nodes.get? id = some node ∧ node.find? side e.port = some position := by
  unfold resolve at h
  split at h
  · simp at h
  · split at h
    · simp at h
    · rename_i hfind
      obtain ⟨rfl, rfl⟩ : _ = id ∧ _ = position := by simpa using h
      exact Option.bind_eq_some_iff.1 hfind

/-- A wire that is there already adds nothing; any other takes the next number. -/
lemma Indexed.addWire {d : Draft} (h : d.Indexed) (label : String) {w : Wire}
    (hw : w.Fits d.nodes) : (d.addWire label w).Indexed := by
  unfold Draft.addWire
  split
  · exact { h with }
  · rename_i hnew
    refine { h with edge_id := ?_, wires_nodup := ?_, fits := ?_ }
    · intro i e hi
      simp only [Arena.toList_push, List.getElem?_append, List.getElem?_singleton] at hi
      split at hi
      · exact h.edge_id i e hi
      · split at hi
        · obtain rfl := Option.some.inj hi
          simp only [Arena.size_eq_length, EdgeId.mk.injEq]
          omega
        · simp at hi
    · have hfresh : w ∉ d.edges.toList.map Edge.toWire := by
        rw [Array.any_eq_true'] at hnew
        simpa [Arena.toList] using hnew
      simp only [Arena.toList_push, List.map_append, List.map_cons, List.map_nil]
      rw [List.nodup_append_comm]
      exact List.nodup_cons.2 ⟨hfresh, h.wires_nodup⟩
    · intro e he
      rw [Arena.toList_push, List.mem_append, List.mem_singleton] at he
      rcases he with hold | rfl
      · exact h.fits e hold
      · exact hw

lemma Indexed.connect {d : Draft} (h : d.Indexed) (c : Connection) : (d.connect c).Indexed := by
  unfold Draft.connect
  split
  · rename_i hsource htarget
    obtain ⟨source, hsource, houtput⟩ := resolve_eq_ok hsource
    obtain ⟨target, htarget, hinput⟩ := resolve_eq_ok htarget
    exact h.addWire _ ⟨⟨source, hsource, Port.index_position?_lt houtput⟩,
      target, htarget, Port.index_position?_lt hinput⟩
  · exact h.addDefect _
  · exact h.addDefect _
  · exact (h.addDefect _).addDefect _

/-- The tables of a draft fit together, whatever is declared. -/
theorem indexed_ofWorkflow (w : Workflow) : (ofWorkflow w).Indexed := by
  have hnodes : (w.nodes.foldl Draft.addNode {}).Indexed :=
    List.foldlRecOn w.nodes Draft.addNode indexed_empty fun _ h n _ => h.addNode n
  exact List.foldlRecOn w.connections Draft.connect hnodes fun _ h c _ => h.connect c

/-- Where the assertions hold, the verdict on the defects decides whether there is a graph. -/
lemma graph_eq_map {d : Draft} (hasserted : d.asserted = .ok ()) :
    d.graph = (Defects.verdict d.defects.toList).map fun _ =>
      ⟨d.nodes, d.edges, d.exeIds, .ofEdges d.nodes.toList d.edges.toList⟩ := by
  rw [graph, hasserted]
  cases Defects.verdict d.defects.toList <;> rfl

end Draft

/-- The tables of a graph fit together. -/
structure Graph.WellFormed (g : Graph) : Prop where
  numbers : g.exeIds.Numbers (g.nodes.toList.map Node.exeId)
  node_id : ∀ (i : Nat) (node : Node), g.nodes.toList[i]? = some node → node.id = ⟨i⟩
  ports : ∀ node ∈ g.nodes.toList, PortsFit node.inputs.toList node.outputs.toList
  edge_id : ∀ (i : Nat) (e : Edge), g.edges.toList[i]? = some e → e.id = ⟨i⟩
  wires_nodup : (g.edges.toList.map Edge.toWire).Nodup
  fits : ∀ e ∈ g.edges.toList, e.toWire.Fits g.nodes
  wiring : g.wiring = .ofEdges g.nodes.toList g.edges.toList

/-- Every graph that is built from a workflow is well-formed. -/
theorem Graph.wellFormed_ofWorkflow {w : Workflow} {g : Graph} (h : Graph.ofWorkflow w = .ok g) :
    g.WellFormed := by
  have hd := Draft.indexed_ofWorkflow w
  rw [Graph.ofWorkflow, Draft.graph_eq_map hd.asserted, map_eq_ok_iff] at h
  obtain ⟨_, hverdict, rfl⟩ := h
  have hnone : (Draft.ofWorkflow w).defects = #[] := by
    simpa using Defects.verdict_eq_ok_iff.1 hverdict
  exact { hd with ports := hd.ports hnone, wiring := rfl }

/-- A loop within a loop: the worker is in the loop of the inner driver, which is in the loop of the
outer driver. -/
def Workflow.nestedLoops : Workflow where
  nodes := [
    { exeId := "work", inputs := [⟨"i", "in"⟩], outputs := [⟨"o", "out"⟩] },
    { exeId := "inner", inputs := [⟨"i", "in"⟩], outputs := [⟨"o", "out"⟩], isDriver := true },
    { exeId := "outer", inputs := [⟨"i", "in"⟩], outputs := [⟨"o", "out"⟩], isDriver := true }]
  connections := [
    ⟨⟨"work", "o", .same⟩, ⟨"inner", "i", .same⟩⟩,
    ⟨⟨"inner", "o", .same⟩, ⟨"work", "i", .same⟩⟩,
    ⟨⟨"inner", "o", .outer⟩, ⟨"outer", "i", .same⟩⟩,
    ⟨⟨"outer", "o", .same⟩, ⟨"inner", "i", .outer⟩⟩]

/-- The graph of the loop within a loop. -/
def Graph.nestedLoops : Graph :=
  match Graph.ofWorkflow .nestedLoops with
  | .ok g => g
  | .error _ => ⟨{}, {}, {}, {}⟩

/-- A result that is there is the result. -/
lemma exists_ok_of_isOk {ε α : Type} {x : Except ε α} (h : x.isOk = true) : ∃ a, x = .ok a := by
  cases x with
  | ok a => exact ⟨a, rfl⟩
  | error e => cases h

theorem Graph.ofWorkflow_nestedLoops : Graph.ofWorkflow .nestedLoops = .ok .nestedLoops := by
  obtain ⟨g, hg⟩ := exists_ok_of_isOk (x := Graph.ofWorkflow .nestedLoops) (by decide +kernel)
  rw [Graph.nestedLoops, hg]

/-- One loop of two drivers, with two workers on the way from the first to the second. -/
def Workflow.sharedLoop : Workflow where
  nodes := [
    { exeId := "first", inputs := [⟨"i", "in"⟩], outputs := [⟨"o", "out"⟩], isDriver := true },
    { exeId := "work", inputs := [⟨"i", "in"⟩], outputs := [⟨"o", "out"⟩] },
    { exeId := "check", inputs := [⟨"i", "in"⟩], outputs := [⟨"o", "out"⟩] },
    { exeId := "second", inputs := [⟨"i", "in"⟩], outputs := [⟨"o", "out"⟩], isDriver := true }]
  connections := [
    ⟨⟨"first", "o", .same⟩, ⟨"work", "i", .same⟩⟩,
    ⟨⟨"work", "o", .same⟩, ⟨"check", "i", .same⟩⟩,
    ⟨⟨"check", "o", .same⟩, ⟨"second", "i", .same⟩⟩,
    ⟨⟨"second", "o", .same⟩, ⟨"first", "i", .same⟩⟩]

/-- The graph of the loop of two drivers. -/
def Graph.sharedLoop : Graph :=
  match Graph.ofWorkflow .sharedLoop with
  | .ok g => g
  | .error _ => ⟨{}, {}, {}, {}⟩

theorem Graph.ofWorkflow_sharedLoop : Graph.ofWorkflow .sharedLoop = .ok .sharedLoop := by
  obtain ⟨g, hg⟩ := exists_ok_of_isOk (x := Graph.ofWorkflow .sharedLoop) (by decide +kernel)
  rw [Graph.sharedLoop, hg]

end WorkflowLoops

import Mathlib.Data.List.Nodup
import WorkflowLoops.Proofs.Graph.Construction
import WorkflowLoops.Proofs.Graph.Wiring
import WorkflowLoops.Walk.Rules

/-!
# Looking things up in a well-formed graph

In a well-formed graph every lookup that a walk makes has a result, and the edges that leave an
output or a node are told by the edge table alone. So a walk only ever goes on along edges of the
graph, from a node that is there to a node that is there.
-/

namespace WorkflowLoops.Graph

/-- Whether a walk goes on along an edge from a spot. -/
def GoesOn (g : Graph) (w : Walk) (spot : Spot) (e : Edge) : Prop :=
  ∃ next, g.nextEdges w spot = .ok next ∧ e ∈ next

/-- Whether a walk from a node takes an edge out of one of its outputs. -/
def Opens (g : Graph) (w : Walk) (start : NodeId) (output : PortIdx) (e : Edge) : Prop :=
  e ∈ g.edges.toList ∧ e.source = start ∧ e.output = output ∧
    ∃ kind, g.kind start = .ok kind ∧ w.follows kind .start e.sourceRole = true

/-- The position of an edge among all edges that leave its node. -/
def position (g : Graph) (e : Edge) : Nat := (g.leaving e.source).idxOf e

/-- The edges that a walk goes on along from a spot; none if there is no such node. -/
def onward (g : Graph) (w : Walk) (spot : Spot) : List Edge :=
  match g.nextEdges w spot with
  | .ok next => next
  | .error _ => []

/-- Whether a node takes part in two loop levels without controlling a loop. -/
def isController (g : Graph) (id : NodeId) : Bool :=
  match g.kind id with
  | .ok .controller => true
  | _ => false

/-- Whether an edge enters the loop of a driver. -/
def isLoopEntry (g : Graph) (e : Edge) : Bool :=
  match g.entersLoop e with
  | .ok enters => enters
  | .error _ => false

theorem mem_onward_iff {g : Graph} {w : Walk} {spot : Spot} {e : Edge} :
    e ∈ g.onward w spot ↔ g.GoesOn w spot e := by
  unfold onward GoesOn
  cases g.nextEdges w spot <;> simp

theorem isLoopEntry_iff {g : Graph} {e : Edge} :
    g.isLoopEntry e = true ↔ g.entersLoop e = .ok true := by
  unfold isLoopEntry
  cases g.entersLoop e <;> simp

/-! ## Nodes -/

theorem nodeAt_eq_ok_iff {g : Graph} {id : NodeId} {node : Node} :
    g.nodeAt id = .ok node ↔ g.nodes.toList[id.index]? = some node := by
  rw [nodeAt, orFault_eq_ok_iff, Arena.get?_eq_getElem?]
  rfl

/-- That a node is not there is a fault. -/
theorem eq_fault_of_nodeAt {g : Graph} {id : NodeId} {err : Error} (h : g.nodeAt id = .error err) :
    err = .fault (.noNode id) := by
  unfold nodeAt at h
  cases hget : g.nodes.get? id with
  | none =>
    rw [hget, orFault_none] at h
    exact (Except.error.inj h).symm
  | some node =>
    rw [hget, orFault_some] at h
    cases h

/-- That no node has an execution id is an answer. -/
theorem eq_nodeNotFound_of_nodeId {g : Graph} {exeId : String} {err : Error}
    (h : g.nodeId exeId = .error err) : err = .nodeNotFound exeId := by
  unfold nodeId at h
  cases hfind : g.exeIds.find? exeId with
  | none =>
    rw [hfind] at h
    exact (Except.error.inj h).symm
  | some number =>
    rw [hfind] at h
    cases h

theorem kind_of_nodeAt {g : Graph} {id : NodeId} {node : Node} (h : g.nodeAt id = .ok node) :
    g.kind id = .ok (node.kindOf ((g.leaving id).map (·.sourceRole))) := by
  rw [kind, h]
  rfl

/-- A node is a driver by its kind exactly if it is declared as one. -/
theorem kind_eq_driver_iff {g : Graph} {id : NodeId} {node : Node} (h : g.nodeAt id = .ok node) :
    g.kind id = .ok .driver ↔ node.isDriver = true := by
  rw [kind_of_nodeAt h, Node.kindOf, Except.ok.injEq]
  cases node.isDriver with
  | true => simp
  | false =>
    simp only [Bool.false_eq_true, if_false, iff_false]
    split <;> simp

theorem entersLoop_of_nodeAt {g : Graph} {e : Edge} {node : Node}
    (h : g.nodeAt e.target = .ok node) :
    g.entersLoop e = .ok (node.isDriver && e.targetRole == .same) := by
  rw [entersLoop, h]
  rfl

/-- The loop of a driver is entered on the level of its body. -/
theorem entersLoop_eq_true_iff {g : Graph} {e : Edge} :
    g.entersLoop e = .ok true ↔ g.kind e.target = .ok .driver ∧ e.targetRole = .same := by
  cases hnode : g.nodeAt e.target with
  | error err =>
    have hkind : g.kind e.target = .error err := by rw [kind, hnode]; rfl
    rw [entersLoop, hnode, hkind]
    simp [bind, Except.bind]
  | ok node =>
    rw [entersLoop_of_nodeAt hnode, kind_eq_driver_iff hnode]
    simp

theorem isController_iff {g : Graph} {id : NodeId} :
    g.isController id = true ↔ g.kind id = .ok .controller := by
  unfold isController
  split
  · rename_i h; simp [h]
  · rename_i h
    simp only [Bool.false_eq_true, false_iff]
    exact h

theorem nextEdges_of_kind {g : Graph} {w : Walk} {spot : Spot} {kind : NodeKind}
    (h : g.kind spot.node = .ok kind) :
    g.nextEdges w spot
      = .ok ((g.leaving spot.node).filter fun e => w.follows kind spot.arrival e.sourceRole) := by
  rw [nextEdges, h]
  rfl

/-- A walk goes on along the edges that leave the node in a role that it follows there. -/
theorem goesOn_iff {g : Graph} {w : Walk} {spot : Spot} {e : Edge} :
    g.GoesOn w spot e ↔
      ∃ kind, g.kind spot.node = .ok kind ∧ e ∈ g.leaving spot.node ∧
        w.follows kind spot.arrival e.sourceRole = true := by
  rw [GoesOn, nextEdges]
  cases g.kind spot.node with
  | error err => simp [bind, Except.bind]
  | ok kind => simp [bind, Except.bind, pure, Except.pure]

namespace WellFormed

variable {g : Graph}

theorem id_of_nodeAt (hg : g.WellFormed) {id : NodeId} {node : Node} (h : g.nodeAt id = .ok node) :
    node.id = id :=
  hg.node_id id.index node (nodeAt_eq_ok_iff.1 h)

theorem portsFit_of_nodeAt (hg : g.WellFormed) {id : NodeId} {node : Node}
    (h : g.nodeAt id = .ok node) : PortsFit node.inputs.toList node.outputs.toList :=
  hg.ports node (List.mem_of_getElem? (nodeAt_eq_ok_iff.1 h))

theorem exists_source (hg : g.WellFormed) {e : Edge} (he : e ∈ g.edges.toList) :
    ∃ node, g.nodeAt e.source = .ok node ∧ e.output.index < node.outputs.size := by
  obtain ⟨⟨node, hnode, houtput⟩, -⟩ := hg.fits e he
  exact ⟨node, orFault_eq_ok_iff.2 hnode, houtput⟩

theorem exists_target (hg : g.WellFormed) {e : Edge} (he : e ∈ g.edges.toList) :
    ∃ node, g.nodeAt e.target = .ok node ∧ e.input.index < node.inputs.size := by
  obtain ⟨-, node, hnode, hinput⟩ := hg.fits e he
  exact ⟨node, orFault_eq_ok_iff.2 hnode, hinput⟩

/-! ## Execution ids -/

theorem exeIdAt_of_nodeAt (hg : g.WellFormed) {id : NodeId} {node : Node}
    (h : g.nodeAt id = .ok node) : g.exeIdAt id = .ok node.exeId := by
  rw [exeIdAt, orFault_eq_ok_iff, hg.numbers.text?_eq, List.getElem?_map, nodeAt_eq_ok_iff.1 h]
  rfl

theorem exists_nodeAt_of_exeIdAt (hg : g.WellFormed) {id : NodeId} {exeId : String}
    (h : g.exeIdAt id = .ok exeId) : ∃ node, g.nodeAt id = .ok node ∧ node.exeId = exeId := by
  rw [exeIdAt, orFault_eq_ok_iff, hg.numbers.text?_eq, List.getElem?_map,
    Option.map_eq_some_iff] at h
  obtain ⟨node, hnode, hexeId⟩ := h
  exact ⟨node, nodeAt_eq_ok_iff.2 hnode, hexeId⟩

/-- Looking up an execution id finds the node that has it. -/
theorem nodeId_eq_ok_iff (hg : g.WellFormed) {id : NodeId} {exeId : String} :
    g.nodeId exeId = .ok id ↔ g.exeIdAt id = .ok exeId := by
  rw [exeIdAt, orFault_eq_ok_iff, ← hg.numbers.find?_iff_text?, nodeId]
  cases g.exeIds.find? exeId with
  | none => simp
  | some number =>
    obtain ⟨index⟩ := id
    simp

/-- A node that is found by an execution id is there, and has it. -/
theorem exists_nodeAt_of_nodeId (hg : g.WellFormed) {id : NodeId} {exeId : String}
    (h : g.nodeId exeId = .ok id) : ∃ node, g.nodeAt id = .ok node ∧ node.exeId = exeId :=
  hg.exists_nodeAt_of_exeIdAt (hg.nodeId_eq_ok_iff.1 h)

/-! ## Edges -/

/-- An edge is found under its number. -/
lemma getElem?_edge_id (hg : g.WellFormed) {e : Edge} (he : e ∈ g.edges.toList) :
    g.edges.toList[e.id.index]? = some e := by
  obtain ⟨i, hi⟩ := List.mem_iff_getElem?.1 he
  rwa [hg.edge_id i e hi]

theorem edgeAt_eq_ok (hg : g.WellFormed) {e : Edge} (he : e ∈ g.edges.toList) :
    g.edgeAt e.id = .ok e := by
  rw [edgeAt, orFault_eq_ok_iff, Arena.get?_eq_getElem?]
  exact hg.getElem?_edge_id he

/-- The hops along a walk tell its edges. -/
theorem eq_of_map_hop (hg : g.WellFormed) {v w : List Edge} (hv : ∀ e ∈ v, e ∈ g.edges.toList)
    (hw : ∀ e ∈ w, e ∈ g.edges.toList) (h : v.map Edge.hop = w.map Edge.hop) : v = w := by
  have hread : ∀ u : List Edge, (∀ e ∈ u, e ∈ g.edges.toList) →
      (u.map Edge.hop).map (fun hop => g.edges.toList[hop.edge.index]?) = u.map some := by
    intro u hu
    rw [List.map_map]
    exact List.map_congr_left fun e he => hg.getElem?_edge_id (hu e he)
  have hsome : v.map some = w.map some := by rw [← hread v hv, ← hread w hw, h]
  exact List.map_injective_iff.2 (fun _ _ => Option.some.inj) hsome

theorem edges_nodup (hg : g.WellFormed) : g.edges.toList.Nodup := hg.wires_nodup.of_map

lemma shape_wiring (hg : g.WellFormed) (id : NodeId) :
    g.wiring.shape[id.index]? = (g.nodes.toList[id.index]?).map fun node => node.outputs.size := by
  rw [hg.wiring, Wiring.ofEdges, Wiring.shape_foldl_connect, Wiring.shape_blank]
  simp

/-- The edges that leave an output are those that say so, in the order of their numbers. -/
theorem outgoing_eq_filter (hg : g.WellFormed) (id : NodeId) (output : PortIdx) :
    g.outgoing id output
      = g.edges.toList.filter fun e => e.source = id ∧ e.output = output := by
  rw [outgoing, hg.wiring]
  refine Wiring.outgoing_ofEdges (fun e he => ?_) id output
  obtain ⟨node, hnode, houtput⟩ := hg.exists_source he
  refine ⟨node.outputs.size, ?_, houtput⟩
  rw [Wiring.shape_blank]
  simp [nodeAt_eq_ok_iff.1 hnode]

theorem mem_outgoing_iff (hg : g.WellFormed) {id : NodeId} {output : PortIdx} {e : Edge} :
    e ∈ g.outgoing id output ↔ e ∈ g.edges.toList ∧ e.source = id ∧ e.output = output := by
  simp [hg.outgoing_eq_filter]

/-- The edges that leave a node are those of its outputs, in the order of the outputs. -/
theorem leaving_eq_flatMap (hg : g.WellFormed) {id : NodeId} {node : Node}
    (h : g.nodeAt id = .ok node) :
    g.leaving id = (List.range node.outputs.size).flatMap fun i => g.outgoing id ⟨i⟩ := by
  refine Wiring.leaving_eq_flatMap ?_
  rw [hg.shape_wiring, nodeAt_eq_ok_iff.1 h]
  rfl

/-- The edges that leave a node are those that say so. -/
theorem mem_leaving_iff (hg : g.WellFormed) {id : NodeId} {e : Edge} :
    e ∈ g.leaving id ↔ e ∈ g.edges.toList ∧ e.source = id := by
  cases h : g.nodes.toList[id.index]? with
  | none =>
    have hnil : g.leaving id = [] :=
      Wiring.leaving_eq_nil (by rw [hg.shape_wiring, h]; rfl)
    rw [hnil]
    refine iff_of_false List.not_mem_nil ?_
    rintro ⟨he, rfl⟩
    obtain ⟨node, hnode, -⟩ := hg.exists_source he
    simp [nodeAt_eq_ok_iff.1 hnode] at h
  | some node =>
    rw [hg.leaving_eq_flatMap (nodeAt_eq_ok_iff.2 h)]
    simp only [List.mem_flatMap, List.mem_range, hg.mem_outgoing_iff]
    constructor
    · rintro ⟨_, -, he, hsource, -⟩
      exact ⟨he, hsource⟩
    · rintro ⟨he, hsource⟩
      obtain ⟨node', hnode', houtput⟩ := hg.exists_source he
      rw [hsource, nodeAt_eq_ok_iff, h] at hnode'
      obtain rfl := Option.some.inj hnode'
      exact ⟨e.output.index, houtput, he, hsource, rfl⟩

lemma outgoing_nodup (hg : g.WellFormed) (id : NodeId) (output : PortIdx) :
    (g.outgoing id output).Nodup := by
  rw [hg.outgoing_eq_filter]
  exact hg.edges_nodup.filter _

theorem leaving_nodup (hg : g.WellFormed) {id : NodeId} {node : Node}
    (h : g.nodeAt id = .ok node) : (g.leaving id).Nodup := by
  rw [hg.leaving_eq_flatMap h, List.nodup_flatMap]
  refine ⟨fun i _ => hg.outgoing_nodup id ⟨i⟩, ?_⟩
  refine (List.nodup_range).imp fun {i j} hij e hi hj => hij ?_
  -- an edge leaves one output only
  have houtput := (hg.mem_outgoing_iff.1 hi).2.2.symm.trans (hg.mem_outgoing_iff.1 hj).2.2
  exact congrArg PortIdx.index houtput

/-- The edges of one output stand among those of its node in the same order. -/
theorem outgoing_sublist_leaving (hg : g.WellFormed) {id : NodeId} {node : Node}
    (h : g.nodeAt id = .ok node) {i : Nat} (hi : i < node.outputs.size) :
    (g.outgoing id ⟨i⟩).Sublist (g.leaving id) := by
  rw [hg.leaving_eq_flatMap h, List.flatMap_def]
  exact List.sublist_flatten_of_mem (List.mem_map.2 ⟨i, List.mem_range.2 hi, rfl⟩)

/-- Edges that leave a node stand in the order of their positions. -/
theorem pairwise_position (hg : g.WellFormed) {id : NodeId} {node : Node}
    (h : g.nodeAt id = .ok node) {l : List Edge} (hl : l.Sublist (g.leaving id)) :
    l.Pairwise fun e f => g.position e < g.position f := by
  refine List.Pairwise.sublist hl (List.pairwise_iff_getElem.2 fun i j hi hj hij => ?_)
  have hposition : ∀ k (hk : k < (g.leaving id).length), g.position (g.leaving id)[k] = k := by
    intro k hk
    have hsource := (hg.mem_leaving_iff.1 (List.getElem_mem hk)).2
    rw [position, hsource, (hg.leaving_nodup h).idxOf_getElem]
  rw [hposition i hi, hposition j hj]
  exact hij

/-! ## Walks -/

/-- A walk from a node takes the edges out of an output that open it, in their order. -/
theorem exists_opening (hg : g.WellFormed) {w : Walk} {start : NodeId} {node : Node}
    {openings : List (String × List Edge)} (hnode : g.nodeAt start = .ok node)
    (hopenings : g.openings w start = .ok openings) {i : Nat} {port : Port}
    (hport : node.outputs[i]? = some port) :
    ∃ first, openings[i]? = some (port.name, first) ∧
      (∀ e, e ∈ first ↔ g.Opens w start ⟨i⟩ e) ∧
      first.Pairwise fun e f => g.position e < g.position f := by
  have hkind := kind_of_nodeAt hnode
  have hi : i < node.outputs.size := (Array.getElem?_eq_some_iff.1 hport).1
  -- a port that is there has a position that fits into its bits
  have hofNat : PortIdx.ofNat i = ⟨i⟩ := by
    have hfits := (hg.portsFit_of_nodeAt hnode).outputs_le
    rw [Array.length_toList] at hfits
    exact congrArg PortIdx.mk (PortIdx.index_ofNat_of_lt (Nat.lt_of_lt_of_le hi hfits))
  unfold Graph.openings at hopenings
  rw [hnode, hkind] at hopenings
  obtain rfl := Except.ok.inj hopenings
  refine ⟨(g.outgoing start ⟨i⟩).filter fun e =>
    w.follows (node.kindOf ((g.leaving start).map (·.sourceRole))) .start e.sourceRole, ?_, ?_, ?_⟩
  · rw [List.getElem?_map, List.getElem?_zipIdx, Array.getElem?_toList, hport]
    simp [hofNat]
  · intro e
    rw [List.mem_filter, hg.mem_outgoing_iff, Opens, hkind]
    simp [and_assoc]
  · refine hg.pairwise_position hnode ?_
    exact List.filter_sublist.trans (hg.outgoing_sublist_leaving hnode hi)

theorem map_fst_openings {w : Walk} {start : NodeId} {node : Node}
    {openings : List (String × List Edge)} (hnode : g.nodeAt start = .ok node)
    (hopenings : g.openings w start = .ok openings) :
    openings.map Prod.fst = node.outputs.toList.map Port.name := by
  unfold Graph.openings at hopenings
  rw [hnode, kind_of_nodeAt hnode] at hopenings
  obtain rfl := Except.ok.inj hopenings
  apply List.ext_getElem?
  intro i
  simp only [List.getElem?_map, List.getElem?_zipIdx]
  cases node.outputs.toList[i]? <;> rfl

/-- The openings of a node that is there are there. -/
theorem exists_openings (w : Walk) {start : NodeId} {node : Node} (hnode : g.nodeAt start = .ok node) :
    ∃ openings, g.openings w start = .ok openings :=
  ⟨_, bind_eq_ok_iff.2 ⟨node, hnode, bind_eq_ok_iff.2 ⟨_, kind_of_nodeAt hnode, rfl⟩⟩⟩

/-- Every opening is that of an output. -/
theorem exists_output_of_mem_openings (hg : g.WellFormed) {w : Walk} {start : NodeId} {node : Node}
    {openings : List (String × List Edge)} (hnode : g.nodeAt start = .ok node)
    (hopenings : g.openings w start = .ok openings) {opening : String × List Edge}
    (hmem : opening ∈ openings) : ∃ output, ∀ e ∈ opening.2, g.Opens w start output e := by
  obtain ⟨i, hi⟩ := List.mem_iff_getElem?.1 hmem
  -- there are as many openings as outputs
  have hname : node.outputs.toList[i]?.map Port.name = some opening.1 := by
    rw [← List.getElem?_map, ← map_fst_openings hnode hopenings, List.getElem?_map, hi]
    rfl
  obtain ⟨port, hport, -⟩ := Option.map_eq_some_iff.1 hname
  rw [Array.getElem?_toList] at hport
  obtain ⟨first, hfirst, hopens, -⟩ := hg.exists_opening hnode hopenings hport
  obtain rfl := Option.some.inj (hi.symm.trans hfirst)
  exact ⟨⟨i⟩, fun e he => (hopens e).1 he⟩

theorem openings_subset (hg : g.WellFormed) {walk : Walk} {start : NodeId} {node : Node}
    {openings : List (String × List Edge)} (hnode : g.nodeAt start = .ok node)
    (hopenings : g.openings walk start = .ok openings) :
    ∀ opening ∈ openings, opening.2 ⊆ g.edges.toList := by
  intro opening hmem e he
  obtain ⟨output, hopens⟩ := hg.exists_output_of_mem_openings hnode hopenings hmem
  exact (hopens e he).1

/-- What opens a walk leaves an output that is there. -/
theorem exists_port_of_opens (hg : g.WellFormed) {w : Walk} {start : NodeId} {node : Node}
    {output : PortIdx} {e : Edge} (hnode : g.nodeAt start = .ok node)
    (h : g.Opens w start output e) : ∃ port, node.outputs[output.index]? = some port := by
  obtain ⟨hthere, hsource, houtput, -⟩ := h
  obtain ⟨node', hnode', hindex⟩ := hg.exists_source hthere
  rw [hsource, hnode] at hnode'
  obtain rfl := Except.ok.inj hnode'
  rw [houtput] at hindex
  exact ⟨_, Array.getElem?_eq_getElem hindex⟩

/-- From its start a walk goes on along the edges that open it. -/
theorem goesOn_start_iff (hg : g.WellFormed) {w : Walk} {start : NodeId} {e : Edge} :
    g.GoesOn w ⟨start, .start⟩ e ↔ ∃ output, g.Opens w start output e := by
  rw [goesOn_iff]
  constructor
  · rintro ⟨kind, hkind, hleaving, hfollows⟩
    obtain ⟨hthere, hsource⟩ := hg.mem_leaving_iff.1 hleaving
    exact ⟨e.output, hthere, hsource, rfl, kind, hkind, hfollows⟩
  · rintro ⟨output, hthere, hsource, -, kind, hkind, hfollows⟩
    exact ⟨kind, hkind, hg.mem_leaving_iff.2 ⟨hthere, hsource⟩, hfollows⟩

/-- Where a walk goes on, the node and the edges are there. -/
theorem goesOn_mem_edges (hg : g.WellFormed) {w : Walk} {spot : Spot} {e : Edge}
    (h : g.GoesOn w spot e) : e ∈ g.edges.toList ∧ e.source = spot.node := by
  obtain ⟨next, hnext, he⟩ := h
  obtain ⟨kind, hkind, hpure⟩ := bind_eq_ok_iff.1 hnext
  obtain rfl := Except.ok.inj hpure
  exact hg.mem_leaving_iff.1 (List.mem_of_mem_filter he)

theorem pairwise_onward (hg : g.WellFormed) {w : Walk} (spot : Spot) :
    (g.onward w spot).Pairwise fun e f => g.position e < g.position f := by
  unfold onward
  split
  · rename_i next hnext
    obtain ⟨kind, hkind, hpure⟩ := bind_eq_ok_iff.1 hnext
    obtain rfl := Except.ok.inj hpure
    obtain ⟨node, hnode, -⟩ := bind_eq_ok_iff.1 hkind
    exact hg.pairwise_position hnode List.filter_sublist
  · exact .nil

theorem exists_kind_target (hg : g.WellFormed) {e : Edge} (he : e ∈ g.edges.toList) :
    ∃ kind, g.kind e.target = .ok kind := by
  obtain ⟨node, hnode, -⟩ := hg.exists_target he
  exact ⟨_, kind_of_nodeAt hnode⟩

/-- After an edge of the graph a walk has an answer to where it goes on. -/
theorem nextEdges_after (hg : g.WellFormed) (w : Walk) {e : Edge} (he : e ∈ g.edges.toList) :
    g.nextEdges w (.after e) = .ok (g.onward w (.after e)) := by
  obtain ⟨kind, hkind⟩ := hg.exists_kind_target he
  have hthere : g.kind (Spot.after e).node = .ok kind := hkind
  rw [onward, nextEdges_of_kind hthere]

theorem exists_entersLoop (hg : g.WellFormed) {e : Edge} (he : e ∈ g.edges.toList) :
    ∃ enters, g.entersLoop e = .ok enters := by
  obtain ⟨node, hnode, -⟩ := hg.exists_target he
  exact ⟨_, entersLoop_of_nodeAt hnode⟩

end WellFormed

end WorkflowLoops.Graph

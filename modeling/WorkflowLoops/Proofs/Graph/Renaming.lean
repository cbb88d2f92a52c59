import Mathlib
import WorkflowLoops.Proofs.Graph.Image

/-!
# Renamings of graphs

Workflows that differ by the order of their declarations only have graphs that differ by the numbers of
nodes, ports and edges only. A `Renaming` takes nodes and edges of one graph to those of another one
that carry the same execution ids and read as the same connections. It keeps all that walking goes by:
kinds of nodes, roles, and which edge leaves and enters which node. So wherever a walk goes on in the
one graph, it goes on in the other one along the renamed edge (`Renaming.goesOn`).

There is a renaming in both directions (`exists_renaming`), and going there and back changes nothing
(`Renaming.edge_edge`). That is why lemmas here say one direction only.
-/

namespace WorkflowLoops

/-! ## Orders of declarations -/

/-- Whether two declarations of a node differ by the order of the ports only. -/
structure NodeDecl.Reordered (n n' : NodeDecl) : Prop where
  exeId : n.exeId = n'.exeId
  name : n.name = n'.name
  isDriver : n.isDriver = n'.isDriver
  ports : ∀ side, (n.ports side).Perm (n'.ports side)

/-- Whether two workflows differ by the order of their declarations only: that of nodes, of ports on a
side of a node, and of connections. -/
structure Workflow.Reordered (w w' : Workflow) : Prop where
  nodes : ∃ nodes, w.nodes.Perm nodes ∧ List.Forall₂ NodeDecl.Reordered nodes w'.nodes
  connections : w.connections.Perm w'.connections

lemma NodeDecl.Reordered.symm {n n' : NodeDecl} (h : n.Reordered n') : n'.Reordered n where
  exeId := h.exeId.symm
  name := h.name.symm
  isDriver := h.isDriver.symm
  ports side := (h.ports side).symm

lemma Workflow.Reordered.symm {w w' : Workflow} (h : w.Reordered w') : w'.Reordered w where
  nodes := by
    obtain ⟨nodes, hperm, hnodes⟩ := h.nodes
    have hback : List.Forall₂ NodeDecl.Reordered w'.nodes nodes :=
      List.Forall₂.flip (hnodes.imp fun _ _ => NodeDecl.Reordered.symm)
    have hcomp : Relation.Comp (List.Forall₂ NodeDecl.Reordered) List.Perm w'.nodes w.nodes :=
      ⟨nodes, hback, hperm.symm⟩
    rwa [List.forall₂_comp_perm_eq_perm_comp_forall₂] at hcomp
  connections := h.connections.symm

/-- A declared node is declared in every other order. -/
lemma Workflow.Reordered.exists_node {w w' : Workflow} (h : w.Reordered w') {n : NodeDecl}
    (hn : n ∈ w.nodes) : ∃ n' ∈ w'.nodes, n.Reordered n' := by
  obtain ⟨nodes, hperm, hnodes⟩ := h.nodes
  exact exists_right_of_mem hnodes (hperm.mem_iff.1 hn)

lemma Workflow.Reordered.length_nodes {w w' : Workflow} (h : w.Reordered w') :
    w.nodes.length = w'.nodes.length := by
  obtain ⟨nodes, hperm, hnodes⟩ := h.nodes
  rw [hperm.length_eq, hnodes.length_eq]

/-- Whether two nodes differ by their numbers and the order of their ports only. -/
structure Node.Reordered (n n' : Node) : Prop where
  exeId : n.exeId = n'.exeId
  isDriver : n.isDriver = n'.isDriver
  ports : ∀ side, (n.ports side).toList.Perm (n'.ports side).toList

lemma Node.reordered_ofDecl {n n' : NodeDecl} (h : n.Reordered n') (id id' : NodeId) :
    (Node.ofDecl id n).Reordered (Node.ofDecl id' n') where
  exeId := h.exeId
  isDriver := h.isDriver
  ports side := by
    have hports := h.ports side
    cases side <;> exact hports

namespace Graph

/-! ## Renamings -/

/-- Nodes and edges of another graph for those of a graph. -/
structure Renaming (g g' : Graph) where
  node : NodeId → NodeId
  edge : Edge → Edge
  nodeAt : ∀ {id : NodeId} {n : Node}, g.nodeAt id = .ok n →
    ∃ n', g'.nodeAt (node id) = .ok n' ∧ n.Reordered n'
  mem : ∀ {e : Edge}, e ∈ g.edges.toList → edge e ∈ g'.edges.toList
  reads : ∀ {e : Edge} {c : Connection}, e ∈ g.edges.toList → e.toWire.Reads g.nodes c →
    (edge e).toWire.Reads g'.nodes c
  nodeCount : g.nodeCount = g'.nodeCount

/-- The graphs of workflows that differ by the order of their declarations only can be renamed. -/
theorem exists_renaming {w w' : Workflow} {g g' : Graph} (h : w.Reordered w')
    (hg : Graph.ofWorkflow w = .ok g) (hg' : Graph.ofWorkflow w' = .ok g') :
    Nonempty (Renaming g g') := by
  have hnode : ∀ id, ∃ id', ∀ n, g.nodeAt id = .ok n →
      ∃ n', g'.nodeAt id' = .ok n' ∧ n.Reordered n' := by
    intro id
    cases hid : g.nodeAt id with
    | error err => exact ⟨id, by simp⟩
    | ok node =>
      obtain ⟨n, hn, rfl⟩ := (nodeAt_of_ofWorkflow hg).1 hid
      obtain ⟨n', hn', hsame⟩ := h.exists_node (List.mem_of_getElem? hn)
      obtain ⟨i, hi⟩ := List.mem_iff_getElem?.1 hn'
      refine ⟨⟨i⟩, fun node hnode => ⟨_, (nodeAt_of_ofWorkflow hg').2 ⟨n', hi, rfl⟩, ?_⟩⟩
      obtain rfl := Except.ok.inj hnode
      exact Node.reordered_ofDecl hsame _ _
  have hedge : ∀ e, ∃ e', e ∈ g.edges.toList →
      e' ∈ g'.edges.toList ∧ ∃ c, e.toWire.Reads g.nodes c ∧ e'.toWire.Reads g'.nodes c := by
    intro e
    by_cases he : e ∈ g.edges.toList
    · obtain ⟨c, hc, hreads⟩ := exists_right_of_mem (forall₂_reads_of_ofWorkflow hg) he
      have hc' := mem_firsts.2 (h.connections.mem_iff.1 (mem_firsts.1 hc))
      obtain ⟨e', he', hreads'⟩ := exists_left_of_mem (forall₂_reads_of_ofWorkflow hg') hc'
      exact ⟨e', fun _ => ⟨he', c, hreads, hreads'⟩⟩
    · exact ⟨e, fun hc => absurd hc he⟩
  choose node hnodeAt using hnode
  choose edge hmem using hedge
  refine ⟨{ node, edge, nodeAt := hnodeAt _ _, mem := fun he => (hmem _ he).1, reads := ?_,
            nodeCount := ?_ }⟩
  · intro e c he hreads
    obtain ⟨-, c', hc', hreads'⟩ := hmem e he
    exact hreads.eq hc' ▸ hreads'
  · rw [nodeCount_of_ofWorkflow hg, nodeCount_of_ofWorkflow hg', h.length_nodes]

variable {g g' : Graph}

namespace WellFormed

/-- Nodes and ports of a well-formed graph can be told apart. -/
lemma distinct (hg : g.WellFormed) : g.nodes.Distinct :=
  .of_tables hg.numbers hg.ports

/-- An edge reads as a connection. -/
lemma exists_reads (hg : g.WellFormed) {e : Edge} (he : e ∈ g.edges.toList) :
    ∃ c, e.toWire.Reads g.nodes c := by
  obtain ⟨⟨source, hsource, houtput⟩, target, htarget, hinput⟩ := hg.fits e he
  exact ⟨⟨⟨source.exeId, source.outputs[e.output.index].id, e.sourceRole⟩,
      ⟨target.exeId, target.inputs[e.input.index].id, e.targetRole⟩⟩,
    ⟨source, hsource, rfl, _, Array.getElem?_eq_getElem houtput, rfl⟩, rfl,
    ⟨target, htarget, rfl, _, Array.getElem?_eq_getElem hinput, rfl⟩, rfl⟩

end WellFormed

namespace Renaming

variable (ρ : Renaming g g') (σ : Renaming g' g) {id start : NodeId} {n : Node} {e : Edge}
  {walk : Walk}

/-- A node with a port that an end of a connection names is renamed to the one that has it there. -/
lemma node_eq_of_isAt (hg' : g'.WellFormed) {c : Endpoint} {side : Side} {id' : NodeId}
    {position position' : PortIdx} (h : c.IsAt g.nodes side id position)
    (h' : c.IsAt g'.nodes side id' position') : id' = ρ.node id := by
  obtain ⟨n, hn, hid, -⟩ := h
  obtain ⟨n', hn', hid', -⟩ := h'
  obtain ⟨renamed, hrenamed, hsame⟩ := ρ.nodeAt (orFault_eq_ok_iff.2 hn)
  refine hg'.distinct.exeIds id' _ n' renamed hn' (orFault_eq_ok_iff.1 hrenamed) ?_
  rw [hid', ← hid, hsame.exeId]

section Edges

variable (hg : g.WellFormed) (hg' : g'.WellFormed) (he : e ∈ g.edges.toList)

include hg hg' he

lemma source_edge : (ρ.edge e).source = ρ.node e.source := by
  obtain ⟨c, hc⟩ := hg.exists_reads he
  exact ρ.node_eq_of_isAt hg' hc.source (ρ.reads he hc).source

lemma target_edge : (ρ.edge e).target = ρ.node e.target := by
  obtain ⟨c, hc⟩ := hg.exists_reads he
  exact ρ.node_eq_of_isAt hg' hc.target (ρ.reads he hc).target

omit hg' in
lemma sourceRole_edge : (ρ.edge e).sourceRole = e.sourceRole := by
  obtain ⟨c, hc⟩ := hg.exists_reads he
  rw [← hc.sourceRole, ← (ρ.reads he hc).sourceRole]

omit hg' in
lemma targetRole_edge : (ρ.edge e).targetRole = e.targetRole := by
  obtain ⟨c, hc⟩ := hg.exists_reads he
  rw [← hc.targetRole, ← (ρ.reads he hc).targetRole]

omit hg' in
/-- Renaming an edge there and back does not change it. -/
lemma edge_edge : σ.edge (ρ.edge e) = e := by
  obtain ⟨c, hc⟩ := hg.exists_reads he
  have hsame := (σ.reads (ρ.mem he) (ρ.reads he hc)).unique hg.distinct hc
  exact List.inj_on_of_nodup_map hg.wires_nodup (σ.mem (ρ.mem he)) he hsame

end Edges

/-- Renaming a node there and back does not change it. -/
lemma node_node (hg : g.WellFormed) (hn : g.nodeAt id = .ok n) : σ.node (ρ.node id) = id := by
  obtain ⟨n', hn', hsame⟩ := ρ.nodeAt hn
  obtain ⟨n'', hn'', hsame'⟩ := σ.nodeAt hn'
  refine hg.distinct.exeIds _ _ n'' n (orFault_eq_ok_iff.1 hn'') (orFault_eq_ok_iff.1 hn) ?_
  rw [← hsame'.exeId, ← hsame.exeId]

lemma nodeId (hg : g.WellFormed) (hg' : g'.WellFormed) {exeId : String}
    (h : g.nodeId exeId = .ok id) : g'.nodeId exeId = .ok (ρ.node id) := by
  obtain ⟨n, hn, rfl⟩ := hg.exists_nodeAt_of_exeIdAt (hg.nodeId_eq_ok_iff.1 h)
  obtain ⟨n', hn', hsame⟩ := ρ.nodeAt hn
  rw [hg'.nodeId_eq_ok_iff, hg'.exeIdAt_of_nodeAt hn', hsame.exeId]

/-! ## What walking goes by -/

lemma mem_leaving (hg : g.WellFormed) (hg' : g'.WellFormed) (h : e ∈ g.leaving id) :
    ρ.edge e ∈ g'.leaving (ρ.node id) := by
  obtain ⟨he, rfl⟩ := hg.mem_leaving_iff.1 h
  exact hg'.mem_leaving_iff.2 ⟨ρ.mem he, ρ.source_edge hg hg' he⟩

/-- A renamed node is left in the same roles. -/
lemma mem_roles (hg : g.WellFormed) (hg' : g'.WellFormed) {role : LoopRole}
    (h : role ∈ (g.leaving id).map (·.sourceRole)) :
    role ∈ (g'.leaving (ρ.node id)).map (·.sourceRole) := by
  obtain ⟨e, he, rfl⟩ := List.mem_map.1 h
  refine List.mem_map.2 ⟨ρ.edge e, ρ.mem_leaving hg hg' he, ?_⟩
  exact ρ.sourceRole_edge hg (hg.mem_leaving_iff.1 he).1

include σ in
/-- A renamed node is the same to the loops that pass it. -/
theorem kind_node (hg : g.WellFormed) (hg' : g'.WellFormed) (hn : g.nodeAt id = .ok n) :
    g'.kind (ρ.node id) = g.kind id := by
  obtain ⟨n', hn', hsame⟩ := ρ.nodeAt hn
  have hroles : ∀ role, role ∈ (g'.leaving (ρ.node id)).map (·.sourceRole) ↔
      role ∈ (g.leaving id).map (·.sourceRole) := by
    refine fun role => ⟨fun h => ?_, ρ.mem_roles hg hg'⟩
    have hback := σ.mem_roles hg' hg h
    rwa [ρ.node_node σ hg hn] at hback
  rw [kind_of_nodeAt hn, kind_of_nodeAt hn', Node.kindOf, Node.kindOf, hsame.isDriver]
  simp only [hroles]

/-- A renamed edge enters the loop of a driver exactly if the edge does. -/
theorem entersLoop_edge (hg : g.WellFormed) (hg' : g'.WellFormed) (he : e ∈ g.edges.toList) :
    g'.entersLoop (ρ.edge e) = g.entersLoop e := by
  obtain ⟨n, hn, -⟩ := hg.exists_target he
  obtain ⟨n', hn', hsame⟩ := ρ.nodeAt hn
  rw [← ρ.target_edge hg hg' he] at hn'
  rw [entersLoop_of_nodeAt hn, entersLoop_of_nodeAt hn', hsame.isDriver,
    ρ.targetRole_edge hg he]

/-- The spot of a renamed graph for a spot. -/
def spot (s : Spot) : Spot := ⟨ρ.node s.node, s.arrival⟩

lemma spot_after (hg : g.WellFormed) (hg' : g'.WellFormed) (he : e ∈ g.edges.toList) :
    ρ.spot (.after e) = .after (ρ.edge e) := by
  rw [spot, Spot.after, Spot.after, ρ.target_edge hg hg' he, ρ.targetRole_edge hg he]

include σ in
/-- A walk goes on along the renamed edge. -/
theorem goesOn (hg : g.WellFormed) (hg' : g'.WellFormed) {s : Spot} (h : g.GoesOn walk s e) :
    g'.GoesOn walk (ρ.spot s) (ρ.edge e) := by
  obtain ⟨kind, hkind, hleaving, hfollows⟩ := goesOn_iff.1 h
  obtain ⟨n, hn, -⟩ := bind_eq_ok_iff.1 hkind
  refine goesOn_iff.2 ⟨kind, ?_, ρ.mem_leaving hg hg' hleaving, ?_⟩
  · exact (ρ.kind_node σ hg hg' hn).trans hkind
  · rw [ρ.sourceRole_edge hg (hg.mem_leaving_iff.1 hleaving).1]
    exact hfollows

/-- Whether an output of a node and one of the node that it is renamed to are the same port. -/
def SameOutput (start : NodeId) (output output' : PortIdx) : Prop :=
  ∃ n n' port, g.nodeAt start = .ok n ∧ g'.nodeAt (ρ.node start) = .ok n' ∧
    n.outputs[output.index]? = some port ∧ n'.outputs[output'.index]? = some port

variable {ρ} {output output' : PortIdx}

/-- Every output is the same port as an output of the node that its node is renamed to. -/
lemma exists_sameOutput (hn : g.nodeAt start = .ok n) {i : Nat} {port : Port}
    (hport : n.outputs[i]? = some port) :
    ∃ n' j, g'.nodeAt (ρ.node start) = .ok n' ∧ n'.outputs[j]? = some port ∧
      ρ.SameOutput start ⟨i⟩ ⟨j⟩ := by
  obtain ⟨n', hn', hsame⟩ := ρ.nodeAt hn
  rw [← Array.getElem?_toList] at hport
  have hmem : port ∈ n'.outputs.toList :=
    (hsame.ports .output).mem_iff.1 (List.mem_of_getElem? hport)
  obtain ⟨j, hj⟩ := List.mem_iff_getElem?.1 hmem
  rw [Array.getElem?_toList] at hport hj
  exact ⟨n', j, hn', hj, n, n', port, hn, hn', hport, hj⟩

lemma SameOutput.exists_node (h : ρ.SameOutput start output output') :
    ∃ n, g.nodeAt start = .ok n := by
  obtain ⟨n, -, -, hn, -⟩ := h
  exact ⟨n, hn⟩

lemma SameOutput.symm (h : ρ.SameOutput start output output') (hg : g.WellFormed) :
    σ.SameOutput (ρ.node start) output' output := by
  obtain ⟨n, n', port, hn, hn', hport, hport'⟩ := h
  exact ⟨n', n, port, hn', (ρ.node_node σ hg hn).symm ▸ hn, hport', hport⟩

include σ in
/-- A walk opens along the renamed edge, out of the same port. -/
theorem SameOutput.opens (h : ρ.SameOutput start output output') (hg : g.WellFormed)
    (hg' : g'.WellFormed) (hopens : g.Opens walk start output e) :
    g'.Opens walk (ρ.node start) output' (ρ.edge e) := by
  obtain ⟨n, n', port, hn, hn', hport, hport'⟩ := h
  obtain ⟨he, rfl, rfl, kind, hkind, hfollows⟩ := hopens
  obtain ⟨n'', hn'', hsame⟩ := ρ.nodeAt hn
  obtain rfl := Except.ok.inj (hn'.symm.trans hn'')
  -- the edge leaves the port in both graphs
  obtain ⟨c, hc⟩ := hg.exists_reads he
  have hsource : c.source.IsAt g'.nodes .output (ρ.node e.source) output' := by
    obtain ⟨m, hm, hid, p, hp, hportId⟩ := hc.source
    obtain rfl := Except.ok.inj (hn.symm.trans (orFault_eq_ok_iff.2 hm))
    obtain rfl := Option.some.inj (hport.symm.trans hp)
    exact ⟨n', orFault_eq_ok_iff.1 hn', hsame.exeId ▸ hid, port, hport', hportId⟩
  obtain ⟨hnode, houtput⟩ := (ρ.reads he hc).source.unique hg'.distinct hsource rfl rfl
  refine ⟨ρ.mem he, hnode, houtput, kind, (ρ.kind_node σ hg hg' hn).trans hkind, ?_⟩
  rw [ρ.sourceRole_edge hg he]
  exact hfollows

end Renaming

end Graph

end WorkflowLoops

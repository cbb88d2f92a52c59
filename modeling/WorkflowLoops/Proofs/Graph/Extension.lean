import Mathlib
import WorkflowLoops.Proofs.Graph.Renaming
import WorkflowLoops.Proofs.Walk.Rules

/-!
# Extensions of workflows

Declarations may be appended to a workflow. What was declared before keeps its number, so the graph of
the extension begins with the nodes and edges of the graph (`nodeAt_of_extend`,
`exists_edges_of_extend`).

An appended connection is of no concern to walks from a node if it is a broadcast, or if it leaves a node
that is not reached. Where all appended connections are such, the two graphs share the part that is
reached (`shares_of_extend`): of nodes in a shared part, whatever a walk looks up is the same in both.
-/

namespace WorkflowLoops

/-- A workflow with further declarations. -/
def Workflow.extend (w : Workflow) (nodes : List NodeDecl) (connections : List Connection) :
    Workflow where
  nodes := w.nodes ++ nodes
  connections := w.connections ++ connections

/-- Whether a node is reached from a node along connections. -/
def Workflow.Reaches (w : Workflow) (start node : String) : Prop :=
  Relation.ReflTransGen
    (fun a b => ∃ c ∈ w.connections, c.source.node = a ∧ c.target.node = b) start node

lemma filter_eq_of_filter_eq {α : Type} {l l' : List α} {p q : α → Bool}
    (hpq : ∀ a, q a = true → p a = true) (h : l'.filter p = l.filter p) :
    l'.filter q = l.filter q := by
  have hfilter : ∀ k : List α, (k.filter p).filter q = k.filter q := by
    intro k
    rw [List.filter_filter]
    refine List.filter_congr fun a _ => ?_
    cases hq : q a with
    | false => rfl
    | true => rw [hpq a hq, Bool.and_self]
  rw [← hfilter l', h, hfilter l]

/-- Only connections that are appended add to those that are not declared before. -/
lemma exists_firsts_append {α : Type} [DecidableEq α] (l l' : List α) :
    ∃ more, firsts (l ++ l') = firsts l ++ more ∧ more ⊆ l' := by
  induction l' using List.reverseRecOn with
  | nil => exact ⟨[], by simp, List.nil_subset _⟩
  | append_singleton l' a ih =>
    obtain ⟨more, hmore, hsub⟩ := ih
    rw [← List.append_assoc, firsts_concat, hmore, List.append_assoc]
    refine ⟨_, rfl, List.append_subset.2 ⟨fun x hx => List.mem_append_left _ (hsub hx), ?_⟩⟩
    split
    · exact List.nil_subset _
    · exact List.subset_append_right _ _

/-- An edge is a wire and a number. -/
lemma Edge.eq_of_toWire {e f : Edge} (hwire : e.toWire = f.toWire) (hid : e.id = f.id) : e = f := by
  cases e
  cases f
  simp_all

/-- Whether a walk may follow an edge at all. -/
def Edge.isWalkable (e : Edge) : Bool := e.sourceRole ≠ .inner

namespace Graph

/-- A part that a graph has in common with another one, as far as walks can tell: it has the same nodes,
edges do not lead out of it, and of those that leave its nodes the walkable ones are the same. -/
structure Shares (g g' : Graph) (inside : NodeId → Prop) : Prop where
  nodeAt : ∀ id, inside id → ∃ node, g.nodeAt id = .ok node ∧ g'.nodeAt id = .ok node
  closed : ∀ e ∈ g.edges.toList, inside e.source → inside e.target
  outgoing : ∀ id, inside id → ∀ output,
    (g'.outgoing id output).filter Edge.isWalkable
      = (g.outgoing id output).filter Edge.isWalkable

variable {g g' : Graph} {inside : NodeId → Prop} {id : NodeId} {e f : Edge} {walk : Walk}

/-! ## Lookups in a shared part -/

lemma walkable_of_follows {kind : NodeKind} {arrival : Arrival}
    (h : walk.follows kind arrival e.sourceRole = true) : e.isWalkable = true := by
  rw [Edge.isWalkable, decide_eq_true_iff]
  cases arrival with
  | start => exact (Walk.follows_start_iff.1 h).1
  | via entered => exact (Walk.follows_via_iff.1 h).2.1

namespace Shares

lemma nodeAt_eq (h : g.Shares g' inside) (hid : inside id) : g'.nodeAt id = g.nodeAt id := by
  obtain ⟨node, hnode, hnode'⟩ := h.nodeAt id hid
  rw [hnode, hnode']

lemma exeIdAt_eq (h : g.Shares g' inside) (hg : g.WellFormed) (hg' : g'.WellFormed)
    (hid : inside id) : g'.exeIdAt id = g.exeIdAt id := by
  obtain ⟨node, hnode, hnode'⟩ := h.nodeAt id hid
  rw [hg.exeIdAt_of_nodeAt hnode, hg'.exeIdAt_of_nodeAt hnode']

lemma entersLoop_eq (h : g.Shares g' inside) (he : inside e.target) :
    g'.entersLoop e = g.entersLoop e := by
  rw [entersLoop, entersLoop, h.nodeAt_eq he]

lemma leaving (h : g.Shares g' inside) (hg : g.WellFormed) (hg' : g'.WellFormed) (hid : inside id) :
    (g'.leaving id).filter Edge.isWalkable = (g.leaving id).filter Edge.isWalkable := by
  obtain ⟨node, hnode, hnode'⟩ := h.nodeAt id hid
  rw [hg.leaving_eq_flatMap hnode, hg'.leaving_eq_flatMap hnode', List.filter_flatMap,
    List.filter_flatMap]
  exact List.flatMap_congr fun i _ => h.outgoing id hid ⟨i⟩

/-- Broadcasts do not make a node a controller. -/
lemma kind_eq (h : g.Shares g' inside) (hg : g.WellFormed) (hg' : g'.WellFormed) (hid : inside id) :
    g'.kind id = g.kind id := by
  have hroles : ∀ role ≠ .inner, role ∈ (g'.leaving id).map (·.sourceRole) ↔
      role ∈ (g.leaving id).map (·.sourceRole) := by
    intro role hrole
    have hmem : ∀ edges : List Edge, role ∈ edges.map (·.sourceRole) ↔
        role ∈ (edges.filter Edge.isWalkable).map (·.sourceRole) := by
      intro edges
      simp only [List.mem_map, List.mem_filter, Edge.isWalkable, decide_eq_true_iff]
      refine exists_congr fun e => ⟨?_, ?_⟩
      · rintro ⟨he, rfl⟩
        exact ⟨⟨he, hrole⟩, rfl⟩
      · rintro ⟨⟨he, -⟩, rfl⟩
        exact ⟨he, rfl⟩
    rw [hmem (g'.leaving id), h.leaving hg hg' hid, ← hmem]
  obtain ⟨node, hnode, hnode'⟩ := h.nodeAt id hid
  rw [kind_of_nodeAt hnode, kind_of_nodeAt hnode', Node.kindOf, Node.kindOf]
  simp only [hroles .same (by decide), hroles .outer (by decide)]

lemma nextEdges_eq (h : g.Shares g' inside) (hg : g.WellFormed) (hg' : g'.WellFormed) {spot : Spot}
    (hspot : inside spot.node) : g'.nextEdges walk spot = g.nextEdges walk spot := by
  obtain ⟨node, hnode, -⟩ := h.nodeAt _ hspot
  have hkind := kind_of_nodeAt hnode
  rw [nextEdges_of_kind hkind, nextEdges_of_kind ((h.kind_eq hg hg' hspot).trans hkind)]
  congr 1
  exact filter_eq_of_filter_eq (fun _ => walkable_of_follows) (h.leaving hg hg' hspot)

lemma openings_eq (h : g.Shares g' inside) (hg : g.WellFormed) (hg' : g'.WellFormed)
    (hid : inside id) : g'.openings walk id = g.openings walk id := by
  obtain ⟨node, hnode, hnode'⟩ := h.nodeAt id hid
  have hfollows : ∀ output kind,
      ((g'.outgoing id output).filter fun e => walk.follows kind .start e.sourceRole)
        = (g.outgoing id output).filter fun e => walk.follows kind .start e.sourceRole :=
    fun output kind => filter_eq_of_filter_eq (fun _ => walkable_of_follows) (h.outgoing id hid output)
  simp only [openings, hnode, hnode', h.kind_eq hg hg' hid, hfollows]

/-- A walk in a shared part stays in it. -/
lemma inside_of_nextEdges (h : g.Shares g' inside) (hg : g.WellFormed) {spot : Spot}
    {next : List Edge} (hspot : inside spot.node) (hnext : g.nextEdges walk spot = .ok next) :
    ∀ e ∈ next, inside e.target := by
  intro e he
  obtain ⟨hthere, hsource⟩ := hg.goesOn_mem_edges ⟨next, hnext, he⟩
  exact h.closed e hthere (hsource ▸ hspot)

lemma inside_of_openings (h : g.Shares g' inside) (hg : g.WellFormed) {node : Node}
    {openings : List (String × List Edge)} (hid : inside id) (hnode : g.nodeAt id = .ok node)
    (hopenings : g.openings walk id = .ok openings) :
    ∀ opening ∈ openings, ∀ e ∈ opening.2, inside e.target := by
  intro opening hopening e he
  obtain ⟨output, hopens⟩ := hg.exists_output_of_mem_openings hnode hopenings hopening
  obtain ⟨hthere, hsource, -⟩ := hopens e he
  exact h.closed e hthere (hsource ▸ hid)

end Shares

/-! ## Graphs of extensions -/

section Extension

variable {w : Workflow} {nodes : List NodeDecl} {connections : List Connection}
  (hbuilt : Graph.ofWorkflow w = .ok g)
  (hbuilt' : Graph.ofWorkflow (w.extend nodes connections) = .ok g')

include hbuilt hbuilt'

/-- Nodes keep their numbers. -/
lemma nodeAt_of_extend {node : Node} (h : g.nodeAt id = .ok node) : g'.nodeAt id = .ok node := by
  obtain ⟨n, hn, rfl⟩ := (nodeAt_of_ofWorkflow hbuilt).1 h
  refine (nodeAt_of_ofWorkflow hbuilt').2 ⟨n, ?_, rfl⟩
  rw [Workflow.extend, List.getElem?_append_left (List.getElem?_eq_some_iff.1 hn).1, hn]

lemma isAt_of_extend {c : Endpoint} {side : Side} {position : PortIdx}
    (h : c.IsAt g.nodes side id position) : c.IsAt g'.nodes side id position := by
  obtain ⟨node, hnode, hport⟩ := h
  have hnode' := nodeAt_of_extend hbuilt hbuilt' (orFault_eq_ok_iff.2 hnode)
  exact ⟨node, orFault_eq_ok_iff.1 hnode', hport⟩

lemma reads_of_extend {wire : Wire} {c : Connection} (h : wire.Reads g.nodes c) :
    wire.Reads g'.nodes c where
  source := isAt_of_extend hbuilt hbuilt' h.source
  sourceRole := h.sourceRole
  target := isAt_of_extend hbuilt hbuilt' h.target
  targetRole := h.targetRole

/-- Edges keep their numbers, and those behind them read as appended connections. -/
lemma exists_edges_of_extend : ∃ more, g'.edges.toList = g.edges.toList ++ more ∧
    ∀ e ∈ more, ∃ c ∈ connections, e.toWire.Reads g'.nodes c := by
  have hg := wellFormed_ofWorkflow hbuilt
  have hg' := wellFormed_ofWorkflow hbuilt'
  have hreads := forall₂_reads_of_ofWorkflow hbuilt
  have hreads' := forall₂_reads_of_ofWorkflow hbuilt'
  obtain ⟨more, hmore, hsub⟩ := exists_firsts_append w.connections connections
  rw [Workflow.extend, hmore] at hreads'
  have hbefore := List.forall₂_take_append _ _ _ hreads'
  have hbehind := List.forall₂_drop_append _ _ _ hreads'
  have htake : g'.edges.toList.take (firsts w.connections).length = g.edges.toList := by
    have hlength : (g'.edges.toList.take (firsts w.connections).length).length
        = g.edges.toList.length := hbefore.length_eq.trans hreads.length_eq.symm
    refine List.ext_getElem hlength fun i hi hi' => ?_
    have hread := hreads.get hi' (hreads.length_eq ▸ hi')
    have hread' := hbefore.get hi (hbefore.length_eq ▸ hi)
    have hwire := hread'.unique hg'.distinct (reads_of_extend hbuilt hbuilt' hread)
    have hthere : g'.edges.toList[i]? = some (g'.edges.toList.take (firsts w.connections).length)[i] := by
      rw [List.getElem_take]
      exact List.getElem?_eq_getElem _
    have hid := hg.edge_id i _ (List.getElem?_eq_getElem hi')
    exact Edge.eq_of_toWire hwire ((hg'.edge_id i _ hthere).trans hid.symm)
  refine ⟨g'.edges.toList.drop (firsts w.connections).length, ?_, fun e he => ?_⟩
  · calc
      g'.edges.toList = _ := (List.take_append_drop (firsts w.connections).length _).symm
      _ = _ := by rw [htake]
  · obtain ⟨c, hc, hread⟩ := exists_right_of_mem hbehind he
    exact ⟨c, hsub hc, hread⟩

/-- If the appended connections are broadcasts or leave nodes that are not reached, then the graph of an
extension shares the part that is reached. -/
theorem shares_of_extend {start : String}
    (hfree : ∀ c ∈ connections, c.source.role = .inner ∨ ¬ w.Reaches start c.source.node) :
    g.Shares g' fun id => ∃ node, g.nodeAt id = .ok node ∧ w.Reaches start node.exeId := by
  have hg := wellFormed_ofWorkflow hbuilt
  have hg' := wellFormed_ofWorkflow hbuilt'
  obtain ⟨more, hedges, hmore⟩ := exists_edges_of_extend hbuilt hbuilt'
  refine ⟨?_, ?_, ?_⟩
  · rintro id ⟨node, hnode, -⟩
    exact ⟨node, hnode, nodeAt_of_extend hbuilt hbuilt' hnode⟩
  · rintro e he ⟨source, hsource, hreached⟩
    obtain ⟨c, hc, hread⟩ := exists_right_of_mem (forall₂_reads_of_ofWorkflow hbuilt) he
    obtain ⟨source', hsource', hsourceId, -⟩ := hread.source
    obtain ⟨target, htarget, htargetId, -⟩ := hread.target
    obtain rfl := Except.ok.inj (hsource.symm.trans (orFault_eq_ok_iff.2 hsource'))
    exact ⟨target, orFault_eq_ok_iff.2 htarget,
      hreached.tail ⟨c, mem_firsts.1 hc, hsourceId.symm, htargetId.symm⟩⟩
  · rintro id ⟨node, hnode, hreached⟩ output
    rw [hg.outgoing_eq_filter, hg'.outgoing_eq_filter, hedges, List.filter_append,
      List.filter_append, List.append_right_eq_self, List.filter_filter,
      List.filter_eq_nil_iff]
    intro e he hleaves
    obtain ⟨c, hc, hread⟩ := hmore e he
    obtain ⟨source, hsource, hsourceId, -⟩ := hread.source
    simp only [Edge.isWalkable, Bool.and_eq_true, decide_eq_true_iff] at hleaves
    obtain ⟨hwalkable, rfl, -⟩ := hleaves
    have hsame := nodeAt_of_extend hbuilt hbuilt' hnode
    obtain rfl := Except.ok.inj (hsame.symm.trans (orFault_eq_ok_iff.2 hsource))
    rcases hfree c hc with hinner | hfar
    · exact hwalkable (hread.sourceRole.symm.trans hinner)
    · exact hfar (hsourceId ▸ hreached)

end Extension

end Graph

end WorkflowLoops

import Mathlib
import WorkflowLoops.Proofs.Graph.Lookup
import WorkflowLoops.Proofs.Graph.Violations

/-!
# A graph is an image of its workflow

A wire goes from a position to a position. Read by execution ids and port ids it is a connection
(`Wire.Reads`), and since execution ids and port ids tell nodes and ports apart, different wires read as
different connections. So the edges of a graph read as the declared connections without repetitions, and
an entry of the log goes with each repetition (`Draft.mirrors_ofWorkflow`).

The main statement, `Graph.isImage_ofWorkflow`, says this of the whole graph: of its nodes, their
execution ids, its edges, and the edges that are filed under each output.
-/

namespace WorkflowLoops

/-- The entries of a list that do not stand in it before. -/
def firsts {α : Type} [DecidableEq α] (l : List α) : List α :=
  ((withEarlier l).filter fun (a, earlier) => a ∉ earlier).map Prod.fst

lemma firsts_concat {α : Type} [DecidableEq α] (l : List α) (a : α) :
    firsts (l ++ [a]) = firsts l ++ if a ∈ l then [] else [a] := by
  rw [firsts, firsts, withEarlier_concat, List.filter_append, List.map_append]
  by_cases hold : a ∈ l <;> simp [hold]

lemma repetitions_concat {α : Type} [DecidableEq α] (l : List α) (a : α) :
    repetitions (l ++ [a]) = repetitions l ++ if a ∈ l then [a] else [] := by
  rw [repetitions, repetitions, withEarlier_concat, List.filter_append, List.map_append]
  by_cases hold : a ∈ l <;> simp [hold]

lemma mem_firsts {α : Type} [DecidableEq α] {l : List α} {a : α} : a ∈ firsts l ↔ a ∈ l := by
  induction l using List.reverseRecOn with
  | nil => rfl
  | append_singleton l b ih =>
    rw [firsts_concat, List.mem_append, List.mem_append, ih]
    by_cases hold : b ∈ l
    · rw [if_pos hold]
      refine or_congr_right' fun hnew => ?_
      have hother : a ≠ b := fun heq => hnew (heq ▸ hold)
      simp [hother]
    · rw [if_neg hold]

lemma exists_right_of_mem {α β : Type} {R : α → β → Prop} {as : List α} {bs : List β}
    (h : List.Forall₂ R as bs) {a : α} (ha : a ∈ as) : ∃ b ∈ bs, R a b := by
  obtain ⟨i, hi, rfl⟩ := List.mem_iff_getElem.1 ha
  have hlt : i < bs.length := h.length_eq ▸ hi
  exact ⟨bs[i], List.getElem_mem hlt, h.get hi hlt⟩

lemma exists_left_of_mem {α β : Type} {R : α → β → Prop} {as : List α} {bs : List β}
    (h : List.Forall₂ R as bs) {b : β} (hb : b ∈ bs) : ∃ a ∈ as, R a b := by
  obtain ⟨i, hi, rfl⟩ := List.mem_iff_getElem.1 hb
  have hlt : i < as.length := h.length_eq ▸ hi
  exact ⟨as[i], List.getElem_mem hlt, h.get hlt hi⟩

/-- Entries that are numbered by their positions have the first numbers. -/
lemma map_eq_map_range {α β : Type} {f : α → β} {mk : Nat → β} {l : List α}
    (h : ∀ i a, l[i]? = some a → f a = mk i) : l.map f = (List.range l.length).map mk := by
  refine List.ext_getElem (by simp) fun i hi _ => ?_
  rw [List.length_map] at hi
  simpa using h i l[i] (List.getElem?_eq_getElem hi)

/-- Values that know their numbers are enumerated with them. -/
lemma Arena.enumerate_eq_map {ι α : Type} [Numbering ι] {a : Arena ι α} {number : α → ι}
    (h : ∀ i v, a.toList[i]? = some v → number v = Numbering.ofNat i) :
    a.enumerate = a.toList.map fun v => (number v, v) := by
  refine List.ext_getElem (by simp [enumerate]) fun i hi _ => ?_
  have hlt : i < a.toList.length := by simpa [enumerate] using hi
  simp [enumerate, h i _ (List.getElem?_eq_getElem hlt)]

lemma length_firsts_le {α : Type} [DecidableEq α] (l : List α) : (firsts l).length ≤ l.length := by
  rw [firsts, List.length_map]
  refine (List.length_filter_le ..).trans ?_
  rw [withEarlier, List.length_map, List.length_zipIdx]

lemma firstDeclared_eq_self {nodes : List NodeDecl} (h : (nodes.map NodeDecl.exeId).Nodup) :
    firstDeclared nodes = nodes := by
  induction nodes using List.reverseRecOn with
  | nil => rfl
  | append_singleton nodes n ih =>
    rw [List.map_append, List.map_singleton, List.nodup_append_comm, List.singleton_append,
      List.nodup_cons] at h
    rw [firstDeclared_concat, if_neg h.1, ih h.2]

/-! ## Reading wires -/

/-- The ports of a node on a side. -/
def Node.ports (n : Node) : Side → Array Port
  | .input => n.inputs
  | .output => n.outputs

section Positions

variable {node : Node}

/-- There are few enough ports for their positions not to wrap around. -/
lemma PortsFit.index_ofNat (h : PortsFit node.inputs.toList node.outputs.toList) (side : Side)
    {i : Nat} (hi : i < (node.ports side).size) : (PortIdx.ofNat i).index = i := by
  refine PortIdx.index_ofNat_of_lt (Nat.lt_of_lt_of_le hi ?_)
  rw [← Array.length_toList]
  cases side with
  | input => exact h.inputs_le
  | output => exact h.outputs_le

/-- The position under which a port is found is where it is. -/
lemma PortsFit.exists_port_of_find? (h : PortsFit node.inputs.toList node.outputs.toList)
    {side : Side} {portId : String} {position : PortIdx}
    (hfind : node.find? side portId = some position) :
    ∃ port, (node.ports side)[position.index]? = some port ∧ port.id = portId := by
  have hfound : Port.position? (node.ports side) portId = some position := by
    cases side <;> exact hfind
  obtain ⟨i, hi, rfl⟩ := Option.map_eq_some_iff.1 hfound
  obtain ⟨hlt, hat, -⟩ := Array.findIdx?_eq_some_iff_getElem.1 hi
  rw [h.index_ofNat side hlt]
  exact ⟨_, Array.getElem?_eq_getElem hlt, by simpa using hat⟩

end Positions

/-- Whether one end of a connection is the port at a position of a node. -/
def Endpoint.IsAt (e : Endpoint) (nodes : Arena NodeId Node) (side : Side) (id : NodeId)
    (position : PortIdx) : Prop :=
  ∃ node, nodes.get? id = some node ∧ node.exeId = e.node ∧
    ∃ port, (node.ports side)[position.index]? = some port ∧ port.id = e.port

/-- Whether a wire between nodes stands for a connection. -/
structure Wire.Reads (nodes : Arena NodeId Node) (w : Wire) (c : Connection) : Prop where
  source : c.source.IsAt nodes .output w.source w.output
  sourceRole : c.source.role = w.sourceRole
  target : c.target.IsAt nodes .input w.target w.input
  targetRole : c.target.role = w.targetRole

/-- The connection that a wire of a graph stands for. -/
def Graph.readWire (g : Graph) (w : Wire) : Except Error Connection := do
  let source ← g.nodeAt w.source
  let output ← source.outputAt w.output
  let target ← g.nodeAt w.target
  let input ← target.inputAt w.input
  pure ⟨⟨source.exeId, output.id, w.sourceRole⟩, ⟨target.exeId, input.id, w.targetRole⟩⟩

lemma Graph.readWire_eq_ok_iff {g : Graph} {w : Wire} {c : Connection} :
    g.readWire w = .ok c ↔ w.Reads g.nodes c := by
  have hnode : ∀ {id : NodeId} {node : Node}, g.nodeAt id = .ok node ↔ g.nodes.get? id = some node :=
    orFault_eq_ok_iff
  simp only [readWire, bind_eq_ok_iff, hnode, Node.outputAt, Node.inputAt, orFault_eq_ok_iff, pure,
    Except.pure, Except.ok.injEq]
  constructor
  · rintro ⟨source, hsource, output, houtput, target, htarget, input, hinput, rfl⟩
    exact ⟨⟨source, hsource, rfl, output, houtput, rfl⟩, rfl,
      ⟨target, htarget, rfl, input, hinput, rfl⟩, rfl⟩
  · rintro ⟨⟨source, hsource, hsourceId, output, houtput, houtputId⟩, hsourceRole,
      ⟨target, htarget, htargetId, input, hinput, hinputId⟩, htargetRole⟩
    refine ⟨source, hsource, output, houtput, target, htarget, input, hinput, ?_⟩
    rw [hsourceId, houtputId, ← hsourceRole, htargetId, hinputId, ← htargetRole]

/-- Whether nodes are told apart by their execution ids, and the ports of each by their ids. -/
structure Arena.Distinct (nodes : Arena NodeId Node) : Prop where
  exeIds : ∀ (id id' : NodeId) (node node' : Node), nodes.get? id = some node →
    nodes.get? id' = some node' → node.exeId = node'.exeId → id = id'
  portIds : ∀ (id : NodeId) (node : Node) (side : Side), nodes.get? id = some node →
    ((node.ports side).toList.map Port.id).Nodup

section Ends

variable {nodes : Arena NodeId Node} {e e' : Endpoint} {side : Side} {id id' : NodeId}
  {position position' : PortIdx}

/-- What is at a position is one port of one node. -/
lemma Endpoint.IsAt.eq (h : e.IsAt nodes side id position) (h' : e'.IsAt nodes side id position) :
    e.node = e'.node ∧ e.port = e'.port := by
  obtain ⟨node, hnode, hid, port, hport, hportId⟩ := h
  obtain ⟨node', hnode', hid', port', hport', hportId'⟩ := h'
  obtain rfl := Option.some.inj (hnode.symm.trans hnode')
  obtain rfl := Option.some.inj (hport.symm.trans hport')
  exact ⟨hid.symm.trans hid', hportId.symm.trans hportId'⟩

/-- A port of a node is at one position. -/
lemma Endpoint.IsAt.unique (hnodes : nodes.Distinct) (h : e.IsAt nodes side id position)
    (h' : e'.IsAt nodes side id' position') (hnode : e.node = e'.node) (hport : e.port = e'.port) :
    id = id' ∧ position = position' := by
  obtain ⟨node, hget, hid, port, hat, hportId⟩ := h
  obtain ⟨node', hget', hid', port', hat', hportId'⟩ := h'
  obtain rfl := hnodes.exeIds id id' node node' hget hget' (by rw [hid, hid', hnode])
  obtain rfl := Option.some.inj (hget.symm.trans hget')
  refine ⟨rfl, congrArg PortIdx.mk ?_⟩
  have hids := hnodes.portIds id node side hget
  rw [← Array.getElem?_toList] at hat hat'
  have hmap : ∀ {i : Nat} {p : Port}, (node.ports side).toList[i]? = some p →
      ((node.ports side).toList.map Port.id)[i]? = some p.id := by
    intro i p hp
    rw [List.getElem?_map, hp]
    rfl
  have hsame : port.id = port'.id := by rw [hportId, hportId', hport]
  have hlt := (List.getElem?_eq_some_iff.1 (hmap hat)).1
  exact (List.getElem?_inj hlt hids).1 ((hmap hat).trans (hsame ▸ (hmap hat').symm))

/-- A wire stands for one connection only. -/
lemma Wire.Reads.eq {w : Wire} {c c' : Connection} (h : w.Reads nodes c) (h' : w.Reads nodes c') :
    c = c' := by
  obtain ⟨hsourceNode, hsourcePort⟩ := h.source.eq h'.source
  obtain ⟨htargetNode, htargetPort⟩ := h.target.eq h'.target
  have hsourceRole := h.sourceRole.trans h'.sourceRole.symm
  have htargetRole := h.targetRole.trans h'.targetRole.symm
  obtain ⟨⟨_, _, _⟩, ⟨_, _, _⟩⟩ := c
  obtain ⟨⟨_, _, _⟩, ⟨_, _, _⟩⟩ := c'
  simp_all

/-- A connection is that of one wire only. -/
lemma Wire.Reads.unique {w w' : Wire} {c : Connection} (hnodes : nodes.Distinct)
    (h : w.Reads nodes c) (h' : w'.Reads nodes c) : w = w' := by
  obtain ⟨hsource, houtput⟩ := h.source.unique hnodes h'.source rfl rfl
  obtain ⟨htarget, hinput⟩ := h.target.unique hnodes h'.target rfl rfl
  have hsourceRole := h.sourceRole.symm.trans h'.sourceRole
  have htargetRole := h.targetRole.symm.trans h'.targetRole
  obtain ⟨_, _, _, _, _, _⟩ := w
  obtain ⟨_, _, _, _, _, _⟩ := w'
  simp_all

end Ends

section Tables

variable {nodes : Arena NodeId Node} {exeIds : Interner} {id : NodeId} {node : Node}

/-- Where nodes and execution ids are numbered alike, a node is found under the number of its execution
id. -/
lemma Interner.text?_of_get? (hnumbers : exeIds.Numbers (nodes.toList.map Node.exeId))
    (hnode : nodes.get? id = some node) : exeIds.text? id.index = some node.exeId := by
  rw [Arena.get?_eq_getElem?] at hnode
  have hat : nodes.toList[id.index]? = some node := hnode
  rw [hnumbers.text?_eq, List.getElem?_map, hat]
  rfl

lemma Arena.mem_of_get? (hnode : nodes.get? id = some node) : node ∈ nodes.toList := by
  rw [Arena.get?_eq_getElem?] at hnode
  exact List.mem_of_getElem? hnode

/-- The tables of a graph tell nodes and their ports apart. -/
lemma Arena.Distinct.of_tables (hnumbers : exeIds.Numbers (nodes.toList.map Node.exeId))
    (hports : ∀ node ∈ nodes.toList, PortsFit node.inputs.toList node.outputs.toList) :
    nodes.Distinct where
  exeIds id id' node node' hnode hnode' hsame := by
    have hfind := hnumbers.find?_iff_text?.2 (Interner.text?_of_get? hnumbers hnode)
    have hfind' := hnumbers.find?_iff_text?.2 (Interner.text?_of_get? hnumbers hnode')
    rw [hsame, hfind'] at hfind
    exact congrArg NodeId.mk (Option.some.inj hfind).symm
  portIds id node side hnode := by
    have hids := (hports node (Arena.mem_of_get? hnode)).ids_nodup
    rw [List.map_append, List.nodup_append] at hids
    cases side with
    | input => exact hids.1
    | output => exact hids.2.1

end Tables

namespace Draft

variable {d : Draft}

/-- An end that is resolved is at the position. -/
lemma Indexed.isAt_of_resolve (h : d.Indexed) (hnone : d.defects = #[]) {label : String} {side : Side}
    {e : Endpoint} {id : NodeId} {position : PortIdx}
    (hresolve : d.resolve label side e = .ok (id, position)) :
    e.IsAt d.nodes side id position := by
  unfold resolve at hresolve
  split at hresolve
  · cases hresolve
  · rename_i number hfind
    split at hresolve
    · cases hresolve
    · rename_i position' hposition
      obtain ⟨rfl, rfl⟩ := Prod.mk.inj (Except.ok.inj hresolve)
      obtain ⟨node, hnode, hport⟩ := Option.bind_eq_some_iff.1 hposition
      have htext := h.numbers.find?_iff_text?.1 hfind
      have hid : node.exeId = e.node :=
        Option.some.inj ((Interner.text?_of_get? h.numbers hnode).symm.trans htext)
      have hfits := h.ports hnone node (Arena.mem_of_get? hnode)
      exact ⟨node, hnode, hid, hfits.exists_port_of_find? hport⟩

/-! ## Construction -/

/-- What the draft of a valid workflow holds of its connections. -/
structure Mirrors (d : Draft) (connections : List Connection) : Prop where
  edges : List.Forall₂ (fun e c => e.toWire.Reads d.nodes c) d.edges.toList (firsts connections)
  log : d.log.toList = (repetitions connections).map fun c =>
    ⟨.warn, "Ignoring duplicate connection " ++ c.label⟩

/-- A connection that resolves adds an edge that reads as it, or a warning if there is such an edge. -/
lemma Mirrors.connect {connections : List Connection} (h : d.Mirrors connections) (hd : d.Indexed)
    (hnone : d.defects = #[]) (c : Connection) {source target : NodeId × PortIdx}
    (hsource : d.resolve c.label .output c.source = .ok source)
    (htarget : d.resolve c.label .input c.target = .ok target) :
    (d.connect c).Mirrors (connections ++ [c]) := by
  obtain ⟨source, output⟩ := source
  obtain ⟨target, input⟩ := target
  have hreads : Wire.Reads d.nodes ⟨source, output, c.source.role, target, input, c.target.role⟩ c :=
    ⟨hd.isAt_of_resolve hnone hsource, rfl, hd.isAt_of_resolve hnone htarget, rfl⟩
  have hany : d.edges.values.any
      (·.toWire == ⟨source, output, c.source.role, target, input, c.target.role⟩) = true ↔
      c ∈ connections := by
    rw [Array.any_eq_true', ← mem_firsts]
    constructor
    · rintro ⟨e, he, hsame⟩
      obtain ⟨c', hc', hread⟩ := exists_right_of_mem h.edges (Array.mem_toList_iff.2 he)
      rw [beq_iff_eq.1 hsame] at hread
      exact hread.eq hreads ▸ hc'
    · intro hc
      obtain ⟨e, he, hread⟩ := exists_left_of_mem h.edges hc
      refine ⟨e, Array.mem_toList_iff.1 he, beq_iff_eq.2 ?_⟩
      exact hread.unique (.of_tables hd.numbers (hd.ports hnone)) hreads
  unfold Draft.connect
  simp only [hsource, htarget, addWire]
  by_cases hold : c ∈ connections
  · rw [if_pos (hany.2 hold)]
    refine ⟨?_, ?_⟩
    · rw [firsts_concat, if_pos hold, List.append_nil]
      exact h.edges
    · rw [repetitions_concat, if_pos hold, List.map_append, Array.toList_push, h.log]
      rfl
  · rw [if_neg (fun hc => hold (hany.1 hc))]
    refine ⟨?_, ?_⟩
    · rw [firsts_concat, if_neg hold, Arena.toList_push]
      exact List.rel_append h.edges (.cons hreads .nil)
    · rw [repetitions_concat, if_neg hold, List.append_nil]
      exact h.log

end Draft

/-! ## Parts of workflows -/

namespace Workflow

variable {nodes : List NodeDecl} {connections : List Connection}

lemma IsValid.of_concat {c : Connection} (h : IsValid ⟨nodes, connections ++ [c]⟩) :
    IsValid ⟨nodes, connections⟩ where
  exeIds_nodup := h.exeIds_nodup
  ports := h.ports
  sources c hc := h.sources c (List.mem_append_left _ hc)
  targets c hc := h.targets c (List.mem_append_left _ hc)

lemma IsValid.of_concat_node {n : NodeDecl} (h : IsValid ⟨nodes ++ [n], []⟩) :
    IsValid ⟨nodes, []⟩ where
  exeIds_nodup := by
    have hnodup := h.exeIds_nodup
    rw [List.map_append] at hnodup
    exact hnodup.of_append_left
  ports n hn := h.ports n (List.mem_append_left _ hn)
  sources := by simp
  targets := by simp

end Workflow

namespace Draft

/-- Valid nodes add neither edges nor messages. -/
lemma edges_log_of_isValid {nodes : List NodeDecl} (h : Workflow.IsValid ⟨nodes, []⟩) :
    (ofWorkflow ⟨nodes, []⟩).edges = {} ∧ (ofWorkflow ⟨nodes, []⟩).log = #[] := by
  induction nodes using List.reverseRecOn with
  | nil => exact ⟨rfl, rfl⟩
  | append_singleton nodes n ih =>
    have hnodup := h.exeIds_nodup
    rw [List.map_append, List.map_singleton, List.nodup_append_comm, List.singleton_append,
      List.nodup_cons] at hnodup
    have hports := n.portDefects_eq_nil_iff.2 (h.ports n (by simp))
    have hlast : ofWorkflow ⟨nodes ++ [n], []⟩ = (ofWorkflow ⟨nodes, []⟩).addNode n := by
      rw [ofWorkflow, List.foldl_append]
      rfl
    have hnew := (tells_ofWorkflow ⟨nodes, []⟩).find?_eq_none_iff.2 hnodup.1
    rw [hlast, Draft.addNode, Interner.intern_of_find?_eq_none hnew, hports]
    exact ih h.of_concat_node

/-- The draft of a valid workflow holds what its connections say. -/
theorem mirrors_ofWorkflow {w : Workflow} (h : w.IsValid) :
    (ofWorkflow w).Mirrors w.connections := by
  obtain ⟨nodes, connections⟩ := w
  induction connections using List.reverseRecOn with
  | nil =>
    obtain ⟨hedges, hlog⟩ := edges_log_of_isValid h
    refine ⟨?_, by rw [hlog]; rfl⟩
    rw [hedges]
    exact .nil
  | append_singleton connections c ih =>
    have htells := tells_ofWorkflow ⟨nodes, connections⟩
    have hnone : (ofWorkflow ⟨nodes, connections⟩).defects = #[] := by
      have hdefects := htells.defects_eq
      rw [(Workflow.violations_eq_nil_iff _).2 h.of_concat] at hdefects
      simpa using hdefects
    -- an end that violates nothing is resolved
    have hresolves : ∀ (side : Side) (e : Endpoint), e.violations nodes c.label side = [] →
        ∃ place, (ofWorkflow ⟨nodes, connections⟩).resolve c.label side e = .ok place := by
      intro side e hvalid
      rw [htells.violations_eq] at hvalid
      cases hresolve : (ofWorkflow ⟨nodes, connections⟩).resolve c.label side e with
      | ok place => exact ⟨place, rfl⟩
      | error defect =>
        rw [hresolve] at hvalid
        cases hvalid
    have hc : c ∈ connections ++ [c] := by simp
    obtain ⟨source, hsource⟩ := hresolves .output c.source
      ((Endpoint.violations_eq_nil_iff_of_nodup h.exeIds_nodup).2 (h.sources c hc))
    obtain ⟨target, htarget⟩ := hresolves .input c.target
      ((Endpoint.violations_eq_nil_iff_of_nodup h.exeIds_nodup).2 (h.targets c hc))
    have hlast : ofWorkflow ⟨nodes, connections ++ [c]⟩
        = (ofWorkflow ⟨nodes, connections⟩).connect c := by
      rw [ofWorkflow, List.foldl_append]
      rfl
    rw [hlast]
    exact (ih h.of_concat).connect htells.toIndexed hnone c hsource htarget

end Draft

/-! ## Graphs -/

namespace Graph

variable {w : Workflow} {g : Graph}

/-- A graph that is built is that of a draft without defects. -/
lemma exists_draft (h : Graph.ofWorkflow w = .ok g) :
    w.IsValid ∧ (Draft.ofWorkflow w).defects = #[] ∧ (Draft.ofWorkflow w).nodes = g.nodes ∧
      (Draft.ofWorkflow w).edges = g.edges := by
  have htells := Draft.tells_ofWorkflow w
  rw [Graph.ofWorkflow, Draft.graph_eq_map htells.asserted, map_eq_ok_iff] at h
  obtain ⟨_, hverdict, rfl⟩ := h
  have hnone := Defects.verdict_eq_ok_iff.1 hverdict
  have hviolations := htells.defects_eq.symm.trans hnone
  exact ⟨w.violations_eq_nil_iff.1 hviolations, by simpa using hnone, rfl, rfl⟩

/-- The nodes are the declared ones, in their order. -/
lemma nodes_eq_of_ofWorkflow (h : Graph.ofWorkflow w = .ok g) :
    g.nodes.toList = w.nodes.zipIdx.map fun (n, i) => Node.ofDecl ⟨i⟩ n := by
  obtain ⟨hvalid, -, hnodes, -⟩ := exists_draft h
  rw [← hnodes, (Draft.tells_ofWorkflow w).nodes_eq, firstDeclared_eq_self hvalid.exeIds_nodup]

/-- A node is what is declared at its position. -/
lemma nodeAt_of_ofWorkflow (h : Graph.ofWorkflow w = .ok g) {id : NodeId} {node : Node} :
    g.nodeAt id = .ok node ↔ ∃ n, w.nodes[id.index]? = some n ∧ node = Node.ofDecl id n := by
  rw [nodeAt_eq_ok_iff, nodes_eq_of_ofWorkflow h, List.getElem?_map, List.getElem?_zipIdx]
  cases w.nodes[id.index]? with
  | none => simp
  | some n =>
    simp only [Option.map_some, Nat.zero_add, Option.some.injEq, exists_eq_left']
    exact eq_comm

lemma nodeCount_of_ofWorkflow (h : Graph.ofWorkflow w = .ok g) : g.nodeCount = w.nodes.length := by
  rw [nodeCount, Arena.size_eq_length, nodes_eq_of_ofWorkflow h]
  simp

/-- The edges read as the connections. -/
lemma forall₂_reads_of_ofWorkflow (h : Graph.ofWorkflow w = .ok g) :
    List.Forall₂ (fun e c => e.toWire.Reads g.nodes c) g.edges.toList (firsts w.connections) := by
  obtain ⟨hvalid, -, hnodes, hedges⟩ := exists_draft h
  exact hnodes ▸ hedges ▸ (Draft.mirrors_ofWorkflow hvalid).edges

/-- Reading several values succeeds with what each of them is read as. -/
lemma mapM_eq_ok_of_forall₂ {ε α β : Type} {f : α → Except ε β} {as : List α} {bs : List β}
    (h : List.Forall₂ (fun a b => f a = .ok b) as bs) : as.mapM f = .ok bs := by
  induction h with
  | nil => rfl
  | cons hfirst _ ih =>
    rw [List.mapM_cons, hfirst, ih]
    rfl

namespace WellFormed

lemma map_id_nodes (hg : g.WellFormed) :
    g.nodes.toList.map Node.id = (List.range g.nodeCount).map NodeId.mk := by
  rw [nodeCount, Arena.size_eq_length]
  exact map_eq_map_range hg.node_id

lemma map_id_edges (hg : g.WellFormed) :
    g.edges.toList.map Edge.id = (List.range g.edgeCount).map EdgeId.mk := by
  rw [edgeCount, Arena.size_eq_length]
  exact map_eq_map_range hg.edge_id

/-- Edges stand in the order of their numbers. -/
lemma pairwise_edges (hg : g.WellFormed) :
    g.edges.toList.Pairwise fun e f => e.id.index < f.id.index := by
  have hids : (g.edges.toList.map Edge.id).Pairwise fun a b => a.index < b.index := by
    rw [hg.map_id_edges, List.pairwise_map]
    exact List.pairwise_lt_range
  rwa [List.pairwise_map] at hids

/-- A node is found under its number. -/
lemma nodeAt_of_mem (hg : g.WellFormed) {node : Node} (hnode : node ∈ g.nodes.toList) :
    g.nodeAt node.id = .ok node := by
  obtain ⟨i, hi⟩ := List.mem_iff_getElem?.1 hnode
  rw [nodeAt_eq_ok_iff, hg.node_id i node hi]
  exact hi

/-- Every edge leaves one node. -/
lemma flatMap_leaving_perm (hg : g.WellFormed) :
    (g.nodes.toList.flatMap fun node => g.leaving node.id).Perm g.edges.toList := by
  refine (List.perm_ext_iff_of_nodup ?_ hg.edges_nodup).2 fun e => ?_
  · rw [List.nodup_flatMap]
    refine ⟨fun node hnode => hg.leaving_nodup (hg.nodeAt_of_mem hnode), ?_⟩
    have hids : (g.nodes.toList.map Node.id).Nodup := by
      rw [hg.map_id_nodes]
      exact List.nodup_range.map fun _ _ h => NodeId.mk.inj h
    refine (List.pairwise_map.1 hids).imp fun {n n'} hne e he he' => hne ?_
    rw [← (hg.mem_leaving_iff.1 he).2, (hg.mem_leaving_iff.1 he').2]
  · simp only [List.mem_flatMap, hg.mem_leaving_iff]
    constructor
    · rintro ⟨_, -, he, -⟩
      exact he
    · intro he
      obtain ⟨node, hnode, -⟩ := hg.exists_source he
      have hid := hg.id_of_nodeAt hnode
      exact ⟨node, List.mem_of_getElem? (nodeAt_eq_ok_iff.1 hnode), he, hid.symm⟩

end WellFormed

/-- Where nodes can be numbered, each one has the number under which it is enumerated. -/
lemma WellFormed.enumerate_nodes (hg : g.WellFormed) (hfew : g.nodeCount ≤ 2 ^ 32) :
    g.nodes.enumerate = g.nodes.toList.map fun node => (node.id, node) := by
  rw [nodeCount, Arena.size_eq_length] at hfew
  refine Arena.enumerate_eq_map fun i node hi => (hg.node_id i node hi).trans ?_
  have hlt := (List.getElem?_eq_some_iff.1 hi).1
  exact congrArg NodeId.mk (Nat.mod_eq_of_lt (Nat.lt_of_lt_of_le hlt hfew)).symm

/-- Where edges can be numbered, each one has the number under which it is enumerated. -/
lemma WellFormed.enumerate_edges (hg : g.WellFormed) (hfew : g.edgeCount ≤ 2 ^ 32) :
    g.edges.enumerate = g.edges.toList.map fun e => (e.id, e) := by
  rw [edgeCount, Arena.size_eq_length] at hfew
  refine Arena.enumerate_eq_map fun i e hi => (hg.edge_id i e hi).trans ?_
  have hlt := (List.getElem?_eq_some_iff.1 hi).1
  exact congrArg EdgeId.mk (Nat.mod_eq_of_lt (Nat.lt_of_lt_of_le hlt hfew)).symm

/-- Whether a graph is an image of a workflow, and its tables agree on it. -/
structure IsImage (g : Graph) (w : Workflow) : Prop where
  nodeCount : g.nodeCount = w.nodes.length
  /-- A node carries what is declared, under the number of its position. -/
  nodeAt : ∀ (i : Nat) (n : NodeDecl), w.nodes[i]? = some n →
    g.nodeAt ⟨i⟩ = .ok
      { id := ⟨i⟩
        exeId := n.exeId
        name := n.name.getD n.exeId
        inputs := n.inputs.toArray
        outputs := n.outputs.toArray
        isDriver := n.isDriver }
  exeIdAt : ∀ (i : Nat) (n : NodeDecl), w.nodes[i]? = some n → g.exeIdAt ⟨i⟩ = .ok n.exeId
  /-- A node is found by its execution id, and by no other. -/
  nodeId : ∀ (exeId : String) (i : Nat),
    g.nodeId exeId = .ok ⟨i⟩ ↔ ∃ n, w.nodes[i]? = some n ∧ n.exeId = exeId
  edgeAt : ∀ (id : EdgeId) (e : Edge), g.edgeAt id = .ok e → e.id = id
  /-- The edges read as the connections that are not declared before. -/
  readings : (g.edges.toList.mapM fun e => g.readWire e.toWire) = .ok (firsts w.connections)
  /-- The edges leaving an output are filed under it, in the order of their numbers. -/
  pairwise_outgoing : ∀ (id : NodeId) (output : PortIdx),
    (g.outgoing id output).Pairwise fun e f => e.id.index < f.id.index
  mem_outgoing : ∀ (id : NodeId) (output : PortIdx) (edge : EdgeId),
    edge ∈ (g.outgoing id output).map Edge.id ↔
      ∃ e, g.edgeAt edge = .ok e ∧ e.source = id ∧ e.output = output
  /-- The edges leaving a node are those leaving its outputs, one output after the other. -/
  leaving : ∀ (id : NodeId) (node : Node), g.nodeAt id = .ok node →
    g.leaving id = node.outputIdxs.flatMap (g.outgoing id)
  /-- Every edge leaves one node. -/
  leaving_perm : ((g.nodes.toList.flatMap fun node => g.leaving node.id).map Edge.id).Perm
    ((List.range g.edgeCount).map EdgeId.mk)
  /-- As long as 32 bits are enough, nodes and edges are enumerated by their numbers. -/
  enumerate_nodes : w.nodes.length ≤ 2 ^ 32 →
    g.nodes.enumerate = g.nodes.toList.map fun node => (node.id, node)
  enumerate_edges : w.connections.length ≤ 2 ^ 32 →
    g.edges.enumerate = g.edges.toList.map fun e => (e.id, e)

/-- A graph is an image of the workflow that it is built from. What is told on the way are the
connections that are declared again, and then the size of the graph. -/
theorem isImage_ofWorkflow (hbuilt : Graph.ofWorkflow w = .ok g) :
    g.IsImage w ∧
    (Draft.ofWorkflow w).fullLog
      = ((repetitions w.connections).map fun c =>
          ⟨.warn, "Ignoring duplicate connection " ++ c.label⟩)
        ++ [⟨.debug, "Built workflow graph with " ++ toString w.nodes.length ++ " nodes and "
            ++ toString (firsts w.connections).length ++ " edges"⟩] := by
  have hg := wellFormed_ofWorkflow hbuilt
  obtain ⟨hvalid, hnone, hnodes, hedges⟩ := exists_draft hbuilt
  have hreads := forall₂_reads_of_ofWorkflow hbuilt
  have hnodeCount := nodeCount_of_ofWorkflow hbuilt
  have hedgeCount : g.edgeCount = (firsts w.connections).length := by
    rw [edgeCount, Arena.size_eq_length, hreads.length_eq]
  have hdecl : ∀ (i : Nat) (n : NodeDecl), w.nodes[i]? = some n →
      g.nodeAt ⟨i⟩ = .ok (Node.ofDecl ⟨i⟩ n) :=
    fun i n hn => (nodeAt_of_ofWorkflow hbuilt).2 ⟨n, hn, rfl⟩
  have hedge : ∀ {edge : EdgeId} {e : Edge}, g.edgeAt edge = .ok e →
      e ∈ g.edges.toList ∧ e.id = edge := by
    intro edge e he
    rw [edgeAt, orFault_eq_ok_iff, Arena.get?_eq_getElem?] at he
    exact ⟨List.mem_of_getElem? he, hg.edge_id edge.index e he⟩
  constructor
  · constructor
    case nodeCount => exact hnodeCount
    case nodeAt => exact hdecl
    case exeIdAt => exact fun i n hn => hg.exeIdAt_of_nodeAt (hdecl i n hn)
    case nodeId =>
      intro exeId i
      rw [hg.nodeId_eq_ok_iff]
      constructor
      · intro hid
        obtain ⟨node, hnode, hexeId⟩ := hg.exists_nodeAt_of_exeIdAt hid
        obtain ⟨n, hn, rfl⟩ := (nodeAt_of_ofWorkflow hbuilt).1 hnode
        exact ⟨n, hn, hexeId⟩
      · rintro ⟨n, hn, rfl⟩
        exact hg.exeIdAt_of_nodeAt (hdecl i n hn)
    case edgeAt => exact fun id e he => (hedge he).2
    case readings => exact mapM_eq_ok_of_forall₂ (hreads.imp fun e c h => readWire_eq_ok_iff.2 h)
    case pairwise_outgoing =>
      intro id output
      rw [hg.outgoing_eq_filter]
      exact hg.pairwise_edges.filter _
    case mem_outgoing =>
      intro id output edge
      rw [List.mem_map]
      constructor
      · rintro ⟨e, he, rfl⟩
        obtain ⟨hthere, hleaves⟩ := hg.mem_outgoing_iff.1 he
        exact ⟨e, hg.edgeAt_eq_ok hthere, hleaves⟩
      · rintro ⟨e, he, hleaves⟩
        obtain ⟨hthere, hid⟩ := hedge he
        exact ⟨e, hg.mem_outgoing_iff.2 ⟨hthere, hleaves⟩, hid⟩
    case leaving =>
      intro id node hnode
      rw [hg.leaving_eq_flatMap hnode, Node.outputIdxs, List.flatMap_map]
      refine List.flatMap_congr fun i hi => ?_
      have hfits := hg.portsFit_of_nodeAt hnode
      have hposition : PortIdx.ofNat i = ⟨i⟩ :=
        congrArg PortIdx.mk (hfits.index_ofNat .output (List.mem_range.1 hi))
      rw [hposition]
    case leaving_perm =>
      rw [← hg.map_id_edges]
      exact hg.flatMap_leaving_perm.map Edge.id
    case enumerate_nodes => exact fun hfew => hg.enumerate_nodes (hnodeCount ▸ hfew)
    case enumerate_edges =>
      intro hfew
      refine hg.enumerate_edges ?_
      rw [hedgeCount]
      exact (length_firsts_le _).trans hfew
  · have hsizes : (Draft.ofWorkflow w).nodes.size = w.nodes.length ∧
        (Draft.ofWorkflow w).edges.size = (firsts w.connections).length := by
      rw [hnodes, hedges]
      exact ⟨hnodeCount, hedgeCount⟩
    rw [Draft.fullLog, (Draft.mirrors_ofWorkflow hvalid).log, hnone, hsizes.1, hsizes.2]
    rfl

end Graph

/-- A worker in the loop of a driver. The connection from the driver to the worker is declared twice. -/
def Workflow.doubled : Workflow where
  nodes := [
    { exeId := "work", inputs := [⟨"i", "in"⟩], outputs := [⟨"o", "out"⟩] },
    { exeId := "driver", inputs := [⟨"i", "in"⟩], outputs := [⟨"o", "out"⟩], isDriver := true }]
  connections := [
    ⟨⟨"driver", "o", .same⟩, ⟨"work", "i", .same⟩⟩,
    ⟨⟨"work", "o", .same⟩, ⟨"driver", "i", .same⟩⟩,
    ⟨⟨"driver", "o", .same⟩, ⟨"work", "i", .same⟩⟩]

/-- The graph of the loop with a repeated connection. -/
def Graph.doubled : Graph :=
  match Graph.ofWorkflow .doubled with
  | .ok g => g
  | .error _ => ⟨{}, {}, {}, {}⟩

theorem Graph.ofWorkflow_doubled : Graph.ofWorkflow .doubled = .ok .doubled := by
  obtain ⟨g, hg⟩ := exists_ok_of_isOk (x := Graph.ofWorkflow .doubled) (by decide +kernel)
  rw [Graph.doubled, hg]

/-- The connection that is declared again makes no edge of its own, and is told. -/
theorem Graph.isImage_ofWorkflow_doubled :
    Graph.ofWorkflow .doubled = .ok .doubled ∧ Graph.doubled.IsImage .doubled ∧
    firsts Workflow.doubled.connections
      = [⟨⟨"driver", "o", .same⟩, ⟨"work", "i", .same⟩⟩,
        ⟨⟨"work", "o", .same⟩, ⟨"driver", "i", .same⟩⟩] ∧
    (Draft.ofWorkflow .doubled).fullLog
      = [⟨.warn, "Ignoring duplicate connection driver:o (same) -> work:i (same)"⟩,
        ⟨.debug, "Built workflow graph with 2 nodes and 2 edges"⟩] := by
  obtain ⟨himage, hlog⟩ := Graph.isImage_ofWorkflow Graph.ofWorkflow_doubled
  refine ⟨Graph.ofWorkflow_doubled, himage, by decide, hlog.trans ?_⟩
  decide

end WorkflowLoops

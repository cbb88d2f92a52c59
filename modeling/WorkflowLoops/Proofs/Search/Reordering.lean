import Mathlib
import WorkflowLoops.Analysis
import WorkflowLoops.Proofs.Search.Pace
import WorkflowLoops.Proofs.Search.Renaming

/-!
# The order of declarations does not matter

The searches go through edges in the order of their numbers, and these follow the order in which a
workflow declares its nodes, ports and connections. What is answered is told by routes, loops and walks
out of a loop alone, and a renaming takes these from the graph of one order to that of another one. So
the answers are the same but for the order of the paths listed, and for the drivers that are named where
several are in conflict (`Analysis.answers_alike`).

To compare paths of two graphs they are read: each hop as the connection that it goes along
(`Graph.readPath`).
-/

namespace WorkflowLoops

/-! ## Alike answers -/

/-- The connection that a hop goes along, with the roles of its edge. -/
def Graph.readHop (g : Graph) (h : Hop) : Except Error Connection := do
  let e ← g.edgeAt h.edge
  g.readWire ⟨h.source, h.output, e.sourceRole, h.target, h.input, e.targetRole⟩

/-- The connections that a path goes along. -/
def Graph.readPath (g : Graph) (p : Path) : Except Error (List Connection) := p.hops.mapM g.readHop

/-- Errors that are the same, but for the drivers that are named where drivers are in conflict. -/
inductive Error.Alike : Error → Error → Prop
  | refl (e : Error) : Alike e e
  | conflict (node first second first' second' : String) :
    Alike (.malformed (.conflictingDrivers node first second))
      (.malformed (.conflictingDrivers node first' second'))

/-- Answers that are alike: related results, or errors that are alike. -/
inductive Alike {α β : Type} (R : α → β → Prop) : Except Error α → Except Error β → Prop
  | ok {a : α} {b : β} (h : R a b) : Alike R (.ok a) (.ok b)
  | error {e e' : Error} (h : e.Alike e') : Alike R (.error e) (.error e')

/-- Listings for two graphs that have the same names, and under each name paths that read the same, each
as often in the one as in the other. -/
structure Listing.ReadsAlike {α : Type} (path : α → Path) (g g' : Graph) (l l' : Listing α) :
    Prop where
  names : l.keys.Perm l'.keys
  paths : ∀ (name : String) (xs xs' : List α), l[name]? = some xs → l'[name]? = some xs' →
    ∃ read read', (xs.map path).mapM g.readPath = .ok read ∧
      (xs'.map path).mapM g'.readPath = .ok read' ∧ read.Perm read'

/-- What goes on alike from alike answers ends in alike answers. -/
lemma alike_andThen {α β γ δ : Type} {R : α → β → Prop} {S : γ → δ → Prop} {r : Report α}
    {r' : Report β} {f : α → Report γ} {f' : β → Report δ} (h : Alike R r.result r'.result)
    (hf : ∀ a b, R a b → Alike S (f a).result (f' b).result) :
    Alike S (r.andThen f).result (r'.andThen f').result := by
  rw [Report.andThen, Report.andThen]
  generalize r.result = x, r'.result = x' at h
  cases h with
  | ok hab => exact hf _ _ hab
  | error he => exact .error he

/-! ## Readings -/

namespace Graph

variable {g g' : Graph}

/-- The connections along a walk. -/
def readings (g : Graph) (w : List Edge) : List Connection :=
  w.filterMap fun e => (g.readWire e.toWire).toOption

/-- A path along edges of a graph reads as their connections. -/
lemma WellFormed.readPath_ofEdges (hg : g.WellFormed) {w : List Edge}
    (hw : ∀ e ∈ w, e ∈ g.edges.toList) : g.readPath (.ofEdges w) = .ok (g.readings w) := by
  rw [readPath, Path.hops_ofEdges]
  induction w with
  | nil => rfl
  | cons e rest ih =>
    rw [List.forall_mem_cons] at hw
    obtain ⟨c, hc⟩ := hg.exists_reads hw.1
    have hwire := readWire_eq_ok_iff.2 hc
    have hhop : g.readHop e.hop = .ok c := bind_eq_ok_iff.2 ⟨e, hg.edgeAt_eq_ok hw.1, hwire⟩
    have hread : g.readings (e :: rest) = c :: g.readings rest := by
      rw [readings, List.filterMap_cons, hwire]
      rfl
    rw [List.map_cons, List.mapM_cons, hhop, ih hw.2, hread]
    rfl

/-- Paths along walks of a graph read as the connections along the walks. -/
lemma WellFormed.mapM_readPath (hg : g.WellFormed) {α : Type} {path : α → Path}
    {read : List Edge → α} (hpath : ∀ w, path (read w) = .ofEdges w)
    {walks : List (List Edge)} (hedges : ∀ w ∈ walks, ∀ e ∈ w, e ∈ g.edges.toList) :
    ((walks.map read).map path).mapM g.readPath = .ok (walks.map g.readings) := by
  refine mapM_eq_ok_of_forall₂ ?_
  rw [List.map_map, List.forall₂_map_left_iff, List.forall₂_map_right_iff, List.forall₂_same]
  intro w hw
  rw [Function.comp_apply, hpath]
  exact hg.readPath_ofEdges (hedges w hw)

namespace Renaming

/-- Whether a node is there, and renamed to another one. -/
def SameNode (ρ : Renaming g g') (id id' : NodeId) : Prop :=
  (∃ n, g.nodeAt id = .ok n) ∧ id' = ρ.node id

variable {ρ : Renaming g g'} (σ : Renaming g' g) {start : NodeId} {n : Node}

/-- A walk reads the same after renaming. -/
lemma readings_map_edge (hg : g.WellFormed) {w : List Edge} (hw : ∀ e ∈ w, e ∈ g.edges.toList) :
    g'.readings (w.map ρ.edge) = g.readings w := by
  rw [readings, readings, List.filterMap_map]
  refine List.filterMap_congr fun e he => ?_
  obtain ⟨c, hc⟩ := hg.exists_reads (hw e he)
  have hwire := readWire_eq_ok_iff.2 hc
  have hwire' := readWire_eq_ok_iff.2 (ρ.reads (hw e he) hc)
  rw [Function.comp_apply, hwire, hwire']

include σ

/-! ## Nodes -/

variable (ρ) in
/-- An execution id is found in both graphs or in none. -/
lemma alike_nodeId (hg : g.WellFormed) (hg' : g'.WellFormed) (exeId : String) :
    Alike ρ.SameNode (g.nodeId exeId) (g'.nodeId exeId) := by
  cases hid : g.nodeId exeId with
  | ok id =>
    obtain ⟨n, hn, -⟩ := hg.exists_nodeAt_of_exeIdAt (hg.nodeId_eq_ok_iff.1 hid)
    rw [ρ.nodeId hg hg' hid]
    exact .ok ⟨⟨n, hn⟩, rfl⟩
  | error err =>
    cases hid' : g'.nodeId exeId with
    | ok id' =>
      rw [σ.nodeId hg' hg hid'] at hid
      cases hid
    | error err' =>
      rw [eq_nodeNotFound_of_nodeId hid, eq_nodeNotFound_of_nodeId hid']
      exact .error (.refl _)

/-! ## Drivers -/

section Drivers

open Exploration

omit σ in
lemma exists_node_of_hits (hg : g.WellFormed) {d : NodeId} (h : Hits g start d) :
    ∃ n, g.nodeAt d = .ok n := by
  obtain ⟨exeId, hexeId⟩ := h.exists_exeIdAt hg
  obtain ⟨n, hn, -⟩ := hg.exists_nodeAt_of_exeIdAt hexeId
  exact ⟨n, hn⟩

/-- What renamed walks hit, walks hit before renaming. -/
lemma hits_back (hg : g.WellFormed) (hg' : g'.WellFormed) (hn : g.nodeAt start = .ok n)
    {d : NodeId} (h : Hits g' (ρ.node start) d) : Hits g start (σ.node d) ∧ ρ.node (σ.node d) = d := by
  have hback : Hits g (σ.node (ρ.node start)) (σ.node d) := hits ρ hg' hg h
  rw [ρ.node_node σ hg hn] at hback
  obtain ⟨m, hm⟩ := exists_node_of_hits hg' h
  exact ⟨hback, σ.node_node ρ hg' hm⟩

/-- Answers about the walks out of a loop before and after renaming are alike. -/
lemma alike_of_answers (hg : g.WellFormed) (hg' : g'.WellFormed) (hn : g.nodeAt start = .ok n)
    {name : String} {result result' : Except Error NodeId} (h : Answers g start name result)
    (h' : Answers g' (ρ.node start) name result') : Alike ρ.SameNode result result' := by
  have hnone : (∀ d, ¬ Hits g start d) → ∀ d, ¬ Hits g' (ρ.node start) d :=
    fun hnone d hd => hnone _ (hits_back σ hg hg' hn hd).1
  have hcircles : Circles g' (ρ.node start) → Circles g start := by
    intro hc
    have hback : Circles g (σ.node (ρ.node start)) := circles ρ hg' hg hc
    rwa [ρ.node_node σ hg hn] at hback
  rcases h.cases with ⟨d, rfl, hone⟩ | ⟨first, second, rfl, d, d', hd, hd', hne⟩ |
    ⟨rfl, hno, hcircle⟩ | ⟨rfl, hno, hends⟩
  · have hd := (hone d).2 rfl
    have hone' : ∀ d', Hits g' (ρ.node start) d' ↔ d' = ρ.node d := by
      intro d'
      constructor
      · intro hd'
        obtain ⟨hback, hround⟩ := hits_back σ hg hg' hn hd'
        rw [← hround, (hone _).1 hback]
      · rintro rfl
        exact hits σ hg hg' hd
    rw [(h'.driver _).2 hone']
    exact .ok ⟨exists_node_of_hits hg hd, rfl⟩
  · have hne' : ρ.node d ≠ ρ.node d' := by
      intro heq
      obtain ⟨m, hm⟩ := exists_node_of_hits hg hd
      obtain ⟨m', hm'⟩ := exists_node_of_hits hg hd'
      exact hne (by rw [← ρ.node_node σ hg hm, heq, ρ.node_node σ hg hm'])
    obtain ⟨name', first', second', heq⟩ := h'.conflict.2
      ⟨_, _, hits σ hg hg' hd, hits σ hg hg' hd', hne'⟩
    obtain ⟨rfl, -⟩ := h'.conflict_names _ _ _ heq
    rw [heq]
    exact .error (.conflict ..)
  · rw [(h'.driverless name).2 ⟨rfl, hnone hno, circles σ hg hg' hcircle⟩]
    exact .error (.refl _)
  · rw [(h'.noLoop name).2 ⟨rfl, hnone hno, fun hc => hends (hcircles hc)⟩]
    exact .error (.refl _)

omit σ in
/-- Under the limits that follow from the size of a graph, an answer is what the walks say. -/
lemma answers_resolveDriver (hg : g.WellFormed) (hn : g.nodeAt start = .ok n) :
    Answers g start n.exeId (g.resolveDriver (.ofGraph g) start).result := by
  rcases answers_or_stepLimit hg hn (.ofGraph g) with hanswers | ⟨limit, herr⟩
  · exact hanswers
  · exact absurd herr (resolveDriver_ne_stepLimit hg (Limits.edgeCount_lt g))

theorem alike_resolveDriver (hg : g.WellFormed) (hg' : g'.WellFormed)
    (hn : g.nodeAt start = .ok n) :
    Alike ρ.SameNode (g.resolveDriver (.ofGraph g) start).result
      (g'.resolveDriver (.ofGraph g') (ρ.node start)).result := by
  obtain ⟨n', hn', hsame⟩ := ρ.nodeAt hn
  refine alike_of_answers σ hg hg' hn (answers_resolveDriver hg hn) ?_
  rw [hsame.exeId]
  exact answers_resolveDriver hg' hn'

end Drivers

/-! ## Paths -/

section Paths

variable {α : Type} {path : α → Path} {read : List Edge → α} {P P' : PortIdx → List Edge → Prop}
  {n' : Node} {listing listing' : Listing α}

/-- Listings of walks that are taken to each other by renaming read alike. -/
lemma readsAlike (hg : g.WellFormed) (hg' : g'.WellFormed) (hn : g.nodeAt start = .ok n)
    (hn' : g'.nodeAt (ρ.node start) = .ok n') (hpath : ∀ w, path (read w) = .ofEdges w)
    (h : listing.Enumerates g n read P) (h' : listing'.Enumerates g' n' read P')
    (hmem : ∀ output w, P output w → ∀ e ∈ w, e ∈ g.edges.toList)
    (hmem' : ∀ output w, P' output w → ∀ e ∈ w, e ∈ g'.edges.toList)
    (hto : ∀ output output' w, ρ.SameOutput start output output' → P output w →
      P' output' (w.map ρ.edge))
    (hback : ∀ output output' w, ρ.SameOutput start output output' → P' output' w →
      P output (w.map σ.edge)) :
    listing.ReadsAlike path g g' listing' := by
  constructor
  case names =>
    obtain ⟨renamed, hrenamed, hsame⟩ := ρ.nodeAt hn
    obtain rfl := Except.ok.inj (hn'.symm.trans hrenamed)
    have hnames := (hsame.ports .output).map Port.name
    exact h.keys_perm.trans (hnames.trans h'.keys_perm.symm)
  case paths =>
    intro name xs xs' hxs hxs'
    obtain ⟨i, port, hport, rfl⟩ := h.exists_output hxs
    obtain ⟨renamed, j, hrenamed, hport', hsame⟩ := ρ.exists_sameOutput hn hport
    obtain rfl := Except.ok.inj (hn'.symm.trans hrenamed)
    obtain ⟨walks, hget, hwalks, hnodup, -⟩ := h.entry i port hport
    obtain ⟨walks', hget', hwalks', hnodup', -⟩ := h'.entry j port hport'
    obtain rfl := Option.some.inj (hxs.symm.trans hget)
    obtain rfl := Option.some.inj (hxs'.symm.trans hget')
    have hedges : ∀ w ∈ walks, ∀ e ∈ w, e ∈ g.edges.toList :=
      fun w hw => hmem _ w ((hwalks w).1 hw)
    have hedges' : ∀ w ∈ walks', ∀ e ∈ w, e ∈ g'.edges.toList :=
      fun w hw => hmem' _ w ((hwalks' w).1 hw)
    -- the walks listed in the one graph are renamed to those listed in the other one
    have hperm : (walks.map (List.map ρ.edge)).Perm walks' := by
      refine (List.perm_ext_iff_of_nodup ?_ hnodup'.of_map).2 fun w' => ?_
      · exact hnodup.of_map.map_on fun v hv w hw =>
          map_edge_injOn σ hg (hedges v hv) (hedges w hw)
      · rw [List.mem_map]
        constructor
        · rintro ⟨w, hw, rfl⟩
          exact (hwalks' _).2 (hto _ _ w hsame ((hwalks w).1 hw))
        · intro hw'
          refine ⟨w'.map σ.edge, (hwalks _).2 (hback _ _ w' hsame ((hwalks' w').1 hw')), ?_⟩
          exact map_edge_map_edge ρ hg' (hedges' w' hw')
    have hreadings : (walks.map (List.map ρ.edge)).map g'.readings = walks.map g.readings := by
      rw [List.map_map]
      exact List.map_congr_left fun w hw => readings_map_edge hg (hedges w hw)
    refine ⟨walks.map g.readings, walks'.map g'.readings, hg.mapM_readPath hpath hedges,
      hg'.mapM_readPath hpath hedges', ?_⟩
    rw [← hreadings]
    exact hperm.map _

end Paths

/-! ## Queries -/

variable (ρ)

include ρ

theorem alike_loopDriverOf (hg : g.WellFormed) (hg' : g'.WellFormed) (exeId : String) :
    Alike (fun d d' => d.exeId = d'.exeId) (g.loopDriverOf (.ofGraph g) exeId).result
      (g'.loopDriverOf (.ofGraph g') exeId).result := by
  have hresolve : Alike ρ.SameNode
      ((Report.quiet (g.nodeId exeId)).andThen (g.resolveDriver (.ofGraph g))).result
      ((Report.quiet (g'.nodeId exeId)).andThen (g'.resolveDriver (.ofGraph g'))).result := by
    refine alike_andThen (ρ.alike_nodeId σ hg hg' exeId) ?_
    rintro start _ ⟨⟨n, hn⟩, rfl⟩
    exact alike_resolveDriver σ hg hg' hn
  refine alike_andThen hresolve ?_
  rintro d _ ⟨⟨n, hn⟩, rfl⟩
  obtain ⟨n', hn', hsame⟩ := ρ.nodeAt hn
  simp only [Report.quiet, hn, hn']
  exact .ok hsame.exeId

omit ρ in
/-- A trail that exhausts a graph is renamed to one that does. -/
lemma exhausts {ρ : Renaming g g'} (hg : g.WellFormed) (hg' : g'.WellFormed)
    (hn : g.nodeAt start = .ok n) {output : PortIdx} {w : List Edge}
    (h : Failure.Exhausts g start output w) :
    ∃ output', Failure.Exhausts g' (ρ.node start) output' (w.map ρ.edge) := by
  obtain ⟨first, -, hopens⟩ := h.opens
  obtain ⟨port, hport⟩ := hg.exists_port_of_opens hn hopens
  obtain ⟨n', j, -, -, hsame⟩ := ρ.exists_sameOutput hn hport
  have hpos := WellFormed.nodeCount_pos hn
  have hlength := h.length_eq
  refine ⟨⟨j⟩, (isTrail σ hg hg' hsame h.toIsTrail).exhausts hg' ?_⟩
  rw [List.length_map, ← ρ.nodeCount]
  omega

theorem alike_failurePlan (hg : g.WellFormed) (hg' : g'.WellFormed) (hn : g.nodeAt start = .ok n)
    (stop : StopRule) :
    Alike (Listing.ReadsAlike id g g') (Failure.plan g (.ofGraph g) stop false start).result
      (Failure.plan g' (.ofGraph g') stop false (ρ.node start)).result := by
  obtain ⟨n', hn', hsame⟩ := ρ.nodeAt hn
  have hround := ρ.node_node σ hg hn
  cases hplan : (Failure.plan g (.ofGraph g) stop false start).result with
  | error err =>
    obtain ⟨rfl, rfl, output, w, hw⟩ := (Failure.plan_eq_error_iff hg hn).1 hplan
    obtain ⟨output', hw'⟩ := exhausts σ hg hg' hn hw
    rw [(Failure.plan_eq_error_iff hg' hn').2 ⟨rfl, rfl, output', _, hw'⟩, hsame.exeId, ρ.nodeCount]
    exact .error (.refl _)
  | ok listing =>
    cases hplan' : (Failure.plan g' (.ofGraph g') stop false (ρ.node start)).result with
    | error err =>
      obtain ⟨rfl, rfl, output', w, hw⟩ := (Failure.plan_eq_error_iff hg' hn').1 hplan'
      obtain ⟨output, hw'⟩ := exhausts ρ hg' hg hn' hw
      rw [hround] at hw'
      rw [(Failure.plan_eq_error_iff hg hn).2 ⟨rfl, rfl, output, _, hw'⟩] at hplan
      cases hplan
    | ok listing' =>
      obtain ⟨m, hm, hlists⟩ := Failure.enumerates_of_plan hg hplan
      obtain ⟨m', hm', hlists'⟩ := Failure.enumerates_of_plan hg' hplan'
      obtain rfl := Except.ok.inj (hn.symm.trans hm)
      obtain rfl := Except.ok.inj (hn'.symm.trans hm')
      refine .ok (readsAlike σ hg hg' hn hn' (fun _ => rfl) hlists hlists' ?_ ?_ ?_ ?_)
      · exact fun _ _ h => h.toIsWalk.mem_edges hg
      · exact fun _ _ h => h.toIsWalk.mem_edges hg'
      · exact fun _ _ _ hs h => isRoute σ hg hg' hs h
      · intro output output' w hs h
        have hback := isRoute ρ hg' hg (hs.symm σ hg) h
        rwa [hround] at hback

theorem alike_resetPlan (hg : g.WellFormed) (hg' : g'.WellFormed) (hn : g.nodeAt start = .ok n) :
    Alike (Listing.ReadsAlike Cycle.path g g') (Reset.plan g (.ofGraph g) start).result
      (Reset.plan g' (.ofGraph g') (ρ.node start)).result := by
  obtain ⟨n', hn', hsame⟩ := ρ.nodeAt hn
  have hround := ρ.node_node σ hg hn
  cases hdriver : n.isDriver with
  | false =>
    rw [Reset.result_plan_of_not_isDriver hn hdriver,
      Reset.result_plan_of_not_isDriver hn' (hsame.isDriver ▸ hdriver), hsame.exeId]
    exact .error (.refl _)
  | true =>
    have hdriver' : n'.isDriver = true := hsame.isDriver ▸ hdriver
    have hkind := (kind_eq_driver_iff hn).2 hdriver
    have hkind' := (kind_eq_driver_iff hn').2 hdriver'
    obtain ⟨listing, hplan⟩ := Reset.exists_plan hg hn hdriver
    obtain ⟨listing', hplan'⟩ := Reset.exists_plan hg' hn' hdriver'
    rw [hplan, hplan']
    obtain ⟨m, hm, -, hlists⟩ := Reset.enumerates_of_plan hg hplan
    obtain ⟨m', hm', -, hlists'⟩ := Reset.enumerates_of_plan hg' hplan'
    obtain rfl := Except.ok.inj (hn.symm.trans hm)
    obtain rfl := Except.ok.inj (hn'.symm.trans hm')
    refine .ok (readsAlike σ hg hg' hn hn' (fun _ => rfl) hlists hlists' ?_ ?_ ?_ ?_)
    · exact fun _ _ h => h.mem_edges hg
    · exact fun _ _ h => h.mem_edges hg'
    · exact fun _ _ _ hs h => isLoop σ hg hg' hkind hs h
    · intro output output' w hs h
      have hback := isLoop ρ hg' hg hkind' (hs.symm σ hg) h
      rwa [hround] at hback

end Renaming

end Graph

/-! ## Analyses -/

namespace Analysis

/-- An analysis is that of the graph, with the settings given. -/
lemma eq_of_ofWorkflow {w : Workflow} {settings : Settings} {a : Analysis}
    (h : (ofWorkflow w settings).2 = .ok a) :
    Graph.ofWorkflow w = .ok a.graph ∧ a.settings = settings := by
  rw [ofWorkflow] at h
  cases hgraph : (Draft.ofWorkflow w).graph with
  | error err =>
    rw [hgraph] at h
    cases h
  | ok g =>
    rw [hgraph] at h
    obtain rfl := Except.ok.inj h
    exact ⟨hgraph, rfl⟩

/-- Under the default settings, with either stop rule, the order of declarations does not affect what is
answered: the same driver governs a node, and the routes of its failure and the cycles of its reset are
the same, each listed as often, when they are read as connections; or the errors are alike. -/
theorem answers_alike {w w' : Workflow} {stop : StopRule} {a a' : Analysis}
    (hreordered : w.Reordered w')
    (hbuilt : (ofWorkflow w { failureStop := stop }).2 = .ok a)
    (hbuilt' : (ofWorkflow w' { failureStop := stop }).2 = .ok a') (exeId : String) :
    Alike (fun d d' => d.exeId = d'.exeId) (a.loopDriverOf exeId).result
      (a'.loopDriverOf exeId).result ∧
    Alike (Listing.ReadsAlike id a.graph a'.graph) (a.failureRoutes exeId).result
      (a'.failureRoutes exeId).result ∧
    Alike (Listing.ReadsAlike Cycle.path a.graph a'.graph) (a.resetCycles exeId).result
      (a'.resetCycles exeId).result := by
  obtain ⟨g, settings⟩ := a
  obtain ⟨g', settings'⟩ := a'
  obtain ⟨hgraph, rfl⟩ := eq_of_ofWorkflow hbuilt
  obtain ⟨hgraph', rfl⟩ := eq_of_ofWorkflow hbuilt'
  obtain ⟨ρ⟩ := Graph.exists_renaming hreordered hgraph hgraph'
  obtain ⟨σ⟩ := Graph.exists_renaming hreordered.symm hgraph' hgraph
  have hg := Graph.wellFormed_ofWorkflow hgraph
  have hg' := Graph.wellFormed_ofWorkflow hgraph'
  refine ⟨ρ.alike_loopDriverOf σ hg hg' exeId, ?_, ?_⟩
  · refine alike_andThen (ρ.alike_nodeId σ hg hg' exeId) ?_
    rintro start _ ⟨⟨n, hn⟩, rfl⟩
    exact ρ.alike_failurePlan σ hg hg' hn stop
  · refine alike_andThen (ρ.alike_nodeId σ hg hg' exeId) ?_
    rintro start _ ⟨⟨n, hn⟩, rfl⟩
    exact ρ.alike_resetPlan σ hg hg' hn

end Analysis

/-- A workflow with all its declarations in the reverse order. -/
def Workflow.reversed (w : Workflow) : Workflow where
  nodes := w.nodes.reverse.map fun n =>
    { n with inputs := n.inputs.reverse, outputs := n.outputs.reverse }
  connections := w.connections.reverse

lemma Workflow.reordered_reversed (w : Workflow) : w.Reordered w.reversed where
  nodes := by
    refine ⟨w.nodes.reverse, (List.reverse_perm _).symm, ?_⟩
    rw [reversed, List.forall₂_map_right_iff, List.forall₂_same]
    refine fun n _ => ⟨rfl, rfl, rfl, fun side => ?_⟩
    cases side <;> exact (List.reverse_perm _).symm
  connections := (List.reverse_perm _).symm

/-- The loop within a loop may be declared from its end. -/
theorem Analysis.answers_alike_nestedLoops :
    Workflow.nestedLoops.Reordered Workflow.nestedLoops.reversed ∧
    ∃ a a', (ofWorkflow .nestedLoops { failureStop := .governingDriver }).2 = .ok a ∧
      (ofWorkflow Workflow.nestedLoops.reversed { failureStop := .governingDriver }).2 = .ok a' ∧
      Alike (fun d d' => d.exeId = d'.exeId) (a.loopDriverOf "work").result
        (a'.loopDriverOf "work").result ∧
      Alike (Listing.ReadsAlike id a.graph a'.graph) (a.failureRoutes "work").result
        (a'.failureRoutes "work").result ∧
      Alike (Listing.ReadsAlike Cycle.path a.graph a'.graph) (a.resetCycles "work").result
        (a'.resetCycles "work").result := by
  obtain ⟨a, ha⟩ := exists_ok_of_isOk
    (x := (ofWorkflow .nestedLoops { failureStop := .governingDriver }).2) (by decide +kernel)
  obtain ⟨a', ha'⟩ := exists_ok_of_isOk
    (x := (ofWorkflow Workflow.nestedLoops.reversed { failureStop := .governingDriver }).2)
    (by decide +kernel)
  have hreordered := Workflow.nestedLoops.reordered_reversed
  exact ⟨hreordered, a, a', ha, ha', answers_alike hreordered ha ha' "work"⟩

end WorkflowLoops

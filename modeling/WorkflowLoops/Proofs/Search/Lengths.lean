import Mathlib
import WorkflowLoops.Proofs.Failure.Routes
import WorkflowLoops.Proofs.Reset.Cycles
import WorkflowLoops.Proofs.Search.States
import WorkflowLoops.Proofs.Walk.Rules

/-!
# How long paths get

The limits that follow from the size of a graph allow two hops for each node. A reset enters no node
twice, and neither does a failure on its way to the sinks. On its way to the governing driver a failure
may enter a controller on each of two levels, and at its end once more by a broadcast. So a path gets
too long in one case only: if every node is a controller, and a trail goes through all of them on both
of their levels, the start among them, and then takes a broadcast (`pathTooLong_iff`). The graph
`Graph.hub` is such a case.
-/

namespace WorkflowLoops

/-! ## Trails and limits -/

namespace Guide

variable {G : Guide} {onPath : List Visit} {edges w : List Edge}

/-- A trail in a graph has at most as many hops as the graph has edges. -/
lemma IsTrail.length_le_edges (hnext : ∀ e ∈ edges, ∀ f ∈ G.next e, f ∈ edges) {first : Edge}
    (hhead : w.head? = some first) (hfirst : first ∈ edges) (h : G.IsTrail onPath w) :
    w.length ≤ edges.length :=
  h.nodup.length_le_of_subset (mem_of_isChain hnext h.goesOn hhead hfirst)

end Guide

namespace Survey

open Search

variable {G : Guide} {σ : Strategy} {edges : List Edge} {openings : List (String × List Edge)}
  {budget : Budget} {err : Error}

/-- With as many steps as a graph has edges, only a trail that is too long stops a survey. -/
theorem exists_trail_of_error (hσ : σ.KeepsTo G edges)
    (hjoin : ∀ e f, f ∈ G.next e → f.source = e.target)
    (hthere : ∀ opening ∈ openings, opening.2 ⊆ edges) (hfresh : budget.sinceEnd = 0)
    (hsteps : edges.length ≤ budget.limits.maxSteps) (h : (run σ budget openings).result = .error err) :
    err = .malformed (.pathTooLong budget.start budget.limits.maxPathLength) ∧
      ∃ opening ∈ openings, ∃ v, (∃ f ∈ opening.2, v.head? = some f) ∧
        G.IsTrail σ.rootVisits v ∧ budget.limits.maxPathLength < v.length := by
  obtain ⟨opening, hmem, hstops⟩ := stops_of_error hσ hjoin hthere hfresh h
  cases hstops with
  | @steps v hhead htrail hmore =>
    obtain ⟨f, hf, hhead⟩ := hhead
    have hshort := htrail.length_le_edges hσ.next_subset hhead (hthere opening hmem hf)
    omega
  | @length v hhead htrail hmore => exact ⟨rfl, opening, hmem, v, hhead, htrail, hmore⟩

/-- A search lists no path that is longer than a path may be. -/
lemma length_le_of_mem_found {s : Search}
    (hfound : ∀ p ∈ s.found, p.length ≤ s.budget.limits.maxPathLength) :
    ∀ p ∈ (iterate (Search.step σ) s).last.found, p.length ≤ s.budget.limits.maxPathLength := by
  refine (iterate_keeps (Search.step σ)
    (P := fun t => t.budget.limits = s.budget.limits ∧
      ∀ p ∈ t.found, p.length ≤ s.budget.limits.maxPathLength)
    (fun t u ht hstep => ?_) ⟨rfl, hfound⟩).2
  obtain ⟨hlimits, hfound⟩ := ht
  refine ⟨(budget_of_step hstep).1.trans hlimits, fun p hp => ?_⟩
  rcases step_cases hstep with ⟨visit, rest, -, rfl⟩ |
    ⟨visit, e, later, rest, -, -, path, -, hlength, move, -, rfl⟩
  · exact hfound p hp
  · cases move with
    | enter entered next => exact hfound p hp
    | finish keep =>
      cases keep with
      | false => exact hfound p hp
      | true =>
        rcases List.mem_cons.1 hp with rfl | hp
        · exact hlimits ▸ hlength
        · exact hfound p hp

/-- And neither does a survey. -/
theorem length_le_of_mem_listings {listing : String × List Path}
    (hmem : listing ∈ (run σ budget openings).listings.toList) {p : Path} (hp : p ∈ listing.2) :
    p.length ≤ budget.limits.maxPathLength := by
  induction openings using List.reverseRecOn with
  | nil => cases hmem
  | append_singleton before opening ih =>
    rw [run_concat] at hmem
    cases hbefore : (run σ budget before).result with
    | error err =>
      rw [advance_of_error hbefore] at hmem
      exact ih hmem
    | ok _ =>
      rw [advance_of_ok hbefore, Array.toList_push, List.mem_append, List.mem_singleton] at hmem
      rcases hmem with hold | rfl
      · exact ih hold
      · rw [← (budget_run σ budget before).1]
        -- nothing is listed when the search starts over
        refine length_le_of_mem_found (s := (run σ budget before).search.restart σ opening.2)
          (fun p hp => ?_) p (List.mem_reverse.1 hp)
        cases hp

end Survey

namespace Graph.WellFormed

variable {g : Graph} {w : List Edge}

lemma exists_node_target (hg : g.WellFormed) {e : Edge} (he : e ∈ g.edges.toList) :
    ∃ node ∈ g.nodes.toList, node.id = e.target := by
  obtain ⟨node, hnode, -⟩ := hg.exists_target he
  exact ⟨node, List.mem_of_getElem? (nodeAt_eq_ok_iff.1 hnode), hg.id_of_nodeAt hnode⟩

/-- A walk that enters no node twice has at most as many hops as there are nodes. -/
lemma length_le_nodeCount (hg : g.WellFormed) (hw : ∀ e ∈ w, e ∈ g.edges.toList)
    (hnodup : (w.map (·.target)).Nodup) : w.length ≤ g.nodeCount := by
  have hsub : w.map (·.target) ⊆ g.nodes.toList.map Node.id := by
    intro id hid
    obtain ⟨e, he, rfl⟩ := List.mem_map.1 hid
    obtain ⟨node, hnode, heq⟩ := hg.exists_node_target (hw e he)
    exact List.mem_map.2 ⟨node, hnode, heq⟩
  have hlength := hnodup.length_le_of_subset hsub
  rwa [List.length_map, List.length_map] at hlength

end Graph.WellFormed

/-! ## Failures -/

namespace Failure

/-- A trail of a failure that enters every node on both of its levels, the start among them, and then
takes a broadcast. -/
structure Exhausts (g : Graph) (start : NodeId) (output : PortIdx) (w : List Edge) : Prop
    extends IsTrail g .governingDriver start output w where
  controllers : ∀ node ∈ g.nodes.toList, g.isController node.id = true
  enters : ∀ node ∈ g.nodes.toList, ∀ role, role ≠ .inner →
    ∃ e ∈ w.dropLast, e.target = node.id ∧ e.targetRole = role
  broadcast : ∃ e, w.getLast? = some e ∧ e.targetRole = .inner
  length_eq : w.length = 2 * g.nodeCount + 1

variable {g : Graph} {stop : StopRule} {start : NodeId} {output : PortIdx} {w : List Edge}

/-- How the routes to the governing driver remember a node that they go on from. -/
def passingKeys (g : Graph) (node : Node) : List Visit :=
  if g.isController node.id = true then [⟨node.id, some .same⟩, ⟨node.id, some .outer⟩]
  else [⟨node.id, none⟩]

lemma length_flatMap_passingKeys_le (nodes : List Node) :
    (nodes.flatMap (passingKeys g)).length ≤ 2 * nodes.length := by
  induction nodes with
  | nil => simp
  | cons node rest ih =>
    rw [List.flatMap_cons, List.length_append, List.length_cons, passingKeys]
    split <;> simp only [List.length_cons, List.length_nil] <;> omega

/-- There are two keys for each node only if all nodes are controllers. -/
lemma isController_of_length_le {nodes : List Node}
    (h : 2 * nodes.length ≤ (nodes.flatMap (passingKeys g)).length) :
    ∀ node ∈ nodes, g.isController node.id = true := by
  induction nodes with
  | nil => simp
  | cons node rest ih =>
    have hrest := length_flatMap_passingKeys_le (g := g) rest
    rw [List.flatMap_cons, List.length_append, List.length_cons, passingKeys] at h
    rw [List.forall_mem_cons]
    by_cases hnode : g.isController node.id = true
    · rw [if_pos hnode] at h
      simp only [List.length_cons, List.length_nil] at h
      exact ⟨hnode, ih (by omega)⟩
    · rw [if_neg hnode] at h
      simp only [List.length_cons, List.length_nil] at h
      omega

/-- An edge that does not end in a broadcast is remembered by one of these keys. -/
lemma keyOf_mem_passingKeys (hg : g.WellFormed) {e : Edge} (he : e ∈ g.edges.toList)
    (hrole : e.targetRole ≠ .inner) :
    keyOf g .governingDriver e ∈ g.nodes.toList.flatMap (passingKeys g) := by
  obtain ⟨node, hnode, hid⟩ := hg.exists_node_target he
  refine List.mem_flatMap.2 ⟨node, hnode, ?_⟩
  rw [passingKeys, keyOf, hid]
  by_cases hcontroller : g.isController e.target = true
  · cases hlevel : e.targetRole with
    | inner => exact absurd hlevel hrole
    | same => simp [hcontroller]
    | outer => simp [hcontroller]
  · simp [hcontroller]

/-- On the way to the sinks no node is entered twice. -/
lemma IsTrail.length_le_of_sink (hg : g.WellFormed) (h : IsTrail g .sink start output w) :
    w.length ≤ max 1 g.nodeCount := by
  rcases h.simple with hone | hnodup
  · omega
  · have hkeys : w.map (keyOf g .sink) = (w.map (·.target)).map fun id => ⟨id, none⟩ := by
      rw [List.map_map]
      refine List.map_congr_left fun e _ => ?_
      simp [keyOf]
    have htargets : (w.map (·.target)).Nodup := by
      rw [List.nodup_cons, hkeys] at hnodup
      exact hnodup.2.of_map
    have hlength := hg.length_le_nodeCount (h.toIsWalk.mem_edges hg) htargets
    omega

/-- On the way to the governing driver a trail is short enough, or it exhausts the graph. -/
theorem IsTrail.exhausts (hg : g.WellFormed) (h : IsTrail g .governingDriver start output w)
    (hlong : max 1 (2 * g.nodeCount) < w.length) : Exhausts g start output w := by
  have hedges := h.toIsWalk.mem_edges hg
  obtain ⟨init, last, rfl⟩ : ∃ init last, w = init ++ [last] := by
    refine ⟨w.dropLast, w.getLast (List.ne_nil_of_length_pos (by omega)), ?_⟩
    rw [List.dropLast_append_getLast]
  rw [List.length_append, List.length_singleton] at hlong
  -- all edges but the last are remembered by different keys among those of the nodes
  have hrole : ∀ e ∈ init, e.targetRole ≠ .inner := by
    have hpasses := Graph.targetRole_ne_inner_of_isChain h.goesOn
    rwa [List.dropLast_concat] at hpasses
  have hsub : init.map (keyOf g .governingDriver) ⊆ g.nodes.toList.flatMap (passingKeys g) := by
    intro key hkey
    obtain ⟨e, he, rfl⟩ := List.mem_map.1 hkey
    exact keyOf_mem_passingKeys hg (hedges e (List.mem_append_left _ he)) (hrole e he)
  have hsimple := h.simple
  rw [List.length_append, List.length_singleton, List.nodup_cons, List.map_append,
    List.nodup_append'] at hsimple
  obtain ⟨-, hnodup, -, hlast⟩ := hsimple.resolve_left (by omega)
  have hcount : g.nodeCount = g.nodes.toList.length := Arena.size_eq_length g.nodes
  have hsubperm := hnodup.subperm hsub
  have hinit := hsubperm.length_le
  have hkeys := length_flatMap_passingKeys_le (g := g) g.nodes.toList
  rw [List.length_map] at hinit
  -- so there is room for them only if each node has two keys, and then each key is used
  have hperm := hsubperm.perm_of_length_le (by rw [List.length_map]; omega)
  have hroom : 2 * g.nodes.toList.length ≤ (g.nodes.toList.flatMap (passingKeys g)).length := by
    omega
  have hcontrollers := isController_of_length_le hroom
  refine { h with controllers := hcontrollers, enters := ?_, broadcast := ?_, length_eq := ?_ }
  · intro node hnode role hinner
    have hkey : ⟨node.id, some role⟩ ∈ g.nodes.toList.flatMap (passingKeys g) := by
      refine List.mem_flatMap.2 ⟨node, hnode, ?_⟩
      rw [passingKeys, if_pos (hcontrollers node hnode)]
      cases role with
      | inner => exact absurd rfl hinner
      | same => simp
      | outer => simp
    obtain ⟨e, he, heq⟩ := List.mem_map.1 (hperm.mem_iff.2 hkey)
    obtain ⟨htarget, hvia⟩ := Visit.mk.inj heq
    rw [htarget, if_pos ⟨rfl, hcontrollers node hnode⟩] at hvia
    rw [List.dropLast_concat]
    exact ⟨e, he, htarget, Option.some.inj hvia⟩
  · refine ⟨last, List.getLast?_concat, ?_⟩
    by_contra hinner
    have hkey := keyOf_mem_passingKeys hg (hedges last (by simp)) hinner
    exact hlast (hperm.mem_iff.2 hkey) (by simp)
  · rw [List.length_append, List.length_singleton]
    omega

end Failure

/-! ## Plans -/

namespace Graph.WellFormed

variable {g : Graph}

lemma source_eq_of_mem_onward (hg : g.WellFormed) {walk : Walk} {e f : Edge}
    (h : f ∈ g.onward walk (.after e)) : f.source = e.target :=
  (hg.goesOn_mem_edges (mem_onward_iff.1 h)).2

lemma nodeCount_pos {start : NodeId} {node : Node} (hnode : g.nodeAt start = .ok node) :
    0 < g.nodeCount := by
  have hlt := (List.getElem?_eq_some_iff.1 (nodeAt_eq_ok_iff.1 hnode)).1
  rw [nodeCount, Arena.size_eq_length]
  omega

end Graph.WellFormed

/-- The steps that the size of a graph allows are more than the edges of the graph. -/
lemma Limits.edgeCount_lt (g : Graph) : g.edgeCount < (Limits.ofGraph g).maxSteps :=
  Nat.le_mul_of_pos_left _ (Nat.succ_pos _)

lemma Limits.length_edges_le (g : Graph) : g.edges.toList.length ≤ (Limits.ofGraph g).maxSteps := by
  rw [← Arena.size_eq_length]
  exact Nat.le_of_lt (edgeCount_lt g)

namespace Failure

variable {g : Graph} {stop : StopRule} {start : NodeId} {dedup : Bool} {node : Node}

/-- The plan of a failure holds a path that is too long exactly where a trail exhausts the graph. -/
theorem plan_eq_pathTooLong_iff (hg : g.WellFormed) (hnode : g.nodeAt start = .ok node)
    {name : String} {limit : Nat} :
    (plan g (.ofGraph g) stop dedup start).result = .error (.malformed (.pathTooLong name limit)) ↔
      stop = .governingDriver ∧ name = node.exeId ∧ limit = 2 * g.nodeCount ∧
        ∃ output w, Exhausts g start output w := by
  obtain ⟨openings, hopenings⟩ := Graph.WellFormed.exists_openings stop.walk hnode
  have hpos := Graph.WellFormed.nodeCount_pos hnode
  have hmax : (Limits.ofGraph g).maxPathLength = 2 * g.nodeCount := by
    show max 1 (2 * g.nodeCount) = 2 * g.nodeCount
    omega
  have herror : ∀ err, (Survey.run (strategy g stop start)
      { start := node.exeId, limits := .ofGraph g } openings).result = .error err → _ := fun err =>
    Survey.exists_trail_of_error (keepsTo_guide hg start)
      (fun e f hf => hg.source_eq_of_mem_onward hf) (hg.openings_subset hnode hopenings) rfl
      (Limits.length_edges_le g)
  rw [result_plan hnode hopenings, map_eq_error_iff]
  constructor
  · intro h
    obtain ⟨herr, opening, hmem, v, ⟨f, hf, hhead⟩, hguided, hmore⟩ := herror _ h
    obtain ⟨rfl, rfl⟩ : name = node.exeId ∧ limit = (Limits.ofGraph g).maxPathLength := by
      simpa using herr
    obtain ⟨output, hopens⟩ := hg.exists_output_of_mem_openings hnode hopenings hmem
    have htrail : IsTrail g stop start output v := isTrail_iff.2 ⟨⟨f, hhead, hopens f hf⟩, hguided⟩
    cases stop with
    | sink =>
      have hshort := htrail.length_le_of_sink hg
      have hlong : max 1 (2 * g.nodeCount) < v.length := hmore
      omega
    | governingDriver => exact ⟨rfl, rfl, hmax, output, v, htrail.exhausts hg hmore⟩
  · rintro ⟨rfl, rfl, rfl, output, w, hw⟩
    cases hrun : (Survey.run (strategy g .governingDriver start)
        { start := node.exeId, limits := .ofGraph g } openings).result with
    | error err =>
      rw [(herror err hrun).1, ← hmax]
    | ok _ =>
      -- without an error, a route that goes on from the trail would be listed
      obtain ⟨⟨first, hhead, hopens⟩, hguided⟩ := isTrail_iff.1 hw.toIsTrail
      have hthere := hopens.1
      obtain ⟨port, hport⟩ := hg.exists_port_of_opens hnode hopens
      have hrank : ∀ e ∈ g.edges.toList, ((guide g .governingDriver).next e).Pairwise
          fun f f' => g.position f < g.position f' := fun e _ => hg.pairwise_onward (.after e)
      obtain ⟨trails, hlisted, htrails, -⟩ := Survey.exists_listing hg (keepsTo_guide hg start) hrank
        hnode hopenings hrun hport
      obtain ⟨rest, hfull⟩ := Guide.exists_isFullTrail (keepsTo_guide hg start).next_subset hhead
        hthere hguided
      have hstarts : (w ++ rest).head? = some first := by
        rw [List.head?_append, hhead]
        rfl
      have hne : w ++ rest ≠ [] := by
        intro hnil
        rw [hnil] at hstarts
        cases hstarts
      have hmem : w ++ rest ∈ trails := (htrails _).2
        ⟨⟨first, hstarts, hopens⟩, hfull, _, List.getLast?_eq_some_getLast hne, rfl⟩
      have hshort := Survey.length_le_of_mem_listings hlisted (List.mem_map_of_mem hmem)
      have hlength : (Path.ofEdges (w ++ rest)).length = (w ++ rest).length := by
        rw [← Path.length_hops, Path.hops_ofEdges, List.length_map]
      have hlimit : (w ++ rest).length ≤ max 1 (2 * g.nodeCount) := hlength ▸ hshort
      have hlong := hw.length_eq
      rw [List.length_append] at hlimit
      omega

/-- Nothing else makes the plan of a failure fail. -/
theorem plan_eq_error_iff (hg : g.WellFormed) (hnode : g.nodeAt start = .ok node) {err : Error} :
    (plan g (.ofGraph g) stop dedup start).result = .error err ↔
      err = .malformed (.pathTooLong node.exeId (2 * g.nodeCount)) ∧ stop = .governingDriver ∧
        ∃ output w, Exhausts g start output w := by
  constructor
  · intro h
    obtain ⟨openings, hopenings⟩ := Graph.WellFormed.exists_openings stop.walk hnode
    have hrun := h
    rw [result_plan hnode hopenings, map_eq_error_iff] at hrun
    obtain ⟨rfl, -⟩ := Survey.exists_trail_of_error (keepsTo_guide hg start)
      (fun e f hf => hg.source_eq_of_mem_onward hf) (hg.openings_subset hnode hopenings) rfl
      (Limits.length_edges_le g) hrun
    obtain ⟨hstop, -, hlimit, hexhausts⟩ := (plan_eq_pathTooLong_iff hg hnode).1 h
    exact ⟨by rw [hlimit], hstop, hexhausts⟩
  · rintro ⟨rfl, hstop, hexhausts⟩
    exact (plan_eq_pathTooLong_iff hg hnode).2 ⟨hstop, rfl, rfl, hexhausts⟩

end Failure

namespace Reset

variable {g : Graph} {driver : NodeId} {w : List Edge}

/-- A reset enters no node twice. -/
lemma length_le_of_isTrail (hg : g.WellFormed) (hw : ∀ e ∈ w, e ∈ g.edges.toList)
    (h : (guide g driver).IsTrail [] w) : w.length ≤ max 1 g.nodeCount := by
  rcases h.simple with hone | ⟨hnodup, -⟩
  · omega
  · have hlength := hg.length_le_nodeCount hw (nodup_map_key_iff.1 hnodup)
    omega

/-- In the plan of a reset no path gets too long. -/
theorem plan_ne_pathTooLong (hg : g.WellFormed) (name : String) (limit : Nat) :
    (plan g (.ofGraph g) driver).result ≠ .error (.malformed (.pathTooLong name limit)) := by
  intro h
  cases hnode : g.nodeAt driver with
  | error err =>
    obtain rfl := Graph.eq_fault_of_nodeAt hnode
    simp [plan, hnode, Report.quiet] at h
  | ok node =>
    cases hdriver : node.isDriver with
    | false => simp [result_plan_of_not_isDriver hnode hdriver] at h
    | true =>
      obtain ⟨openings, hopenings⟩ := Graph.WellFormed.exists_openings .reset hnode
      rw [result_plan hnode hdriver hopenings, map_eq_error_iff] at h
      have hthere := hg.openings_subset hnode hopenings
      obtain ⟨-, opening, hmem, v, ⟨f, hf, hhead⟩, htrail, hmore⟩ :=
        Survey.exists_trail_of_error (keepsTo_guide hg driver)
          (fun e f hf => hg.source_eq_of_mem_onward hf) hthere rfl (Limits.length_edges_le g) h
      have hedges := Guide.mem_of_isChain (keepsTo_guide hg driver).next_subset htrail.goesOn hhead
        (hthere opening hmem hf)
      have hshort := length_le_of_isTrail hg hedges htrail
      have hlong : max 1 (2 * g.nodeCount) < v.length := hmore
      omega

/-- Nothing makes the plan of a reset of a driver fail. -/
theorem exists_plan (hg : g.WellFormed) {node : Node} (hnode : g.nodeAt driver = .ok node)
    (hdriver : node.isDriver = true) :
    ∃ listing, (plan g (.ofGraph g) driver).result = .ok listing := by
  cases hplan : (plan g (.ofGraph g) driver).result with
  | ok listing => exact ⟨listing, rfl⟩
  | error err =>
    obtain ⟨openings, hopenings⟩ := Graph.WellFormed.exists_openings .reset hnode
    have hrun := hplan
    rw [result_plan hnode hdriver hopenings, map_eq_error_iff] at hrun
    obtain ⟨rfl, -⟩ := Survey.exists_trail_of_error (keepsTo_guide hg driver)
      (fun e f hf => hg.source_eq_of_mem_onward hf) (hg.openings_subset hnode hopenings) rfl
      (Limits.length_edges_le g) hrun
    exact absurd hplan (plan_ne_pathTooLong hg _ _)

end Reset

/-! ## Queries -/

/-- Under the limits that follow from the size of a graph, no path of a reset gets too long, and a path
of a failure does so exactly if the routes are those to the governing driver and a trail from the node
exhausts the graph. -/
theorem pathTooLong_iff {source : Workflow} {g : Graph} (hbuilt : Graph.ofWorkflow source = .ok g) :
    (∀ stop dedup exeId name limit,
      (g.failureRoutes (.ofGraph g) stop dedup exeId).result
          = .error (.malformed (.pathTooLong name limit)) ↔
        stop = .governingDriver ∧ name = exeId ∧ limit = 2 * g.nodeCount ∧
          ∃ start, g.nodeId exeId = .ok start ∧ ∃ output w, Failure.Exhausts g start output w) ∧
      ∀ exeId name limit, (g.resetCycles (.ofGraph g) exeId).result
        ≠ .error (.malformed (.pathTooLong name limit)) := by
  have hg := Graph.wellFormed_ofWorkflow hbuilt
  have hnodeId : ∀ exeId name limit,
      g.nodeId exeId ≠ .error (.malformed (.pathTooLong name limit)) := by
    intro exeId name limit
    unfold Graph.nodeId
    cases g.exeIds.find? exeId <;> simp
  constructor
  · intro stop dedup exeId name limit
    rw [Graph.failureRoutes, Report.result_andThen_eq_error_iff]
    cases hid : g.nodeId exeId with
    | error err =>
      have hother := hid ▸ hnodeId exeId name limit
      simp only [Report.quiet, reduceCtorEq, false_and, exists_false, or_false, and_false, iff_false]
      exact hother
    | ok start =>
      obtain ⟨node, hnode, rfl⟩ := hg.exists_nodeAt_of_exeIdAt (hg.nodeId_eq_ok_iff.1 hid)
      simp only [Report.quiet, reduceCtorEq, false_or, Except.ok.injEq, exists_eq_left']
      exact Failure.plan_eq_pathTooLong_iff hg hnode
  · intro exeId name limit h
    rw [Graph.resetCycles, Report.result_andThen_eq_error_iff] at h
    rcases h with hid | ⟨driver, -, hplan⟩
    · exact hnodeId exeId name limit hid
    · exact Reset.plan_ne_pathTooLong hg name limit hplan

/-- A controller on its own, which is joined to itself on the level of its loop, from outside of it, and
by a broadcast. -/
def Workflow.hub : Workflow where
  nodes := [{ exeId := "hub", inputs := [⟨"i", "in"⟩], outputs := [⟨"o", "out"⟩] }]
  connections := [
    ⟨⟨"hub", "o", .same⟩, ⟨"hub", "i", .same⟩⟩,
    ⟨⟨"hub", "o", .outer⟩, ⟨"hub", "i", .outer⟩⟩,
    ⟨⟨"hub", "o", .same⟩, ⟨"hub", "i", .inner⟩⟩]

/-- The graph of the controller on its own. -/
def Graph.hub : Graph :=
  match Graph.ofWorkflow .hub with
  | .ok g => g
  | .error _ => ⟨{}, {}, {}, {}⟩

theorem Graph.ofWorkflow_hub : Graph.ofWorkflow .hub = .ok .hub := by
  obtain ⟨g, hg⟩ := exists_ok_of_isOk (x := Graph.ofWorkflow .hub) (by decide +kernel)
  rw [Graph.hub, hg]

/-- The size of a graph alone does not bound its paths: from the hub a failure goes three hops, and only
two are allowed. -/
theorem pathTooLong_hub :
    ∃ g, Graph.ofWorkflow .hub = .ok g ∧
      (g.failureRoutes (.ofGraph g) .governingDriver false "hub").result
        = .error (.malformed (.pathTooLong "hub" 2)) := by
  refine ⟨.hub, Graph.ofWorkflow_hub, ?_⟩
  cbv

/-- So a trail exhausts the graph of the hub. -/
theorem exhausts_hub :
    Graph.ofWorkflow .hub = .ok .hub ∧
      ∃ start output w, Failure.Exhausts .hub start output w := by
  have hlong : (Graph.failureRoutes .hub (.ofGraph .hub) .governingDriver false "hub").result
      = .error (.malformed (.pathTooLong "hub" 2)) := by
    cbv
  obtain ⟨-, -, -, start, -, hexhausts⟩ := ((pathTooLong_iff Graph.ofWorkflow_hub).1 _ _ _ _ _).1 hlong
  exact ⟨Graph.ofWorkflow_hub, start, hexhausts⟩

end WorkflowLoops

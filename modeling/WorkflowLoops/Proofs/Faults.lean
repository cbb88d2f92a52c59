import Mathlib
import WorkflowLoops.Proofs.Driver.Directory
import WorkflowLoops.Proofs.Driver.Extension
import WorkflowLoops.Proofs.Graph.Consistency
import WorkflowLoops.Proofs.Search.Limits

/-!
# No question about a graph comes upon a fault

A fault is the one kind of error that says nothing about the graph or the question: a table has no entry
under a number that it was asked for, or a hop does not continue its path. A graph that is built from a
workflow is consistent, a guided search only takes hops that continue its path, and an exploration only
comes to nodes that are there. So every question has a value or an error that is no fault, and all that
happens on the way can be told (`Graph.isFaultless_ofWorkflow`).
-/

namespace WorkflowLoops

/-! ## Answers -/

/-- Whether a result is there, or the error says why it is not and is no fault. -/
def IsAnswer {α : Type} (result : Except Error α) : Prop := ∀ fault, result ≠ .error (.fault fault)

section Answers

variable {α β : Type} {x : Except Error α} {f : α → Except Error β}

lemma isAnswer_ok (a : α) : IsAnswer (.ok a) := by
  intro fault h
  cases h

lemma isAnswer_of_exists (h : ∃ a, x = .ok a) : IsAnswer x := by
  obtain ⟨a, rfl⟩ := h
  exact isAnswer_ok a

lemma IsAnswer.bind (hx : IsAnswer x) (hf : ∀ a, x = .ok a → IsAnswer (f a)) :
    IsAnswer (x >>= f) := by
  intro fault h
  rcases bind_eq_error_iff.1 h with h | ⟨a, ha, h⟩
  · exact hx fault h
  · exact hf a ha fault h

lemma IsAnswer.map {k : α → β} (hx : IsAnswer x) : IsAnswer (x.map k) := by
  intro fault h
  exact hx fault (map_eq_error_iff.1 h)

end Answers

/-- The path that an event tells of. -/
def Event.path? : Event → Option Path
  | failurePath path => some path
  | resetCycle cycle => some cycle
  | _ => none

namespace Event

variable {g : Graph} {event : Event}

/-- There is a message for an event if the path that it tells of has a text. -/
lemma exists_message (h : ∀ p ∈ event.path?, ∃ text, g.renderPath p = .ok text) :
    ∃ message, event.message g = .ok message := by
  cases event with
  | failurePath path =>
    obtain ⟨text, htext⟩ := h path rfl
    exact ⟨_, bind_eq_ok_iff.2 ⟨text, htext, rfl⟩⟩
  | resetCycle cycle =>
    obtain ⟨text, htext⟩ := h cycle rfl
    exact ⟨_, bind_eq_ok_iff.2 ⟨text, htext, rfl⟩⟩
  | _ => exact ⟨_, rfl⟩

lemma path?_of_mem_ofError {err : Error} (h : event ∈ ofError err) : event.path? = none := by
  unfold ofError at h
  split at h
  · rw [List.mem_singleton.1 h]
    rfl
  · cases h

/-- Where the paths of a list are told of between an opening and a closing that tell of none, every path
told of is one of the list. -/
lemma exists_of_mem_told {α : Type} {opening : Event} {told : α → Event} {as : List α}
    {closing : List Event} {pathOf : α → Path} (hopening : opening.path? = none)
    (htold : ∀ a, (told a).path? = some (pathOf a)) (hclosing : ∀ event ∈ closing, event.path? = none)
    (h : event ∈ opening :: as.map told ++ closing) {p : Path} (hp : p ∈ event.path?) :
    ∃ a ∈ as, pathOf a = p := by
  have hnone : event.path? ≠ none := Option.ne_none_iff_exists'.2 ⟨p, hp⟩
  rcases List.mem_append.1 h with h | h
  · rcases List.mem_cons.1 h with rfl | h
    · exact absurd hopening hnone
    · obtain ⟨a, ha, rfl⟩ := List.mem_map.1 h
      exact ⟨a, ha, Option.some.inj ((htold a).symm.trans hp)⟩
  · exact absurd (hclosing event h) hnone

end Event

namespace Report

/-- Whether a report about a graph has an answer, and a message for everything that happened on the way
to it. -/
structure IsFaultless {α : Type} (r : Report α) (g : Graph) : Prop where
  result : IsAnswer r.result
  messages : ∃ messages, r.messages g = .ok messages

variable {α β : Type} {g : Graph} {r : Report α} {f : α → Report β}

/-- There are messages if all paths that are told of have texts. -/
lemma isFaultless_of_paths (hresult : IsAnswer r.result)
    (hpaths : ∀ event ∈ r.events, ∀ p ∈ event.path?, ∃ text, g.renderPath p = .ok text) :
    r.IsFaultless g :=
  ⟨hresult, exists_mapM_eq_ok fun event hevent => Event.exists_message (hpaths event hevent)⟩

lemma isFaultless_quiet {result : Except Error α} (h : IsAnswer result) :
    (quiet result).IsFaultless g :=
  isFaultless_of_paths h fun _ hevent => absurd hevent List.not_mem_nil

lemma IsFaultless.andThen (hr : r.IsFaultless g)
    (hf : ∀ a, r.result = .ok a → (f a).IsFaultless g) : (r.andThen f).IsFaultless g where
  result fault herr := by
    rcases result_andThen_eq_error_iff.1 herr with herr | ⟨a, ha, herr⟩
    · exact hr.result fault herr
    · exact (hf a ha).result fault herr
  messages := by
    unfold Report.andThen
    cases hresult : r.result with
    | error err => exact hr.messages
    | ok a =>
      obtain ⟨before, hbefore⟩ := hr.messages
      obtain ⟨after, hafter⟩ := (hf a hresult).messages
      refine ⟨before ++ after, ?_⟩
      show (r.events ++ (f a).events).mapM (Event.message g) = .ok (before ++ after)
      rw [List.mapM_append]
      exact bind_eq_ok_iff.2 ⟨before, hbefore, bind_eq_ok_iff.2 ⟨after, hafter, rfl⟩⟩

end Report

/-! ## Drivers -/

namespace Graph

variable {g : Graph} {start : NodeId} {node : Node} {limits : Limits}

lemma isAnswer_nodeId (exeId : String) : IsAnswer (g.nodeId exeId) := by
  intro fault h
  cases eq_nodeNotFound_of_nodeId h

/-- A question that begins with looking up a node is faultless if it is so for the nodes that are
there. -/
lemma WellFormed.isFaultless_of_nodeId (hg : g.WellFormed) {α : Type} {f : NodeId → Report α}
    (h : ∀ id node, g.nodeAt id = .ok node → (f id).IsFaultless g) (exeId : String) :
    ((Report.quiet (g.nodeId exeId)).andThen f).IsFaultless g := by
  refine (Report.isFaultless_quiet (isAnswer_nodeId exeId)).andThen fun id hid => ?_
  obtain ⟨node, hnode, -⟩ := hg.exists_nodeAt_of_nodeId hid
  exact h id node hnode

/-- The events of a resolution tell of no path. -/
lemma path?_of_mem_events_resolveDriver {event : Event}
    (h : event ∈ (g.resolveDriver limits start).events) : event.path? = none := by
  unfold resolveDriver at h
  split at h
  · cases h
  · simp only at h
    split at h
    · rcases List.mem_cons.1 h with rfl | h
      · rfl
      · exact Event.path?_of_mem_ofError h
    · simp only [List.mem_cons, List.not_mem_nil, or_false] at h
      rcases h with rfl | rfl <;> rfl

/-- A resolution is stopped by a defect, or it says what was found. -/
lemma isFaultless_resolveDriver (hg : g.WellFormed) (hnode : g.nodeAt start = .ok node) :
    (g.resolveDriver limits start).IsFaultless g := by
  refine Report.isFaultless_of_paths ?_ fun event hevent p hp => ?_
  · rcases Exploration.answers_or_stepLimit hg hnode limits with hanswers | ⟨limit, hsteps⟩
    · rcases hanswers.cases with ⟨d, hd, -⟩ | ⟨first, second, hconflict, -⟩ | ⟨hcycle, -⟩ |
        ⟨hnone, -⟩
      · exact isAnswer_of_exists ⟨d, hd⟩
      · simp [IsAnswer, hconflict]
      · simp [IsAnswer, hcycle]
      · simp [IsAnswer, hnone]
    · simp [IsAnswer, hsteps]
  · rw [path?_of_mem_events_resolveDriver hevent] at hp
    cases hp

end Graph

namespace Directory

variable {g : Graph} {limits : Limits} {d : Directory}

/-- Whatever happens while a directory is filled happens in a resolution. -/
lemma exists_of_mem_events_fill {nodes : List Node} {event : Event} :
    ∀ {d : Directory}, event ∈ (fill g limits d nodes).events →
      ∃ node ∈ nodes, event ∈ (g.resolveDriver limits node.id).events := by
  induction nodes with
  | nil =>
    intro d h
    cases h
  | cons node rest ih =>
    intro d h
    rw [fill] at h
    simp only at h
    split at h
    · exact ⟨node, List.mem_cons_self .., h⟩
    · rcases List.mem_append.1 h with h | h
      · exact ⟨node, List.mem_cons_self .., h⟩
      · obtain ⟨other, hother, hevent⟩ := ih h
        exact ⟨other, List.mem_cons_of_mem _ hother, hevent⟩

/-- An entry is an answer if the resolution is. -/
lemma isAnswer_listed {result : Except Error NodeId} (h : IsAnswer result) :
    IsAnswer (listed result) := by
  unfold listed
  split
  · exact isAnswer_ok _
  · exact isAnswer_ok _
  · exact fun fault herr => h fault (congrArg Except.error (Except.error.inj herr))

theorem isFaultless_ofGraph (hg : g.WellFormed) : (ofGraph g limits).IsFaultless g := by
  refine Report.isFaultless_of_paths (fun fault herr => ?_) fun event hevent p hp => ?_
  · have hrow : (ofGraph g limits).result.map _ = _ := map_result_ofGraph hg
    rw [herr] at hrow
    obtain ⟨node, hnode, hentry⟩ := exists_of_mapM_eq_error hrow.symm
    have hresolved : (g.resolveDriver limits node.id).IsFaultless g :=
      Graph.isFaultless_resolveDriver hg (hg.nodeAt_of_mem hnode)
    exact isAnswer_listed hresolved.result fault hentry
  · have hnone : event.path? = none := by
      unfold ofGraph Report.andThen at hevent
      split at hevent
      · obtain ⟨node, -, hevent⟩ := exists_of_mem_events_fill hevent
        exact Graph.path?_of_mem_events_resolveDriver hevent
      · rcases List.mem_append.1 hevent with hevent | hevent
        · obtain ⟨node, -, hevent⟩ := exists_of_mem_events_fill hevent
          exact Graph.path?_of_mem_events_resolveDriver hevent
        · rw [List.mem_singleton.1 hevent]
          rfl
    rw [hnone] at hp
    cases hp

/-- In a directory that was built every node that is there has an entry, and its driver is there. -/
theorem exists_driverAt (hg : g.WellFormed) (h : (ofGraph g limits).result = .ok d) {id : NodeId}
    {node : Node} (hnode : g.nodeAt id = .ok node) : ∃ driver?, d.driverAt g id = .ok driver? := by
  obtain ⟨driver?, hget, hlisted⟩ := exists_entry_of_ofGraph hg h hnode
  unfold driverAt
  rw [hget, orFault_some]
  rcases listed_eq_ok_iff.1 hlisted with ⟨driver, hresolved, rfl⟩ | ⟨name, -, rfl⟩
  · obtain ⟨found, hfound⟩ := Exploration.exists_node_of_resolveDriver hg hnode hresolved
    exact ⟨some found, by simp [bind, Except.bind, hfound]⟩
  · exact ⟨none, rfl⟩

end Directory

/-! ## Routes and cycles -/

namespace Survey

variable {g : Graph} {walk : Walk} {start : NodeId} {node : Node} {G : Guide} {σ : Strategy}
  {openings : List (String × List Edge)} {name : String} {limits : Limits}

lemma mem_of_mem_listed {ends : List (List Edge × Bool)} {p : Path}
    (h : p ∈ Search.listed {} ends) : ∃ w, (w, true) ∈ ends ∧ Path.ofEdges w = p := by
  obtain ⟨⟨w, keep⟩, hmem, rfl⟩ := List.mem_map.1 h
  obtain ⟨hmem, rfl⟩ := List.mem_filter.1 hmem
  exact ⟨w, hmem, rfl⟩

/-- The paths that a survey lists, also one that limits stop, are those to listed ends. -/
lemma GoesAlong.exists_ending {branches : List (List (List Edge × Bool))}
    (h : GoesAlong σ openings branches name limits) {p : Path}
    (hp : p ∈ (run σ { start := name, limits } openings).listings.toList.flatMap Prod.snd) :
    ∃ ends ∈ branches, ∃ w, (w, true) ∈ ends ∧ Path.ofEdges w = p := by
  cases hcourse : limits.course name 0 0 (branches.flatMap leaves) with
  | mk done end? =>
  cases end? with
  | none =>
    rw [(h.pass (congrArg Prod.snd hcourse)).2.1, List.mem_flatMap] at hp
    obtain ⟨entry, hentry, hp⟩ := hp
    rw [fullListings, ← List.map_uncurry_zip_eq_zipWith, List.mem_map] at hentry
    obtain ⟨⟨opening, ends⟩, hzip, rfl⟩ := hentry
    exact ⟨ends, (List.of_mem_zip hzip).2, mem_of_mem_listed hp⟩
  | some err =>
    rw [(h.stop done err hcourse).2] at hp
    obtain ⟨w, hw, hpath⟩ := mem_of_mem_listed hp
    -- the survey was stopped on its way along the same walks
    have hdone : (limits.course name 0 0 (branches.flatMap leaves)).1 ⊆ _ := Limits.fst_course_subset
    rw [hcourse, List.map_flatMap] at hdone
    obtain ⟨ends, hends, hw⟩ := List.mem_flatMap.1 (hdone hw)
    rw [map_ending_leaves] at hw
    exact ⟨ends, hends, w, hw, hpath⟩

/-- What a guided survey lists, also one that limits stop, are paths along edges of the graph. -/
lemma exists_walk_of_mem_listings (hg : g.WellFormed) (hσ : σ.KeepsTo G g.edges.toList)
    (hnext : ∀ e, G.next e = g.onward walk (.after e)) (hnode : g.nodeAt start = .ok node)
    (hopenings : g.openings walk start = .ok openings) {p : Path}
    (hp : p ∈ (run σ { start := name, limits } openings).listings.toList.flatMap Prod.snd) :
    ∃ w, (∀ e ∈ w, e ∈ g.edges.toList) ∧ Path.ofEdges w = p := by
  obtain ⟨branches, hbranches, -, hgoes⟩ := hg.exists_branches hσ hnext hnode hopenings
    (fun _ _ => Iff.rfl) fun _ _ _ => Iff.rfl
  obtain ⟨ends, hends, w, hw, rfl⟩ := (hgoes name limits).exists_ending hp
  obtain ⟨i, hi⟩ := List.mem_iff_getElem?.1 hends
  obtain ⟨⟨first, hhead, hopens⟩, hfull⟩ := ((hbranches.mem_iff i ends hi w true).1 hw).1
  exact ⟨w, Guide.mem_of_isChain hσ.next_subset hfull.1.goesOn hhead hopens.1, rfl⟩

/-- Only a limit stops a guided survey. -/
lemma isAnswer_run (hg : g.WellFormed) (hσ : σ.KeepsTo G g.edges.toList)
    (hnext : ∀ e, G.next e = g.onward walk (.after e)) (hnode : g.nodeAt start = .ok node)
    (hopenings : g.openings walk start = .ok openings) :
    IsAnswer (run σ { start := name, limits } openings).result := by
  intro fault herr
  have hjoin : ∀ e f, f ∈ G.next e → f.source = e.target := fun e f hf =>
    hg.source_eq_of_mem_onward (hnext e ▸ hf)
  obtain ⟨opening, -, hstops⟩ :=
    stops_of_error hσ hjoin (hg.openings_subset hnode hopenings) rfl herr
  cases hstops

end Survey

namespace Failure

variable {g : Graph} {limits : Limits} {stop : StopRule} {dedup : Bool} {start : NodeId} {node : Node}

/-- During a plan the paths that its survey lists are told of, and no others. -/
lemma exists_closing {openings : List (String × List Edge)} (hnode : g.nodeAt start = .ok node)
    (hopenings : g.openings stop.walk start = .ok openings) :
    ∃ closing, (∀ event ∈ closing, event.path? = none) ∧
      (plan g limits stop dedup start).events = .planningFailure node.exeId stop ::
        ((Survey.run (strategy g stop start)
          { start := node.exeId, limits } openings).listings.toList.flatMap Prod.snd).map .failurePath
        ++ closing := by
  cases hrun : (Survey.run (strategy g stop start) { start := node.exeId, limits } openings).result with
  | error err =>
    rw [plan_of_error hnode hopenings hrun]
    exact ⟨_, fun _ => Event.path?_of_mem_ofError, rfl⟩
  | ok _ =>
    rw [plan_of_ok hnode hopenings hrun]
    exact ⟨_, fun _ hevent => List.mem_singleton.1 hevent ▸ rfl, rfl⟩

theorem isFaultless_plan (hg : g.WellFormed) (hnode : g.nodeAt start = .ok node) :
    (plan g limits stop dedup start).IsFaultless g := by
  obtain ⟨openings, hopenings⟩ := Graph.WellFormed.exists_openings stop.walk hnode
  refine Report.isFaultless_of_paths ?_ fun event hevent p hp => ?_
  · rw [result_plan hnode hopenings]
    exact (Survey.isAnswer_run hg (keepsTo_guide hg start) (fun _ => rfl) hnode hopenings).map
  · obtain ⟨closing, hclosing, hevents⟩ := exists_closing hnode hopenings
    rw [hevents] at hevent
    obtain ⟨_, hlisted, rfl⟩ := Event.exists_of_mem_told rfl (fun _ => rfl) hclosing hevent hp
    obtain ⟨w, hw, rfl⟩ := Survey.exists_walk_of_mem_listings hg (keepsTo_guide hg start)
      (fun _ => rfl) hnode hopenings hlisted
    exact hg.exists_renderPath hw

end Failure

namespace Reset

variable {g : Graph} {limits : Limits} {driver : NodeId} {node : Node}

/-- During a plan the cycles among what its survey lists are told of, and no others. -/
lemma exists_closing {openings : List (String × List Edge)} (hnode : g.nodeAt driver = .ok node)
    (hdriver : node.isDriver = true) (hopenings : g.openings .reset driver = .ok openings) :
    ∃ closing, (∀ event ∈ closing, event.path? = none) ∧
      (plan g limits driver).events = .planningReset node.exeId ::
        (((Survey.run (strategy g driver)
          { start := node.exeId, limits } openings).listings.toList.flatMap Prod.snd).filterMap
            Cycle.close?).map (fun c => .resetCycle c.path)
        ++ closing := by
  cases hrun : (Survey.run (strategy g driver) { start := node.exeId, limits } openings).result with
  | error err =>
    rw [plan_of_error hnode hdriver hopenings hrun]
    exact ⟨_, fun _ => Event.path?_of_mem_ofError, rfl⟩
  | ok _ =>
    rw [plan_of_ok hnode hdriver hopenings hrun]
    simp only [List.flatMap_map, List.filterMap_flatMap, List.map_flatMap]
    exact ⟨_, fun _ hevent => List.mem_singleton.1 hevent ▸ rfl, rfl⟩

theorem isFaultless_plan (hg : g.WellFormed) (hnode : g.nodeAt driver = .ok node) :
    (plan g limits driver).IsFaultless g := by
  obtain ⟨openings, hopenings⟩ := Graph.WellFormed.exists_openings .reset hnode
  cases hdriver : node.isDriver with
  | false =>
    have hplan : plan g limits driver = .quiet (.error (.notALoopDriver node.exeId)) := by
      simp [plan, hnode, hopenings, hdriver]
    rw [hplan]
    exact Report.isFaultless_quiet fun fault herr => by cases herr
  | true =>
    refine Report.isFaultless_of_paths ?_ fun event hevent p hp => ?_
    · rw [result_plan hnode hdriver hopenings]
      exact (Survey.isAnswer_run hg (keepsTo_guide hg driver) (fun _ => rfl) hnode hopenings).map
    · obtain ⟨closing, hclosing, hevents⟩ := exists_closing hnode hdriver hopenings
      rw [hevents] at hevent
      obtain ⟨cycle, hcycle, rfl⟩ :=
        Event.exists_of_mem_told rfl (fun _ => rfl) hclosing hevent hp
      obtain ⟨path, hlisted, hclose⟩ := List.mem_filterMap.1 hcycle
      rw [← path_eq_of_close? hclose]
      obtain ⟨w, hw, rfl⟩ := Survey.exists_walk_of_mem_listings hg (keepsTo_guide hg driver)
        (fun _ => rfl) hnode hopenings hlisted
      exact hg.exists_renderPath hw

end Reset

/-! ## Questions -/

namespace Graph

/-- Whether no question about a graph comes upon a fault. All that settings say is which limits there are,
where failures stop and whether repeated ends are dropped. -/
structure IsFaultless (g : Graph) : Prop where
  consistent : g.Consistent
  toDot : ∃ text, g.toDot = .ok text
  renderHop : ∀ e ∈ g.edges.toList, ∃ text, g.renderHop e.hop = .ok text
  node : ∀ exeId, IsAnswer (g.node exeId)
  outgoingEdges : ∀ exeId portId, IsAnswer (g.outgoingEdges exeId portId)
  loopDriverOf : ∀ limits exeId, (g.loopDriverOf limits exeId).IsFaultless g
  failureRoutes : ∀ limits stop dedup exeId,
    (g.failureRoutes limits stop dedup exeId).IsFaultless g
  renderRoute : ∀ limits stop dedup exeId listing,
    (g.failureRoutes limits stop dedup exeId).result = .ok listing →
      ∀ path, listing.Holds path → ∃ text, g.renderPath path = .ok text
  resetCycles : ∀ limits exeId, (g.resetCycles limits exeId).IsFaultless g
  renderCycle : ∀ limits exeId listing, (g.resetCycles limits exeId).result = .ok listing →
    ∀ cycle, listing.Holds cycle → ∃ text, g.renderPath cycle.path = .ok text
  directory : ∀ limits, (Directory.ofGraph g limits).IsFaultless g
  drivers : ∀ limits d, (Directory.ofGraph g limits).result = .ok d →
    (∀ exeId, IsAnswer (d.driverOf g exeId)) ∧ ∃ entries, d.entries g = .ok entries

variable {g : Graph}

lemma WellFormed.isAnswer_node (hg : g.WellFormed) (exeId : String) : IsAnswer (g.node exeId) :=
  (isAnswer_nodeId exeId).bind fun _ hid =>
    isAnswer_of_exists ((hg.exists_nodeAt_of_nodeId hid).imp fun _ hnode => hnode.1)

/-- The edges of an output are there unless there is no such node or no such output. -/
lemma WellFormed.isAnswer_outgoingEdges (hg : g.WellFormed) (exeId portId : String) :
    IsAnswer (g.outgoingEdges exeId portId) := by
  refine (hg.isAnswer_node exeId).bind fun node _ => ?_
  split
  · exact isAnswer_ok _
  · intro fault herr
    cases herr

lemma WellFormed.isFaultless_loopDriverOf (hg : g.WellFormed) (limits : Limits) (exeId : String) :
    (g.loopDriverOf limits exeId).IsFaultless g := by
  refine (hg.isFaultless_of_nodeId (fun _ _ hnode => isFaultless_resolveDriver hg hnode) exeId).andThen
    fun driver hdriver => ?_
  obtain ⟨id, hid, hresolved⟩ := Report.result_andThen_eq_ok_iff.1 hdriver
  obtain ⟨node, hnode, -⟩ := hg.exists_nodeAt_of_nodeId hid
  exact Report.isFaultless_quiet
    (isAnswer_of_exists (Exploration.exists_node_of_resolveDriver hg hnode hresolved))

/-- A graph that is built from a workflow is faultless, as long as its nodes and its edges can be numbered
with 32 bits. -/
theorem isFaultless_ofWorkflow {w : Workflow} {g : Graph} (hbuilt : Graph.ofWorkflow w = .ok g)
    (hnodes : w.nodes.length ≤ 2 ^ 32) (hconnections : w.connections.length ≤ 2 ^ 32) :
    g.IsFaultless := by
  have hg := wellFormed_ofWorkflow hbuilt
  constructor
  case consistent =>
    have hedgeCount : g.edgeCount = (firsts w.connections).length := by
      rw [edgeCount, Arena.size_eq_length, (forall₂_reads_of_ofWorkflow hbuilt).length_eq]
    refine hg.consistent (nodeCount_of_ofWorkflow hbuilt ▸ hnodes) ?_
    rw [hedgeCount]
    exact (length_firsts_le _).trans hconnections
  case toDot => exact hg.exists_toDot
  case renderHop => exact fun e he => hg.exists_renderHop he
  case node => exact hg.isAnswer_node
  case outgoingEdges => exact hg.isAnswer_outgoingEdges
  case loopDriverOf => exact hg.isFaultless_loopDriverOf
  case failureRoutes =>
    intro limits stop dedup
    exact hg.isFaultless_of_nodeId fun _ _ hnode => Failure.isFaultless_plan hg hnode
  case renderRoute =>
    intro limits stop dedup exeId listing h path hpath
    obtain ⟨start, -, hplan⟩ := Report.result_andThen_eq_ok_iff.1 h
    obtain ⟨output, walk, hroute, rfl⟩ := Failure.exists_route_of_holds hg hplan hpath
    exact hg.exists_renderPath (hroute.mem_edges hg)
  case resetCycles =>
    intro limits
    exact hg.isFaultless_of_nodeId fun _ _ hnode => Reset.isFaultless_plan hg hnode
  case renderCycle =>
    intro limits exeId listing h cycle hcycle
    obtain ⟨driver, -, hplan⟩ := Report.result_andThen_eq_ok_iff.1 h
    obtain ⟨-, output, walk, hloop, hpath⟩ := Reset.exists_loop_of_holds hg hplan hcycle
    rw [← hpath]
    exact hg.exists_renderPath (hloop.mem_edges hg)
  case directory => exact fun limits => Directory.isFaultless_ofGraph hg
  case drivers =>
    intro limits d hd
    constructor
    · intro exeId
      refine (isAnswer_nodeId exeId).bind fun id hid => ?_
      obtain ⟨node, hnode, -⟩ := hg.exists_nodeAt_of_nodeId hid
      exact isAnswer_of_exists (Directory.exists_driverAt hg hd hnode)
    · refine exists_mapM_eq_ok fun node hnode => ?_
      obtain ⟨driver?, hdriver⟩ := Directory.exists_driverAt hg hd (hg.nodeAt_of_mem hnode)
      exact ⟨_, bind_eq_ok_iff.2 ⟨driver?, hdriver, rfl⟩⟩

theorem isFaultless_ofWorkflow_nestedLoops :
    Graph.ofWorkflow .nestedLoops = .ok .nestedLoops ∧
      Workflow.nestedLoops.nodes.length ≤ 2 ^ 32 ∧
      Workflow.nestedLoops.connections.length ≤ 2 ^ 32 ∧ Graph.nestedLoops.IsFaultless :=
  ⟨ofWorkflow_nestedLoops, by decide, by decide,
    isFaultless_ofWorkflow ofWorkflow_nestedLoops (by decide) (by decide)⟩

end Graph

end WorkflowLoops

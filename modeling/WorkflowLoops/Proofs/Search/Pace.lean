import Mathlib
import WorkflowLoops.Proofs.Driver.Agreement
import WorkflowLoops.Proofs.Driver.Spots
import WorkflowLoops.Proofs.Search.Lengths

/-!
# How many steps queries take

The searches for the routes of a failure and for the cycles of a reset may list exponentially many
paths, but between the ends of two of them they only go forward: since a path was ended, there were no
more steps than the path has hops, and a path takes no edge twice (`paced_of_goesThrough`). The
exploration for a driver enters no spot twice. So with the steps that follow from the size of a graph no
query runs out of steps (`steps_suffice`).
-/

namespace WorkflowLoops

/-! ## The states of a survey -/

namespace Search

/-- Whether the next step of a search leads from one state to another. -/
def Steps (σ : Strategy) (s t : Search) : Prop := s.step σ = .ok (some t)

variable {G : Guide} {σ : Strategy} {first edges : List Edge} {s t : Search}

/-- A guided search is on track in every state that it comes to. -/
lemma OnTrack.reaches (hσ : σ.KeepsTo G edges) (hfirst : first ⊆ edges) (h : OnTrack G σ first s)
    (hsteps : Relation.ReflTransGen (Steps σ) s t) : OnTrack G σ first t := by
  induction hsteps with
  | refl => exact h
  | tail _ hstep ih => exact ih.step hσ hfirst hstep

end Search

namespace Survey

open Search

/-- Whether a survey goes through a state: the searches from the outputs before have ended, and the one
from the next output comes to the state. -/
def GoesThrough (σ : Strategy) (budget : Budget) (openings : List (String × List Edge))
    (s : Search) : Prop :=
  ∃ before opening after, openings = before ++ opening :: after ∧
    (run σ budget before).result = .ok () ∧
    Relation.ReflTransGen (Steps σ) ((run σ budget before).search.restart σ opening.2) s

variable {G : Guide} {σ : Strategy} {edges : List Edge} {openings : List (String × List Edge)}
  {budget : Budget} {s : Search}

/-- A guided survey is on track in every state that it goes through. -/
lemma onTrack_of_goesThrough (hσ : σ.KeepsTo G edges)
    (hjoin : ∀ e f, f ∈ G.next e → f.source = e.target)
    (hthere : ∀ opening ∈ openings, opening.2 ⊆ edges) (hfresh : budget.sinceEnd = 0)
    (h : GoesThrough σ budget openings s) : ∃ first, first ⊆ edges ∧ OnTrack G σ first s := by
  obtain ⟨before, opening, after, rfl, hbefore, hsteps⟩ := h
  rw [List.forall_mem_append, List.forall_mem_cons] at hthere
  have hback := isBack_of_run hσ hjoin hthere.1 hfresh hbefore
  exact ⟨opening.2, hthere.2.1, OnTrack.reaches hσ hthere.2.1 hback.restart hsteps⟩

end Survey

/-! ## Pace -/

/-- A search that only goes forward between the ends of two paths, along different edges. -/
structure Search.Paced (edgeCount : Nat) (s : Search) : Prop where
  /-- Since a path was ended, there were no more steps than the path has hops. -/
  sinceEnd_le : s.budget.sinceEnd ≤ s.path.length
  length_le : s.path.length ≤ edgeCount
  /-- With the edge that is taken next, too, the path has no more hops than there are edges. -/
  length_lt : ∀ visit e later rest, s.stack = ⟨visit, e :: later⟩ :: rest → s.path.length < edgeCount

namespace Search

variable {G : Guide} {σ : Strategy} {first edges w : List Edge} {stack : List Frame} {s : Search}
  {e : Edge}

/-- A walk and an edge that may be taken at its end have no more hops than there are edges. -/
lemma Framed.length_lt (hσ : σ.KeepsTo G edges) (hfirst : first ⊆ edges)
    (h : Framed G σ first stack w) (he : e ∈ options G σ first w) : w.length < edges.length := by
  have hsub : (e :: w).reverse ⊆ edges := by
    obtain ⟨f, hf, hlast⟩ := h.getLast?_mem he
    rw [← List.head?_reverse] at hlast
    exact Guide.mem_of_isChain hσ.next_subset (h.isTrail he).goesOn hlast (hfirst hf)
  have hlength := (h.isTrail he).nodup.length_le_of_subset hsub
  rw [List.length_reverse, List.length_cons] at hlength
  omega

lemma OnTrack.paced (hσ : σ.KeepsTo G edges) (hfirst : first ⊆ edges) (h : OnTrack G σ first s) :
    s.Paced edges.length := by
  rcases h with ⟨hdone, hback⟩ | ⟨w, htracks⟩
  · refine ⟨?_, ?_, ?_⟩
    · exact hback.idle ▸ Nat.zero_le _
    · rw [hback.path]
      exact Nat.zero_le _
    · intro visit e later rest hstack
      rw [hdone] at hstack
      cases hstack
  · have hpath : s.path.length = w.length := by
      rw [Path.length, htracks.path, List.length_map]
    refine ⟨hpath ▸ htracks.paced, ?_, ?_⟩
    · have hframes := htracks.frames
      rw [hpath]
      generalize s.stack = stack at hframes
      cases hframes with
      | root => exact Nat.zero_le _
      | enter below taken _ _ _ => exact below.length_lt hσ hfirst taken
    · intro visit e later rest hstack
      have hframes := htracks.frames
      rw [hstack] at hframes
      rw [hpath]
      exact hframes.length_lt hσ hfirst (hframes.pending_subset (List.mem_cons_self ..))

end Search

/-- In every state that it goes through, a guided survey only goes forward from the end of one path to
the end of the next. -/
theorem Survey.paced_of_goesThrough {G : Guide} {σ : Strategy} {edges : List Edge}
    {openings : List (String × List Edge)} {budget : Budget} {s : Search} (hσ : σ.KeepsTo G edges)
    (hjoin : ∀ e f, f ∈ G.next e → f.source = e.target)
    (hthere : ∀ opening ∈ openings, opening.2 ⊆ edges) (hfresh : budget.sinceEnd = 0)
    (h : GoesThrough σ budget openings s) : s.Paced edges.length := by
  obtain ⟨first, hfirst, htrack⟩ := onTrack_of_goesThrough hσ hjoin hthere hfresh h
  exact htrack.paced hσ hfirst

/-! ## Queries -/

variable {g : Graph} {start : NodeId}

namespace Exploration

/-- A verdict is no lack of steps. -/
lemma verdict_ne_stepLimit {x : Exploration} {name : String} {limit : Nat} :
    x.verdict ≠ .error (.malformed (.stepLimitExceeded name limit)) := by
  unfold verdict
  split
  · simp
  · split <;> simp

/-- With a step for each edge and one more an exploration does not run out of steps. -/
lemma resolveDriver_ne_stepLimit (hg : g.WellFormed) {limits : Limits}
    (hlimits : g.edgeCount < limits.maxSteps) {name : String} {limit : Nat} :
    (g.resolveDriver limits start).result
      ≠ .error (.malformed (.stepLimitExceeded name limit)) := by
  intro h
  unfold Graph.resolveDriver at h
  cases hexeId : g.exeIdAt start with
  | error err =>
    rw [hexeId, eq_fault_of_orFault hexeId] at h
    cases h
  | ok exeId =>
    obtain ⟨-, -, hoverruns⟩ := counted_explore hg { start := exeId, limits } hexeId rfl rfl
    simp only [hexeId] at h
    generalize explore g { start := exeId, limits } start = halt at hoverruns h
    split at h
    · rename_i err hanswer
      obtain rfl := Except.error.inj h
      rcases bind_eq_error_iff.1 hanswer with hstopped | ⟨_, -, hanswer⟩
      · obtain ⟨spots, hnodup, hreach, hmore⟩ := hoverruns _ _ hstopped
        have hfew := length_le_of_reaches hg hnodup hreach
        simp only at hmore
        omega
      rcases bind_eq_error_iff.1 hanswer with hverdict | ⟨driver, -, hanswer⟩
      · exact verdict_ne_stepLimit hverdict
      rcases bind_eq_error_iff.1 hanswer with hdriver | ⟨driverId, -, hanswer⟩
      · cases eq_fault_of_orFault hdriver
      · cases hanswer
    · cases h

end Exploration

/-- A survey of a graph does not run out of steps if there is one for each edge. -/
lemma Survey.result_ne_stepLimit {G : Guide} {σ : Strategy} {edges : List Edge}
    {openings : List (String × List Edge)} {budget : Budget} (hσ : σ.KeepsTo G edges)
    (hjoin : ∀ e f, f ∈ G.next e → f.source = e.target)
    (hthere : ∀ opening ∈ openings, opening.2 ⊆ edges) (hfresh : budget.sinceEnd = 0)
    (hsteps : edges.length ≤ budget.limits.maxSteps) {name : String} {limit : Nat} :
    (run σ budget openings).result ≠ .error (.malformed (.stepLimitExceeded name limit)) := by
  intro h
  obtain ⟨herr, -⟩ := exists_trail_of_error hσ hjoin hthere hfresh hsteps h
  simp at herr

/-- The plan of a failure does not run out of steps if there is one for each edge. -/
lemma Failure.plan_ne_stepLimit (hg : g.WellFormed) {limits : Limits}
    (hlimits : g.edgeCount ≤ limits.maxSteps) {stop : StopRule} {dedup : Bool} {name : String}
    {limit : Nat} :
    (plan g limits stop dedup start).result
      ≠ .error (.malformed (.stepLimitExceeded name limit)) := by
  intro h
  cases hnode : g.nodeAt start with
  | error err =>
    obtain rfl := Graph.eq_fault_of_nodeAt hnode
    simp [plan, hnode, Report.quiet] at h
  | ok node =>
    obtain ⟨openings, hopenings⟩ := Graph.WellFormed.exists_openings stop.walk hnode
    rw [result_plan hnode hopenings, map_eq_error_iff] at h
    refine Survey.result_ne_stepLimit (keepsTo_guide hg start)
      (fun e f hf => hg.source_eq_of_mem_onward hf) (hg.openings_subset hnode hopenings) rfl ?_ h
    exact Arena.size_eq_length g.edges ▸ hlimits

/-- The plan of a reset does not run out of steps if there is one for each edge. -/
lemma Reset.plan_ne_stepLimit (hg : g.WellFormed) {limits : Limits}
    (hlimits : g.edgeCount ≤ limits.maxSteps) {name : String} {limit : Nat} :
    (plan g limits start).result ≠ .error (.malformed (.stepLimitExceeded name limit)) := by
  intro h
  cases hnode : g.nodeAt start with
  | error err =>
    obtain rfl := Graph.eq_fault_of_nodeAt hnode
    simp [plan, hnode, Report.quiet] at h
  | ok node =>
    cases hdriver : node.isDriver with
    | false => simp [result_plan_of_not_isDriver hnode hdriver] at h
    | true =>
      obtain ⟨openings, hopenings⟩ := Graph.WellFormed.exists_openings .reset hnode
      rw [result_plan hnode hdriver hopenings, map_eq_error_iff] at h
      refine Survey.result_ne_stepLimit (keepsTo_guide hg start)
        (fun e f hf => hg.source_eq_of_mem_onward hf) (hg.openings_subset hnode hopenings) rfl ?_ h
      exact Arena.size_eq_length g.edges ▸ hlimits

/-- Under the limits that follow from the size of a graph, no query runs out of steps. The exploration
for a driver enters at most one spot more than there are edges, none twice, with a step for each; and
since a path was ended, the searches of the planners have taken no more steps than their path has hops,
which are no more than there are edges. -/
theorem steps_suffice {source : Workflow} (hbuilt : Graph.ofWorkflow source = .ok g) :
    (∀ exeId name limit, (g.loopDriverOf (.ofGraph g) exeId).result
      ≠ .error (.malformed (.stepLimitExceeded name limit))) ∧
    (∀ stop dedup exeId name limit, (g.failureRoutes (.ofGraph g) stop dedup exeId).result
      ≠ .error (.malformed (.stepLimitExceeded name limit))) ∧
    (∀ exeId name limit, (g.resetCycles (.ofGraph g) exeId).result
      ≠ .error (.malformed (.stepLimitExceeded name limit))) ∧
    (∀ start exeId limits, g.exeIdAt start = .ok exeId →
      let last := (Exploration.explore g { start := exeId, limits } start).last
      last.seen.Nodup ∧ last.seen.length ≤ g.edgeCount + 1 ∧
        last.budget.used = last.seen.length) ∧
    (∀ stop start openings, g.openings stop.walk start = .ok openings → ∀ exeId limits s,
      Survey.GoesThrough (Failure.strategy g stop start) { start := exeId, limits } openings s →
        s.Paced g.edgeCount) ∧
    ∀ driver openings, g.openings .reset driver = .ok openings → ∀ exeId limits s,
      Survey.GoesThrough (Reset.strategy g driver) { start := exeId, limits } openings s →
        s.Paced g.edgeCount := by
  have hg := Graph.wellFormed_ofWorkflow hbuilt
  have hcount : g.edgeCount = g.edges.toList.length := Arena.size_eq_length g.edges
  have hsteps := Limits.edgeCount_lt g
  have hnode : ∀ {walk start openings}, g.openings walk start = .ok openings →
      ∃ node, g.nodeAt start = .ok node := fun hopenings => by
    obtain ⟨node, hnode, -⟩ := bind_eq_ok_iff.1 hopenings
    exact ⟨node, hnode⟩
  refine ⟨?_, ?_, ?_, ?_, ?_, ?_⟩
  · intro exeId name limit h
    rw [Graph.loopDriverOf, Report.result_andThen_eq_error_iff,
      Report.result_andThen_eq_error_iff] at h
    rcases h with (hid | ⟨start, -, hresolve⟩) | ⟨driver, -, hat⟩
    · cases Graph.eq_nodeNotFound_of_nodeId hid
    · exact Exploration.resolveDriver_ne_stepLimit hg hsteps hresolve
    · cases Graph.eq_fault_of_nodeAt hat
  · intro stop dedup exeId name limit h
    rw [Graph.failureRoutes, Report.result_andThen_eq_error_iff] at h
    rcases h with hid | ⟨start, -, hplan⟩
    · cases Graph.eq_nodeNotFound_of_nodeId hid
    · exact Failure.plan_ne_stepLimit hg (Nat.le_of_lt hsteps) hplan
  · intro exeId name limit h
    rw [Graph.resetCycles, Report.result_andThen_eq_error_iff] at h
    rcases h with hid | ⟨driver, -, hplan⟩
    · cases Graph.eq_nodeNotFound_of_nodeId hid
    · exact Reset.plan_ne_stepLimit hg (Nat.le_of_lt hsteps) hplan
  · intro start exeId limits hexeId
    obtain ⟨hlast, hreach, -⟩ :=
      Exploration.counted_explore hg { start := exeId, limits } hexeId rfl rfl
    exact ⟨hlast.nodup, Exploration.length_le_of_reaches hg hlast.nodup hreach, hlast.used⟩
  · intro stop start openings hopenings exeId limits s hs
    obtain ⟨node, hnode⟩ := hnode hopenings
    rw [hcount]
    exact Survey.paced_of_goesThrough (Failure.keepsTo_guide hg start)
      (fun e f hf => hg.source_eq_of_mem_onward hf) (hg.openings_subset hnode hopenings) rfl hs
  · intro driver openings hopenings exeId limits s hs
    obtain ⟨node, hnode⟩ := hnode hopenings
    rw [hcount]
    exact Survey.paced_of_goesThrough (Reset.keepsTo_guide hg driver)
      (fun e f hf => hg.source_eq_of_mem_onward hf) (hg.openings_subset hnode hopenings) rfl hs

/-- In the loop within a loop no query runs out of steps. -/
theorem steps_suffice_nestedLoops :
    Graph.ofWorkflow .nestedLoops = .ok .nestedLoops ∧
    (∀ exeId name limit, (Graph.loopDriverOf .nestedLoops (.ofGraph .nestedLoops) exeId).result
      ≠ .error (.malformed (.stepLimitExceeded name limit))) ∧
    (∀ stop dedup exeId name limit,
      (Graph.failureRoutes .nestedLoops (.ofGraph .nestedLoops) stop dedup exeId).result
        ≠ .error (.malformed (.stepLimitExceeded name limit))) ∧
    (∀ exeId name limit, (Graph.resetCycles .nestedLoops (.ofGraph .nestedLoops) exeId).result
      ≠ .error (.malformed (.stepLimitExceeded name limit))) := by
  obtain ⟨hdriver, hroutes, hcycles, -⟩ := steps_suffice Graph.ofWorkflow_nestedLoops
  exact ⟨Graph.ofWorkflow_nestedLoops, hdriver, hroutes, hcycles⟩

end WorkflowLoops

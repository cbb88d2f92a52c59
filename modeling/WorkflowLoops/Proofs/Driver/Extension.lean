import Mathlib
import WorkflowLoops.Analysis
import WorkflowLoops.Proofs.Driver.Agreement
import WorkflowLoops.Proofs.Search.Extension
import WorkflowLoops.Proofs.Search.Reordering

/-!
# Extensions do not interfere

In a shared part of two graphs the explorations for a driver go through the same states
(`Exploration.carries_allow`), as the searches of the planners do. The limits of a workflow only grow
when it is extended. So what is appended where no walk from a node comes to changes no answer about the
node, unless the answer was that a limit was reached (`Analysis.answers_of_extend`).
-/

namespace WorkflowLoops

namespace Exploration

/-- An exploration under other limits. -/
def allow (x : Exploration) (limits : Limits) : Exploration :=
  { x with budget := x.budget.allow limits }

/-- Whether an exploration has come to nodes inside of a part only, and has limits that are allowed. -/
structure Keeps (inside : NodeId → Prop) (limits : Limits) (x : Exploration) : Prop where
  pending : ∀ frame ∈ x.stack, ∀ e ∈ frame.2, inside e.target
  driver : ∀ d, x.driver? = some d → inside d
  limits_le : x.budget.limits ≤ limits

variable {g g' : Graph} {inside : NodeId → Prop} {x y : Exploration} {limits limits' : Limits}
  {spot : Spot} {e : Edge} {start : NodeId}

/-! ## What is kept -/

lemma Keeps.enter (h : g.Shares g' inside) (hg : g.WellFormed) (hkeeps : x.Keeps inside limits)
    (hspot : inside spot.node) (henter : x.enter g spot = .ok y) : y.Keeps inside limits := by
  rw [Exploration.enter] at henter
  obtain ⟨-, -, henter⟩ := bind_eq_ok_iff.1 henter
  obtain ⟨edges, hedges, henter⟩ := bind_eq_ok_iff.1 henter
  obtain rfl := Except.ok.inj henter
  refine ⟨List.forall_mem_cons.2 ⟨?_, hkeeps.pending⟩, hkeeps.driver, hkeeps.limits_le⟩
  exact h.inside_of_nextEdges hg hspot hedges

lemma Keeps.look (h : g.Shares g' inside) (hg : g.WellFormed) (hkeeps : x.Keeps inside limits)
    (he : inside e.target) (hlook : x.look g e = .ok y) : y.Keeps inside limits := by
  rw [Exploration.look] at hlook
  obtain ⟨enters, -, hlook⟩ := bind_eq_ok_iff.1 hlook
  split at hlook
  · rw [hit_eq_ok hlook]
    exact ⟨hkeeps.pending, fun d hd => Option.some.inj hd ▸ he, hkeeps.limits_le⟩
  · split at hlook
    · obtain rfl := Except.ok.inj hlook
      exact ⟨hkeeps.pending, hkeeps.driver, hkeeps.limits_le⟩
    · split at hlook
      · obtain rfl := Except.ok.inj hlook
        exact hkeeps
      · have hspot : inside (Spot.after e).node := he
        exact hkeeps.enter h hg hspot hlook

lemma Keeps.step (h : g.Shares g' inside) (hg : g.WellFormed) (hkeeps : x.Keeps inside limits)
    (hstep : x.step g = .ok (some y)) : y.Keeps inside limits := by
  rcases step_cases hstep with ⟨spot, rest, hstack, rfl⟩ | ⟨spot, e, later, rest, hstack, hlook⟩
  · refine ⟨fun frame hframe => hkeeps.pending frame ?_, hkeeps.driver, hkeeps.limits_le⟩
    exact hstack ▸ List.mem_cons_of_mem _ hframe
  · have hpending := hkeeps.pending
    rw [hstack, List.forall_mem_cons, List.forall_mem_cons] at hpending
    obtain ⟨⟨he, hlater⟩, hrest⟩ := hpending
    refine Keeps.look (x := { x with stack := (spot, later) :: rest }) h hg ?_ he hlook
    exact ⟨List.forall_mem_cons.2 ⟨hlater, hrest⟩, hkeeps.driver, hkeeps.limits_le⟩

/-! ## The same states -/

lemma enter_allow (h : g.Shares g' inside) (hg : g.WellFormed) (hg' : g'.WellFormed)
    (hle : x.budget.limits ≤ limits) (hspot : inside spot.node) (hsettled : Settled (x.enter g spot)) :
    (x.allow limits).enter g' spot = (x.enter g spot).map (·.allow limits) := by
  have hsteps := Budget.checkSteps_allow (b := x.budget.spend) hle hsettled.of_bind
  have hsteps' : (x.allow limits).budget.spend.checkSteps = .ok () := hsteps.2
  rw [enter, enter, hsteps.1, hsteps', h.nextEdges_eq hg hg' hspot]
  cases g.nextEdges .exit spot <;> rfl

lemma hit_allow (h : g.Shares g' inside) (hg : g.WellFormed) (hg' : g'.WellFormed)
    (hkeeps : x.Keeps inside limits) {d : NodeId} (hd : inside d) :
    (x.allow limits).hit g' d = (x.hit g d).map (·.allow limits) := by
  have hdriver : (x.allow limits).driver? = x.driver? := rfl
  rw [hit, hit, hdriver]
  cases hfirst : x.driver? with
  | none => rfl
  | some first =>
    by_cases hsame : first = d
    · simp only [hsame, if_true]
      rfl
    · simp only [hsame, if_false, h.exeIdAt_eq hg hg' (hkeeps.driver first hfirst),
        h.exeIdAt_eq hg hg' hd]
      cases g.exeIdAt first with
      | error err => rfl
      | ok firstId => cases g.exeIdAt d <;> rfl

lemma look_allow (h : g.Shares g' inside) (hg : g.WellFormed) (hg' : g'.WellFormed)
    (hkeeps : x.Keeps inside limits) (he : inside e.target) (hsettled : Settled (x.look g e)) :
    (x.allow limits).look g' e = (x.look g e).map (·.allow limits) := by
  have hstack : (x.allow limits).stack = x.stack := rfl
  have hseen : (x.allow limits).seen = x.seen := rfl
  rw [look] at hsettled
  rw [look, look, h.entersLoop_eq he, hstack, hseen]
  cases henters : g.entersLoop e with
  | error err => rfl
  | ok enters =>
    rw [henters] at hsettled
    simp only [bind, Except.bind] at hsettled ⊢
    cases enters with
    | true => exact hit_allow h hg hg' hkeeps he
    | false =>
      simp only [Bool.false_eq_true, if_false] at hsettled ⊢
      by_cases hback : Spot.after e ∈ x.stack.map Prod.fst
      · rw [if_pos hback, if_pos hback]
        rfl
      · rw [if_neg hback] at hsettled
        rw [if_neg hback, if_neg hback]
        by_cases hold : Spot.after e ∈ x.seen
        · rw [if_pos hold, if_pos hold]
          rfl
        · rw [if_neg hold] at hsettled
          rw [if_neg hold, if_neg hold]
          exact enter_allow h hg hg' hkeeps.limits_le he hsettled

lemma step_allow (h : g.Shares g' inside) (hg : g.WellFormed) (hg' : g'.WellFormed)
    (hkeeps : x.Keeps inside limits) (hsettled : Settled (x.step g)) :
    (x.allow limits).step g' = (x.step g).map (Option.map (·.allow limits)) := by
  have hstack : (x.allow limits).stack = x.stack := rfl
  rw [step, step, hstack]
  rw [step] at hsettled
  cases hx : x.stack with
  | nil => rfl
  | cons frame rest =>
    obtain ⟨spot, pending⟩ := frame
    rw [hx] at hsettled
    cases pending with
    | nil => rfl
    | cons e later =>
      have hpending := hkeeps.pending
      rw [hx, List.forall_mem_cons, List.forall_mem_cons] at hpending
      obtain ⟨⟨he, hlater⟩, hrest⟩ := hpending
      have hkeeps' : Keeps inside limits { x with stack := (spot, later) :: rest } :=
        ⟨List.forall_mem_cons.2 ⟨hlater, hrest⟩, hkeeps.driver, hkeeps.limits_le⟩
      have hsame := look_allow h hg hg' hkeeps' he hsettled.of_map
      show (look (allow { x with stack := (spot, later) :: rest } limits) g' e).map some
        = ((look { x with stack := (spot, later) :: rest } g e).map some).map
            (Option.map (·.allow limits))
      rw [hsame]
      cases look { x with stack := (spot, later) :: rest } g e <;> rfl

/-- Larger limits, in a graph that has the same part, carry over what an exploration does. -/
theorem carries_allow (h : g.Shares g' inside) (hg : g.WellFormed) (hg' : g'.WellFormed)
    (limits : Limits) :
    Carries (Exploration.step g) (Exploration.step g') (fun x => x.Keeps inside limits)
      (·.allow limits) where
  keeps _ _ hx hstep := hx.step h hg hstep
  map _ hx hsettled := step_allow h hg hg' hx hsettled

lemma explore_allow (h : g.Shares g' inside) (hg : g.WellFormed) (hg' : g'.WellFormed)
    {budget : Budget} (hle : budget.limits ≤ limits) (hstart : inside start)
    (hsettled : Settled (explore g budget start).result) :
    explore g' (budget.allow limits) start
        = ⟨(explore g budget start).last.allow limits, (explore g budget start).result⟩ ∧
      (explore g budget start).last.Keeps inside limits := by
  have hblank : Keeps inside limits { budget } := ⟨by simp, by simp, hle⟩
  have hspot : inside (Spot.mk start .start).node := hstart
  have hblank' : ({ budget := budget.allow limits } : Exploration) = allow { budget } limits := rfl
  rw [explore] at hsettled
  rw [explore, explore, hblank']
  cases hbegin : enter { budget } g ⟨start, .start⟩ with
  | error err =>
    rw [hbegin] at hsettled
    rw [enter_allow h hg hg' hblank.limits_le hspot (hbegin ▸ hsettled.of_eq_error rfl), hbegin]
    exact ⟨rfl, hblank⟩
  | ok x =>
    rw [hbegin] at hsettled
    rw [enter_allow h hg hg' hblank.limits_le hspot (hbegin ▸ settled_ok x), hbegin]
    have hkeeps := hblank.enter h hg hspot hbegin
    have hcarries := carries_allow h hg hg' limits
    exact ⟨hcarries.iterate_eq hkeeps hsettled, iterate_keeps (step g) hcarries.keeps hkeeps⟩

/-- The driver of a verdict is the one that was noted. -/
lemma driver?_of_verdict {d : NodeId} (h : x.verdict = .ok d) : x.driver? = some d := by
  unfold verdict at h
  split at h
  · rename_i first hfirst
    rw [hfirst, Except.ok.inj h]
  · split at h <;> cases h

/-- A resolution that is made within its limits is the same in a shared part. -/
theorem resolveDriver_eq (h : g.Shares g' inside) (hg : g.WellFormed) (hg' : g'.WellFormed)
    (hstart : inside start) (hle : limits ≤ limits')
    (hsettled : Settled (g.resolveDriver limits start).result) :
    g'.resolveDriver limits' start = g.resolveDriver limits start := by
  obtain ⟨node, hnode, -⟩ := h.nodeAt start hstart
  have hexeId := hg.exeIdAt_of_nodeAt hnode
  have hexeId' : g'.exeIdAt start = .ok node.exeId := (h.exeIdAt_eq hg hg' hstart).trans hexeId
  unfold Graph.resolveDriver at hsettled ⊢
  simp only [hexeId, hexeId'] at hsettled ⊢
  have hexplored : Settled (explore g { start := node.exeId, limits } start).result := by
    generalize explore g { start := node.exeId, limits } start = halt at hsettled
    cases hresult : halt.result with
    | ok _ => exact settled_ok ()
    | error err =>
      rw [hresult] at hsettled
      exact hsettled.of_eq_error rfl
  have hsame : explore g' { start := node.exeId, limits := limits' } start = _ ∧ _ :=
    explore_allow h hg hg' hle hstart hexplored
  obtain ⟨hsame, hkeeps⟩ := hsame
  rw [hsame]
  generalize explore g { start := node.exeId, limits } start = halt at hkeeps ⊢
  have hverdict : (halt.last.allow limits').verdict = halt.last.verdict := rfl
  rw [hverdict]
  cases halt.result with
  | error err => rfl
  | ok _ =>
    cases hd : halt.last.verdict with
    | error err => rfl
    | ok d =>
      simp only [bind, Except.bind, h.exeIdAt_eq hg hg' (hkeeps.driver d (driver?_of_verdict hd))]
      rfl

/-- A driver that is the answer is there. -/
lemma exists_node_of_resolveDriver (hg : g.WellFormed) {node : Node} (hnode : g.nodeAt start = .ok node)
    {d : NodeId} (h : (g.resolveDriver limits start).result = .ok d) :
    ∃ driver, g.nodeAt d = .ok driver := by
  rcases answers_or_stepLimit hg hnode limits with hanswers | ⟨limit, hsteps⟩
  · exact Graph.Renaming.exists_node_of_hits hg (((hanswers.driver d).1 h d).2 rfl)
  · rw [hsteps] at h
    cases h

end Exploration

/-! ## Queries -/

lemma Settled.of_andThen {α β : Type} {r : Report α} {f : α → Report β}
    (h : Settled (r.andThen f).result) : Settled r.result := by
  cases hr : r.result with
  | ok a => exact settled_ok a
  | error err => exact h.of_eq_error (Report.result_andThen_eq_error_iff.2 (.inl hr))

/-- A report that goes on is the same if its parts are. -/
lemma Report.andThen_congr {α β : Type} {r : Report α} {f f' : α → Report β}
    (h : ∀ a, r.result = .ok a → f a = f' a) : r.andThen f = r.andThen f' := by
  rw [andThen, andThen]
  cases hr : r.result with
  | ok a => simp only [h a hr]
  | error err => rfl

namespace Analysis

/-- Limits only grow when a workflow is extended. -/
lemma limits_le_of_extend {w : Workflow} {nodes : List NodeDecl} {connections : List Connection}
    {g g' : Graph} (hgraph : Graph.ofWorkflow w = .ok g)
    (hgraph' : Graph.ofWorkflow (w.extend nodes connections) = .ok g') (settings : Settings) :
    settings.limits g ≤ settings.limits g' := by
  have hnodes : g.nodeCount ≤ g'.nodeCount := by
    rw [Graph.nodeCount_of_ofWorkflow hgraph, Graph.nodeCount_of_ofWorkflow hgraph',
      Workflow.extend, List.length_append]
    exact Nat.le_add_right _ _
  have hedges : g.edgeCount ≤ g'.edgeCount := by
    obtain ⟨more, hmore, -⟩ := Graph.exists_edges_of_extend hgraph hgraph'
    rw [Graph.edgeCount, Graph.edgeCount, Arena.size_eq_length, Arena.size_eq_length, hmore,
      List.length_append]
    exact Nat.le_add_right _ _
  constructor
  · rw [Settings.limits, Settings.limits]
    cases settings.maxSteps with
    | some limit => exact Nat.le_refl limit
    | none => exact Nat.mul_le_mul (Nat.add_le_add_right hnodes 1) (Nat.add_le_add_right hedges 1)
  · exact max_le_max_left 1 (Nat.mul_le_mul_left 2 hnodes)

/-- Declarations that are appended where no walk from a node comes to do not interfere: whatever was
answered about the node within the limits is answered in the same way, and the same is told. That a
connection is a broadcast, or that it leaves a node that is not reached, is enough for that. -/
theorem answers_of_extend {w : Workflow} {nodes : List NodeDecl} {connections : List Connection}
    {settings : Settings} {a a' : Analysis} (hbuilt : (ofWorkflow w settings).2 = .ok a)
    (hbuilt' : (ofWorkflow (w.extend nodes connections) settings).2 = .ok a') {n : NodeDecl}
    (hn : n ∈ w.nodes)
    (hfree : ∀ c ∈ connections, c.source.role = .inner ∨ ¬ w.Reaches n.exeId c.source.node) :
    (Settled (a.loopDriverOf n.exeId).result →
      a'.loopDriverOf n.exeId = a.loopDriverOf n.exeId) ∧
    (Settled (a.failureRoutes n.exeId).result →
      a'.failureRoutes n.exeId = a.failureRoutes n.exeId) ∧
    (Settled (a.resetCycles n.exeId).result →
      a'.resetCycles n.exeId = a.resetCycles n.exeId) := by
  obtain ⟨g, settings⟩ := a
  obtain ⟨g', settings'⟩ := a'
  obtain ⟨hgraph, rfl⟩ := eq_of_ofWorkflow hbuilt
  obtain ⟨hgraph', rfl⟩ := eq_of_ofWorkflow hbuilt'
  have hg := Graph.wellFormed_ofWorkflow hgraph
  have hg' := Graph.wellFormed_ofWorkflow hgraph'
  have hshares := Graph.shares_of_extend hgraph hgraph' hfree
  have hle := limits_le_of_extend hgraph hgraph' settings'
  obtain ⟨i, hi⟩ := List.mem_iff_getElem?.1 hn
  have hnode : g.nodeAt ⟨i⟩ = .ok (Node.ofDecl ⟨i⟩ n) :=
    (Graph.nodeAt_of_ofWorkflow hgraph).2 ⟨n, hi, rfl⟩
  have hstart : ∃ node, g.nodeAt ⟨i⟩ = .ok node ∧ w.Reaches n.exeId node.exeId :=
    ⟨_, hnode, .refl⟩
  -- the node has the same number in both graphs
  have hid : g.nodeId n.exeId = .ok ⟨i⟩ := hg.nodeId_eq_ok_iff.2 (hg.exeIdAt_of_nodeAt hnode)
  have hid' : g'.nodeId n.exeId = .ok ⟨i⟩ := by
    have hnode' := Graph.nodeAt_of_extend hgraph hgraph' hnode
    exact hg'.nodeId_eq_ok_iff.2 (hg'.exeIdAt_of_nodeAt hnode')
  have hquery : ∀ {α : Type} (f : NodeId → Report α),
      (Report.quiet (g.nodeId n.exeId)).andThen f = f ⟨i⟩ := by
    intro α f
    rw [hid]
    rfl
  have hquery' : ∀ {α : Type} (f : NodeId → Report α),
      (Report.quiet (g'.nodeId n.exeId)).andThen f = f ⟨i⟩ := by
    intro α f
    rw [hid']
    rfl
  refine ⟨fun hsettled => ?_, fun hsettled => ?_, fun hsettled => ?_⟩
  · rw [loopDriverOf, Graph.loopDriverOf, hquery] at hsettled
    rw [loopDriverOf, loopDriverOf, Graph.loopDriverOf, Graph.loopDriverOf, hquery, hquery']
    have hsame : g'.resolveDriver (settings'.limits g') ⟨i⟩ = g.resolveDriver (settings'.limits g) ⟨i⟩ :=
      Exploration.resolveDriver_eq hshares hg hg' hstart hle hsettled.of_andThen
    show (g'.resolveDriver (settings'.limits g') ⟨i⟩).andThen _ = _
    rw [hsame]
    refine Report.andThen_congr fun d hd => ?_
    obtain ⟨driver, hdriver⟩ := Exploration.exists_node_of_resolveDriver hg hnode hd
    rw [hdriver, Graph.nodeAt_of_extend hgraph hgraph' hdriver]
  · rw [failureRoutes, Graph.failureRoutes, hquery] at hsettled
    rw [failureRoutes, failureRoutes, Graph.failureRoutes, Graph.failureRoutes, hquery, hquery']
    exact Failure.plan_eq hshares hg hg' hstart hle hsettled
  · rw [resetCycles, Graph.resetCycles, hquery] at hsettled
    rw [resetCycles, resetCycles, Graph.resetCycles, Graph.resetCycles, hquery, hquery']
    exact Reset.plan_eq hshares hg hg' hstart hle hsettled

/-- A logger that is told what the inner driver broadcasts, and that triggers the worker. -/
def logger : NodeDecl where
  exeId := "log"
  inputs := [⟨"i", "in"⟩]
  outputs := [⟨"o", "out"⟩]

/-- The connections of the logger. -/
def loggerConnections : List Connection :=
  [⟨⟨"inner", "o", .inner⟩, ⟨"log", "i", .same⟩⟩, ⟨⟨"log", "o", .same⟩, ⟨"work", "i", .same⟩⟩]

/-- A node is reached from itself, or it is the target of a connection. -/
lemma eq_or_target_of_reaches {w : Workflow} {start node : String} (h : w.Reaches start node) :
    node = start ∨ ∃ c ∈ w.connections, c.target.node = node := by
  rcases Relation.ReflTransGen.cases_tail h with heq | ⟨_, -, c, hc, -, htarget⟩
  · exact .inl heq
  · exact .inr ⟨c, hc, htarget⟩

lemma settled_of_isOk {α : Type} {result : Except Error α} (h : result.isOk = true) :
    Settled result := by
  obtain ⟨a, rfl⟩ := exists_ok_of_isOk h
  exact settled_ok a

/-- The loop within a loop, under the default settings. -/
def nestedLoops : Analysis := ⟨.nestedLoops, {}⟩

lemma ofWorkflow_nestedLoops : (ofWorkflow .nestedLoops {}).2 = .ok nestedLoops := by
  have hgraph : (Draft.ofWorkflow .nestedLoops).graph = .ok .nestedLoops :=
    Graph.ofWorkflow_nestedLoops
  simp only [ofWorkflow, hgraph]
  rfl

/-- A logger does not change the answers about the worker of the loop within a loop. -/
theorem answers_of_extend_nestedLoops :
    ∃ a', (ofWorkflow (Workflow.nestedLoops.extend [logger] loggerConnections) {}).2 = .ok a' ∧
      (∀ c ∈ loggerConnections,
        c.source.role = .inner ∨ ¬ Workflow.nestedLoops.Reaches "work" c.source.node) ∧
      Settled (nestedLoops.loopDriverOf "work").result ∧
      Settled (nestedLoops.failureRoutes "work").result ∧
      a'.loopDriverOf "work" = nestedLoops.loopDriverOf "work" ∧
      a'.failureRoutes "work" = nestedLoops.failureRoutes "work" := by
  obtain ⟨a', ha'⟩ := exists_ok_of_isOk
    (x := (ofWorkflow (Workflow.nestedLoops.extend [logger] loggerConnections) {}).2)
    (by decide +kernel)
  have hwork : ∃ n ∈ Workflow.nestedLoops.nodes, n.exeId = "work" := by decide
  obtain ⟨n, hn, hwork⟩ := hwork
  have hfree : ∀ c ∈ loggerConnections,
      c.source.role = .inner ∨ ¬ Workflow.nestedLoops.Reaches "work" c.source.node := by
    have hcases : ∀ c ∈ loggerConnections, c.source.role = .inner ∨ ¬ (c.source.node = "work" ∨
        ∃ d ∈ Workflow.nestedLoops.connections, d.target.node = c.source.node) := by decide
    exact fun c hc => (hcases c hc).imp_right fun hfar h => hfar (eq_or_target_of_reaches h)
  have hdriver : Settled (nestedLoops.loopDriverOf "work").result := settled_of_isOk (by cbv)
  have hroutes : Settled (nestedLoops.failureRoutes "work").result := settled_of_isOk (by cbv)
  obtain ⟨hdriver', hroutes', -⟩ :=
    answers_of_extend ofWorkflow_nestedLoops ha' hn (hwork ▸ hfree)
  rw [hwork] at hdriver' hroutes'
  exact ⟨a', ha', hfree, hdriver, hroutes, hdriver' hdriver, hroutes' hroutes⟩

end Analysis

end WorkflowLoops

import Mathlib
import WorkflowLoops.Proofs.Driver.Extension
import WorkflowLoops.Proofs.Driver.Spots
import WorkflowLoops.Proofs.Search.Termination

/-!
# Explorations come to an end

An exploration enters no spot twice, and besides its start there are no more spots to reach than edges.
So with one step more than there are edges it never runs out of steps, and the steps that are left count
the spots that it has not seen. Under all such limits it takes the same number of steps. Then nothing is
left on its stack, unless it was stopped in between because it came to a second driver
(`Exploration.endsByItself`).

Together with the searches of the planners: no query of a graph needs its limits to come to an end
(`searches_end`).
-/

namespace WorkflowLoops

/-- Limits that no query reaches: as many steps as there are edges and one more, and a hop for each
edge. -/
def Limits.beyond (g : Graph) : Limits := ⟨g.edgeCount + 1, g.edgeCount⟩

namespace Exploration

/-- How an exploration is to end: with nothing left on the stack, unless two drivers are hit, which is a
conflict. -/
structure Concludes (g : Graph) (start : NodeId) (name : String) (last : Exploration)
    (result : Except Error Unit) : Prop where
  done : (∀ d d', Hits g start d → Hits g start d' → d = d') → result = .ok () ∧ last.stack = []
  conflict : ∀ d d', Hits g start d → Hits g start d' → d ≠ d' → ∃ first second,
    result = .error (.malformed (.conflictingDrivers name first second))

/-- Whether the exploration from a start ends by itself: from the state in which the start was entered
it takes a certain number of steps under all limits that are large enough, and ends as it is to. -/
def EndsByItself (g : Graph) (least : Limits) (start : NodeId) (name : String) : Prop :=
  ∃ count, ∀ limits, least ≤ limits → ∃ first last result,
    enter { budget := { start := name, limits } } g ⟨start, .start⟩ = .ok first ∧
      EndsIn (step g) count first last result ∧ Concludes g start name last result

variable {g : Graph} {start : NodeId} {node : Node} {x first last : Exploration} {limits : Limits}
  {count : Nat} {result : Except Error Unit}

/-- All nodes of a graph are a part of it. -/
lemma shares_self (hg : g.WellFormed) : g.Shares g fun id => ∃ node, g.nodeAt id = .ok node where
  nodeAt id hid := by
    obtain ⟨node, hnode⟩ := hid
    exact ⟨node, hnode, hnode⟩
  closed e he _ := by
    obtain ⟨node, hnode, -⟩ := hg.exists_target he
    exact ⟨node, hnode⟩
  outgoing _ _ _ := rfl

/-- Larger limits change neither how many steps an exploration takes nor where it ends. -/
lemma endsIn_allow (hg : g.WellFormed) (h : EndsIn (step g) count x last result)
    (hkeeps : x.Keeps (fun id => ∃ node, g.nodeAt id = .ok node) limits) (hsettled : Settled result) :
    EndsIn (step g) count (x.allow limits) (last.allow limits) result :=
  (carries_allow (shares_self hg) hg hg limits).endsIn h hkeeps hsettled

/-- An exploration that does not run out of steps ends as it is to. -/
lemma concludes_explore (hg : g.WellFormed) {budget : Budget}
    (hexeId : g.exeIdAt start = .ok budget.start)
    (hsettled : Settled (explore g budget start).result) :
    Concludes g start budget.start (explore g budget start).last (explore g budget start).result := by
  rcases finished_or_stops hg budget hexeId with ⟨hok, hfinished⟩ | ⟨err, herr, hstops⟩
  · refine ⟨fun _ => ⟨hok, hfinished.done⟩, fun d d' hd hd' hne => absurd ?_ hne⟩
    rw [hfinished.hits_iff] at hd hd'
    exact Option.some.inj (hd.symm.trans hd')
  · rw [herr] at hsettled ⊢
    cases hstops with
    | steps limit => exact absurd rfl (hsettled.steps _ limit)
    | conflict hd hd' hne _ _ =>
      exact ⟨fun hone => absurd (hone _ _ hd hd') hne, fun _ _ _ _ _ => ⟨_, _, rfl⟩⟩

/-- An exploration with one step more than there are edges does not run out of steps. -/
lemma settled_explore (hg : g.WellFormed) {budget : Budget}
    (hexeId : g.exeIdAt start = .ok budget.start) (hused : budget.used = 0)
    (hsince : budget.sinceEnd = 0) (hmore : g.edgeCount < budget.limits.maxSteps) :
    Settled (explore g budget start).result := by
  constructor
  · intro name limit herr
    obtain ⟨-, -, hoverruns⟩ := counted_explore hg budget hexeId hused hsince
    obtain ⟨spots, hnodup, hreach, hlong⟩ := hoverruns name limit herr
    have hfew := length_le_of_reaches hg hnodup hreach
    omega
  · intro name limit herr
    rcases finished_or_stops hg budget hexeId with ⟨hok, -⟩ | ⟨err, herr', hstops⟩
    · rw [hok] at herr
      cases herr
    · rw [herr'] at herr
      obtain rfl := Except.error.inj herr
      cases hstops

/-- An exploration enters its start if it may take a step. -/
lemma enter_blank {budget : Budget} {spot : Spot} {edges : List Edge}
    (hsteps : budget.sinceEnd < budget.limits.maxSteps) (hedges : g.nextEdges .exit spot = .ok edges) :
    enter { budget } g spot
      = .ok { stack := [(spot, edges)], seen := [spot], budget := budget.spend } := by
  have hchecked : budget.spend.checkSteps = .ok () :=
    (budget.spend.checkSteps_eq_ok_iff).2 hsteps
  exact bind_eq_ok_iff.2 ⟨(), hchecked, bind_eq_ok_iff.2 ⟨edges, hedges, rfl⟩⟩

/-- An exploration ends by itself: there are no more spots than edges besides its start. -/
theorem endsByItself (hg : g.WellFormed) (hnode : g.nodeAt start = .ok node) :
    EndsByItself g (.beyond g) start node.exeId := by
  have hexeId := hg.exeIdAt_of_nodeAt hnode
  have hsettled : Settled (explore g { start := node.exeId, limits := .beyond g } start).result :=
    settled_explore hg hexeId rfl rfl (Nat.lt_succ_self _)
  have hconcludes := concludes_explore hg hexeId hsettled
  have hkind : g.kind (Spot.mk start .start).node = .ok _ := Graph.kind_of_nodeAt hnode
  obtain ⟨edges, hedges⟩ : ∃ edges, g.nextEdges .exit ⟨start, .start⟩ = .ok edges :=
    ⟨_, Graph.nextEdges_of_kind hkind⟩
  -- the states in which the start was entered differ in their limits only
  have henter : ∀ limits, .beyond g ≤ limits →
      enter { budget := { start := node.exeId, limits } } g ⟨start, .start⟩
        = .ok { stack := [(⟨start, .start⟩, edges)]
                seen := [⟨start, .start⟩]
                budget := Budget.spend { start := node.exeId, limits } } := fun limits hle =>
    enter_blank (Nat.lt_of_lt_of_le (Nat.succ_pos _) hle.1) hedges
  have hfirst := henter (.beyond g) ⟨Nat.le_refl _, Nat.le_refl _⟩
  rw [explore, hfirst] at hsettled hconcludes
  obtain ⟨count, hends⟩ := exists_endsIn_iterate (step g) _
  refine ⟨count, fun limits hle => ⟨_, _, _, henter limits hle, endsIn_allow hg hends ?_ hsettled, ?_⟩⟩
  · exact Keeps.enter (shares_self hg) hg ⟨by simp, by simp, hle⟩ ⟨node, hnode⟩ hfirst
  · exact ⟨hconcludes.done, hconcludes.conflict⟩

end Exploration

/-! ## Queries -/

/-- No query of a graph needs its limits to come to an end. -/
structure Graph.SearchesEnd (g : Graph) : Prop where
  routes : ∀ stop start node, g.nodeAt start = .ok node →
    ∃ openings, g.openings stop.walk start = .ok openings ∧
      ∀ opening ∈ openings,
        Search.EndsByItself (Failure.strategy g stop start) (.beyond g) opening.2
  cycles : ∀ start node, g.nodeAt start = .ok node →
    ∃ openings, g.openings .reset start = .ok openings ∧
      ∀ opening ∈ openings, Search.EndsByItself (Reset.strategy g start) (.beyond g) opening.2
  drivers : ∀ start node, g.nodeAt start = .ok node →
    Exploration.EndsByItself g (.beyond g) start node.exeId

variable {g : Graph}

lemma Search.EndsByItself.mono {σ : Strategy} {least least' : Limits} {first : List Edge}
    (h : EndsByItself σ least first) (hle : least ≤ least') : EndsByItself σ least' first := by
  intro s hs
  obtain ⟨count, hcount⟩ := h s hs
  exact ⟨count, fun limits hle' => hcount limits ⟨hle.1.trans hle'.1, hle.2.trans hle'.2⟩⟩

/-- The searches of both planners and the exploration for a driver end by themselves, from every node:
after a number of steps that is the same under all limits that are large enough, and with nothing left
to do. Only an exploration that comes to a second driver stops there. -/
theorem searches_end {source : Workflow} (hbuilt : Graph.ofWorkflow source = .ok g) :
    g.SearchesEnd := by
  have hg := Graph.wellFormed_ofWorkflow hbuilt
  have hleast : Limits.mk g.edges.toList.length g.edges.toList.length ≤ .beyond g := by
    rw [Limits.beyond, Graph.edgeCount, Arena.size_eq_length]
    exact ⟨Nat.le_succ _, Nat.le_refl _⟩
  have hjoin : ∀ {walk : Walk} (e f : Edge), f ∈ g.onward walk (.after e) → f.source = e.target :=
    fun e f hf => hg.source_eq_of_mem_onward hf
  refine ⟨fun stop start node hnode => ?_, fun start node hnode => ?_,
    fun start node hnode => Exploration.endsByItself hg hnode⟩
  · obtain ⟨openings, hopenings⟩ := Graph.WellFormed.exists_openings stop.walk hnode
    refine ⟨openings, hopenings, fun opening hmem => ?_⟩
    exact (Search.endsByItself (Failure.keepsTo_guide hg start) hjoin
      (hg.openings_subset hnode hopenings opening hmem)).mono hleast
  · obtain ⟨openings, hopenings⟩ := Graph.WellFormed.exists_openings .reset hnode
    refine ⟨openings, hopenings, fun opening hmem => ?_⟩
    exact (Search.endsByItself (Reset.keepsTo_guide hg start) hjoin
      (hg.openings_subset hnode hopenings opening hmem)).mono hleast

/-- Around the hub, a controller that is entered on all levels, all searches end. -/
theorem searches_end_hub : Graph.ofWorkflow .hub = .ok .hub ∧ Graph.SearchesEnd .hub :=
  ⟨Graph.ofWorkflow_hub, searches_end Graph.ofWorkflow_hub⟩

/-- A worker that leads to two drivers. -/
def Workflow.rivals : Workflow where
  nodes := [
    { exeId := "work", outputs := [⟨"o", "out"⟩] },
    { exeId := "one", inputs := [⟨"i", "in"⟩], isDriver := true },
    { exeId := "two", inputs := [⟨"i", "in"⟩], isDriver := true }]
  connections := [
    ⟨⟨"work", "o", .same⟩, ⟨"one", "i", .same⟩⟩,
    ⟨⟨"work", "o", .same⟩, ⟨"two", "i", .same⟩⟩]

/-- The graph of the worker that leads to two drivers. -/
def Graph.rivals : Graph :=
  match Graph.ofWorkflow .rivals with
  | .ok g => g
  | .error _ => ⟨{}, {}, {}, {}⟩

theorem Graph.ofWorkflow_rivals : Graph.ofWorkflow .rivals = .ok .rivals := by
  obtain ⟨g, hg⟩ := exists_ok_of_isOk (x := Graph.ofWorkflow .rivals) (by decide +kernel)
  rw [Graph.rivals, hg]

/-- An exploration does not always go on until its stack is empty: from the worker it stops at the second
driver, with steps of its budget left. -/
theorem conflict_rivals :
    Graph.ofWorkflow .rivals = .ok .rivals ∧ ∃ first last,
      Exploration.enter { budget := { start := "work", limits := .beyond .rivals } } .rivals
        ⟨⟨0⟩, .start⟩ = .ok first ∧
      (∃ count, EndsIn (Exploration.step .rivals) count first last
        (.error (.malformed (.conflictingDrivers "work" "one" "two")))) ∧
      last.stack ≠ [] ∧ last.budget.used < last.budget.limits.maxSteps ∧
      ¬ ∃ count last', EndsIn (Exploration.step .rivals) count first last' (.ok ()) := by
  obtain ⟨first, hfirst⟩ := exists_ok_of_isOk
    (x := Exploration.enter { budget := { start := "work", limits := .beyond .rivals } } .rivals
      ⟨⟨0⟩, .start⟩) (by decide +kernel)
  have hexplore : Exploration.explore .rivals { start := "work", limits := .beyond .rivals } ⟨0⟩
      = iterate (Exploration.step .rivals) first := by
    rw [Exploration.explore, hfirst]
  have hresult : (Exploration.explore .rivals { start := "work", limits := .beyond .rivals } ⟨0⟩).result
      = .error (.malformed (.conflictingDrivers "work" "one" "two")) := by
    cbv
  have hlast : (Exploration.explore .rivals { start := "work", limits := .beyond .rivals }
      ⟨0⟩).last.stack.length = 1 := by
    cbv
  have hleft : decide ((Exploration.explore .rivals { start := "work", limits := .beyond .rivals }
      ⟨0⟩).last.budget.used < (Exploration.explore .rivals
        { start := "work", limits := .beyond .rivals } ⟨0⟩).last.budget.limits.maxSteps) = true := by
    cbv
  rw [hexplore] at hresult hlast hleft
  obtain ⟨count, hends⟩ := exists_endsIn_iterate (Exploration.step .rivals) first
  rw [hresult] at hends
  refine ⟨Graph.ofWorkflow_rivals, first, _, hfirst, ⟨count, hends⟩, ?_, of_decide_eq_true hleft, ?_⟩
  · exact List.ne_nil_of_length_eq_add_one hlast
  · rintro ⟨count', last', hends'⟩
    rw [iterate_of_endsIn hends'] at hresult
    cases hresult

end WorkflowLoops

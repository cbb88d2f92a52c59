import Mathlib
import WorkflowLoops.Proofs.Failure.Trails
import WorkflowLoops.Proofs.Graph.Extension
import WorkflowLoops.Proofs.Reset.Cycles
import WorkflowLoops.Proofs.Search.States

/-!
# Searches in a shared part

Two strategies that make the same moves along the edges that a search comes to lead it through the same
states, and so do larger limits as long as the search does not reach its own (`Search.carries_allow`,
`Survey.run_allow`). In a shared part of two graphs the strategies of both planners make the same moves.
So a plan that is made within its limits is the same in both graphs, with all that is told on the way
(`Failure.plan_eq`, `Reset.plan_eq`).
-/

namespace WorkflowLoops

/-! ## Limits -/

/-- Limits that allow at least as many steps and hops. -/
instance : LE Limits where
  le limits limits' :=
    limits.maxSteps ≤ limits'.maxSteps ∧ limits.maxPathLength ≤ limits'.maxPathLength

/-- Whether a result was come to before a limit was reached. -/
structure Settled {α : Type} (result : Except Error α) : Prop where
  steps : ∀ name limit, result ≠ .error (.malformed (.stepLimitExceeded name limit))
  length : ∀ name limit, result ≠ .error (.malformed (.pathTooLong name limit))

lemma settled_ok {α : Type} (a : α) : Settled (.ok a) := ⟨by simp, by simp⟩

lemma Settled.of_eq_error {α β : Type} {result : Except Error α} {err : Error}
    (h : Settled result) (herr : result = .error err) : Settled (.error err : Except Error β) where
  steps name limit heq := h.steps name limit (herr.trans (by rw [Except.error.inj heq]))
  length name limit heq := h.length name limit (herr.trans (by rw [Except.error.inj heq]))

lemma Settled.of_bind {α β : Type} {result : Except Error α} {f : α → Except Error β}
    (h : Settled (result >>= f)) : Settled result := by
  cases result with
  | ok a => exact settled_ok a
  | error err => exact h.of_eq_error rfl

lemma Settled.of_map {α β : Type} {result : Except Error α} {f : α → β} (h : Settled (result.map f)) :
    Settled result := by
  cases result with
  | ok a => exact settled_ok a
  | error err => exact h.of_eq_error rfl

/-- Whether steps do the same where the states with a property are read in another way, as long as they
come to no limit. -/
structure Carries {α : Type} (step step' : α → Except Error (Option α)) (P : α → Prop) (f : α → α) :
    Prop where
  keeps : ∀ s t, P s → step s = .ok (some t) → P t
  map : ∀ s, P s → Settled (step s) → step' (f s) = (step s).map (Option.map f)

namespace Carries

variable {α : Type} {step step' : α → Except Error (Option α)} {P : α → Prop} {f : α → α} {s last : α}
  {count : Nat} {result : Except Error Unit}

/-- There are as many steps to the end. -/
theorem endsIn (h : Carries step step' P f) (hends : EndsIn step count s last result) (hs : P s)
    (hsettled : Settled result) : EndsIn step' count (f s) (f last) result := by
  induction hends with
  | done hstep =>
    have hsame := h.map _ hs (hstep ▸ settled_ok none)
    rw [hstep] at hsame
    exact .done hsame
  | stopped hstep =>
    have hsame := h.map _ hs (hstep ▸ hsettled.of_eq_error rfl)
    rw [hstep] at hsame
    exact .stopped hsame
  | next hstep _ ih =>
    have hsame := h.map _ hs (hstep ▸ settled_ok (some _))
    rw [hstep] at hsame
    exact .next hsame (ih (h.keeps _ _ hs hstep) hsettled)

/-- The end is the same. -/
theorem iterate_eq [Terminates step] [Terminates step'] (h : Carries step step' P f) (hs : P s)
    (hsettled : Settled (iterate step s).result) :
    iterate step' (f s) = ⟨f (iterate step s).last, (iterate step s).result⟩ := by
  obtain ⟨count, hends⟩ := exists_endsIn_iterate step s
  exact iterate_of_endsIn (h.endsIn hends hs hsettled)

end Carries

namespace Budget

/-- A budget under other limits. -/
def allow (b : Budget) (limits : Limits) : Budget := { b with limits }

variable {b : Budget} {limits : Limits}

lemma checkSteps_allow (hle : b.limits ≤ limits) (hsettled : Settled b.checkSteps) :
    b.checkSteps = .ok () ∧ (b.allow limits).checkSteps = .ok () := by
  have hok : b.checkSteps = .ok () := by
    rw [checkSteps_eq_ok_iff]
    by_contra hmore
    exact hsettled.steps b.start b.limits.maxSteps (if_pos (by omega))
  exact ⟨hok, (checkSteps_eq_ok_iff _).2 (((checkSteps_eq_ok_iff _).1 hok).trans hle.1)⟩

lemma checkLength_allow {length : Nat} (hle : b.limits ≤ limits)
    (hsettled : Settled (b.checkLength length)) :
    b.checkLength length = .ok () ∧ (b.allow limits).checkLength length = .ok () := by
  have hok : b.checkLength length = .ok () := by
    rw [checkLength_eq_ok_iff]
    by_contra hmore
    exact hsettled.length b.start b.limits.maxPathLength (if_pos (by omega))
  exact ⟨hok, (checkLength_eq_ok_iff _ _).2 (((checkLength_eq_ok_iff _ _).1 hok).trans hle.2)⟩

end Budget

/-! ## Searches -/

/-- Strategies that make the same moves along good edges, and go on along good edges from there. -/
structure Strategy.AgreesOn (σ σ' : Strategy) (good : Edge → Prop) : Prop where
  root : σ'.root = σ.root
  marksRoot : σ'.marksRoot = σ.marksRoot
  move : ∀ e, good e → ∀ onPath, σ'.move onPath e = σ.move onPath e
  next : ∀ e, good e → ∀ onPath visit next, σ.move onPath e = .ok (.enter visit next) →
    ∀ f ∈ next, good f

namespace Search

/-- A search under other limits. -/
def allow (s : Search) (limits : Limits) : Search := { s with budget := s.budget.allow limits }

/-- Whether a search is to go along good edges only. -/
def Keeps (good : Edge → Prop) (s : Search) : Prop := ∀ frame ∈ s.stack, ∀ e ∈ frame.pending, good e

variable {σ σ' : Strategy} {good : Edge → Prop} {s t : Search} {limits : Limits} {visit : Visit}
  {e : Edge} {later : List Edge} {rest : List Frame}

lemma proceed_allow (path : Path) (move : Move) :
    (s.allow limits).proceed visit later rest path move
      = (s.proceed visit later rest path move).allow limits := by
  cases move <;> rfl

/-- Taking an edge is the same where the move is. -/
lemma take_allow (hle : s.budget.limits ≤ limits) (hmove : σ'.move s.onPath e = σ.move s.onPath e)
    (hsettled : Settled (s.take σ visit e later rest)) :
    (s.allow limits).take σ' visit e later rest
      = (s.take σ visit e later rest).map (·.allow limits) := by
  have hsteps := Budget.checkSteps_allow (b := s.budget.spend) hle hsettled.of_bind
  have hsteps' : (s.allow limits).budget.spend.checkSteps = .ok () := hsteps.2
  have hpath : (s.allow limits).path = s.path := rfl
  rw [take, hsteps.1] at hsettled
  rw [take, take, hsteps.1, hsteps', hpath]
  cases hpush : s.path.push? e.hop with
  | none => rfl
  | some path =>
    rw [hpush] at hsettled
    have hlength := Budget.checkLength_allow (b := s.budget) hle (Settled.of_bind hsettled)
    have hlength' : (s.allow limits).budget.checkLength path.length = .ok () := hlength.2
    have hmove' : σ'.move (s.allow limits).onPath e = σ.move s.onPath e := hmove
    show ((s.allow limits).budget.checkLength path.length >>= fun _ => _)
      = Except.map _ (s.budget.checkLength path.length >>= fun _ => _)
    rw [hlength.1, hlength', hmove']
    cases σ.move s.onPath e with
    | error err => rfl
    | ok move => exact congrArg Except.ok (proceed_allow path move)

/-- A step is the same where the search keeps to edges on which the strategies agree. -/
lemma step_allow (hσ : σ.AgreesOn σ' good) (hle : s.budget.limits ≤ limits) (hkeeps : s.Keeps good)
    (hsettled : Settled (s.step σ)) :
    (s.allow limits).step σ' = (s.step σ).map (Option.map (·.allow limits)) := by
  have hstack : (s.allow limits).stack = s.stack := rfl
  rw [step, step, hstack]
  rw [step] at hsettled
  cases h : s.stack with
  | nil => rfl
  | cons frame rest =>
    obtain ⟨visit, pending⟩ := frame
    rw [h] at hsettled
    cases pending with
    | nil => rfl
    | cons e later =>
      have hgood : good e := hkeeps _ (h ▸ List.mem_cons_self ..) e (List.mem_cons_self ..)
      simp only [take_allow hle (hσ.move e hgood s.onPath) hsettled.of_map]
      cases s.take σ visit e later rest <;> rfl

lemma Keeps.step (hσ : σ.AgreesOn σ' good) (hkeeps : s.Keeps good) (h : s.step σ = .ok (some t)) :
    t.Keeps good := by
  rcases step_cases h with ⟨visit, rest, hstack, rfl⟩ |
    ⟨visit, e, later, rest, hstack, -, path, -, -, move, hmove, rfl⟩
  · exact fun frame hframe => hkeeps frame (hstack ▸ List.mem_cons_of_mem _ hframe)
  · rw [Keeps, hstack, List.forall_mem_cons, List.forall_mem_cons] at hkeeps
    obtain ⟨⟨hgood, hlater⟩, hrest⟩ := hkeeps
    cases move with
    | finish keep => exact List.forall_mem_cons.2 ⟨hlater, hrest⟩
    | enter entered next =>
      refine List.forall_mem_cons.2 ⟨?_, List.forall_mem_cons.2 ⟨hlater, hrest⟩⟩
      exact hσ.next e hgood _ _ _ hmove

/-- Larger limits carry over what a search does. -/
theorem carries_allow (hσ : σ.AgreesOn σ' good) (limits : Limits) :
    Carries (Search.step σ) (Search.step σ') (fun s => s.budget.limits ≤ limits ∧ s.Keeps good)
      (·.allow limits) where
  keeps _ _ hs hstep := ⟨(budget_of_step hstep).1 ▸ hs.1, hs.2.step hσ hstep⟩
  map _ hs hsettled := step_allow hσ hs.1 hs.2 hsettled

end Search

namespace Survey

/-- A survey under other limits. -/
def allow (v : Survey) (limits : Limits) : Survey := { v with search := v.search.allow limits }

variable {σ σ' : Strategy} {good : Edge → Prop} {limits : Limits} {budget : Budget}

/-- A survey that reaches no limit of its own lists the same. -/
theorem run_allow (hσ : σ.AgreesOn σ' good) (hle : budget.limits ≤ limits)
    {openings : List (String × List Edge)} (hgood : ∀ opening ∈ openings, ∀ e ∈ opening.2, good e)
    (hsettled : Settled (run σ budget openings).result) :
    run σ' (budget.allow limits) openings = (run σ budget openings).allow limits := by
  induction openings using List.reverseRecOn with
  | nil => rfl
  | append_singleton before opening ih =>
    rw [List.forall_mem_append, List.forall_mem_singleton] at hgood
    rw [run_concat] at hsettled
    rw [run_concat, run_concat]
    cases hbefore : (run σ budget before).result with
    | error err =>
      -- the survey was stopped before
      have hbefore' : ((run σ budget before).allow limits).result = .error err := hbefore
      rw [advance_of_error hbefore] at hsettled ⊢
      rw [ih hgood.1 hsettled, advance_of_error hbefore']
    | ok _ =>
      have hrest := ih hgood.1 (hbefore ▸ settled_ok ())
      have hbefore' : ((run σ budget before).allow limits).result = .ok () := hbefore
      have hrestart : ((run σ budget before).allow limits).search.restart σ' opening.2
          = ((run σ budget before).search.restart σ opening.2).allow limits := by
        rw [Search.restart, Search.restart, hσ.root, hσ.marksRoot]
        rfl
      have hkeeps : ((run σ budget before).search.restart σ opening.2).Keeps good :=
        List.forall_mem_singleton.2 hgood.2
      have hlimits : ((run σ budget before).search.restart σ opening.2).budget.limits ≤ limits :=
        (budget_run σ budget before).1.symm ▸ hle
      rw [advance_of_ok hbefore] at hsettled
      have hrun := (Search.carries_allow hσ limits).iterate_eq ⟨hlimits, hkeeps⟩ hsettled
      rw [hrest, advance_of_ok hbefore', advance_of_ok hbefore, hrestart, hrun]
      rfl

end Survey

/-! ## Plans -/

variable {g g' : Graph} {inside : NodeId → Prop} {start : NodeId} {limits limits' : Limits}

namespace Failure

variable {stop : StopRule} {dedup : Bool}

lemma visitOf_eq (h : g.Shares g' inside) (hg : g.WellFormed) (hg' : g'.WellFormed) {e : Edge}
    (he : inside e.target) : visitOf g' stop e = visitOf g stop e := by
  rw [visitOf, visitOf, h.kind_eq hg hg' he]

lemma followable_eq (h : g.Shares g' inside) (hg : g.WellFormed) (hg' : g'.WellFormed) {e : Edge}
    (he : inside e.target) (onPath : List Visit) :
    followable g' stop onPath e = followable g stop onPath e := by
  have hspot : inside (Spot.after e).node := he
  rw [followable, followable, h.nextEdges_eq hg hg' hspot]
  cases hnext : g.nextEdges stop.walk (.after e) with
  | error err => rfl
  | ok next =>
    have hvisits : next.mapM (visitOf g' stop) = next.mapM (visitOf g stop) :=
      mapM_congr fun f hf => visitOf_eq h hg hg' (h.inside_of_nextEdges hg hspot hnext f hf)
    simp only [bind, Except.bind, hvisits]

/-- A search goes on along edges that a walk goes on along. -/
lemma subset_of_followable {onPath : List Visit} {e : Edge} {next : List Edge}
    (h : followable g stop onPath e = .ok next) :
    ∃ all, g.nextEdges stop.walk (.after e) = .ok all ∧ next ⊆ all := by
  obtain ⟨all, hall, h⟩ := bind_eq_ok_iff.1 h
  obtain ⟨visits, -, h⟩ := bind_eq_ok_iff.1 h
  obtain rfl := Except.ok.inj h
  refine ⟨all, hall, fun f hf => ?_⟩
  obtain ⟨⟨f, visit⟩, hmem, rfl⟩ := List.mem_map.1 hf
  exact (List.of_mem_zip (List.mem_of_mem_filter hmem)).1

/-- In a shared part the searches for the routes of a failure make the same moves. -/
lemma agreesOn (h : g.Shares g' inside) (hg : g.WellFormed) (hg' : g'.WellFormed) (start : NodeId) :
    (strategy g stop start).AgreesOn (strategy g' stop start) fun e => inside e.target where
  root := rfl
  marksRoot := rfl
  move e he onPath := by
    show move g' stop onPath e = move g stop onPath e
    simp only [move, endsAt, h.entersLoop_eq he, visitOf_eq h hg hg' he,
      followable_eq h hg hg' he]
  next e he onPath visit next hmove := by
    obtain ⟨ends, -, hmove⟩ := bind_eq_ok_iff.1 hmove
    obtain ⟨entered, -, hmove⟩ := bind_eq_ok_iff.1 hmove
    split at hmove
    · cases hmove
    · obtain ⟨ahead, hahead, hmove⟩ := bind_eq_ok_iff.1 hmove
      obtain ⟨all, hall, hsub⟩ := subset_of_followable hahead
      split at hmove
      · cases hmove
      · obtain ⟨-, rfl⟩ := Move.enter.inj (Except.ok.inj hmove)
        exact fun f hf => h.inside_of_nextEdges hg he hall f (hsub hf)

/-- A plan that is made within its limits is the same in a shared part. -/
theorem plan_eq (h : g.Shares g' inside) (hg : g.WellFormed) (hg' : g'.WellFormed)
    (hstart : inside start) (hle : limits ≤ limits')
    (hsettled : Settled (plan g limits stop dedup start).result) :
    plan g' limits' stop dedup start = plan g limits stop dedup start := by
  obtain ⟨node, hnode, hnode'⟩ := h.nodeAt start hstart
  obtain ⟨openings, hopenings⟩ := Graph.WellFormed.exists_openings stop.walk hnode
  have hopenings' : g'.openings stop.walk start = .ok openings :=
    (h.openings_eq hg hg' hstart).trans hopenings
  rw [result_plan hnode hopenings] at hsettled
  have hrun : Survey.run (strategy g' stop start) { start := node.exeId, limits := limits' } openings
      = (Survey.run (strategy g stop start) { start := node.exeId, limits } openings).allow limits' :=
    Survey.run_allow (agreesOn h hg hg' start) hle
      (h.inside_of_openings hg hstart hnode hopenings) hsettled.of_map
  simp only [plan, hnode, hnode', hopenings, hopenings', hrun]
  generalize Survey.run (strategy g stop start) { start := node.exeId, limits } openings = survey
  rfl

end Failure

namespace Reset

lemma followable_eq (h : g.Shares g' inside) (hg : g.WellFormed) (hg' : g'.WellFormed) {e : Edge}
    (he : inside e.target) (onPath : List Visit) :
    followable g' onPath e = followable g onPath e := by
  have hspot : inside (Spot.after e).node := he
  rw [followable, followable, h.nextEdges_eq hg hg' hspot]

/-- In a shared part the searches for the cycles of a reset make the same moves. -/
lemma agreesOn (h : g.Shares g' inside) (hg : g.WellFormed) (hg' : g'.WellFormed) (driver : NodeId) :
    (strategy g driver).AgreesOn (strategy g' driver) fun e => inside e.target where
  root := rfl
  marksRoot := rfl
  move e he onPath := by
    show move g' driver onPath e = move g driver onPath e
    rw [move, move, followable_eq h hg hg' he]
  next e he onPath visit next hmove := by
    have hmove : move g driver onPath e = .ok (.enter visit next) := hmove
    rw [move] at hmove
    split at hmove
    · cases hmove
    · split at hmove
      · cases hmove
      · obtain ⟨ahead, hahead, hmove⟩ := bind_eq_ok_iff.1 hmove
        obtain ⟨all, hall, hahead⟩ := bind_eq_ok_iff.1 hahead
        obtain rfl := Except.ok.inj hahead
        split at hmove
        · cases hmove
        · obtain ⟨-, rfl⟩ := Move.enter.inj (Except.ok.inj hmove)
          exact fun f hf => h.inside_of_nextEdges hg he hall f (List.mem_of_mem_filter hf)

/-- A plan that is made within its limits is the same in a shared part. -/
theorem plan_eq (h : g.Shares g' inside) (hg : g.WellFormed) (hg' : g'.WellFormed)
    (hstart : inside start) (hle : limits ≤ limits')
    (hsettled : Settled (plan g limits start).result) :
    plan g' limits' start = plan g limits start := by
  obtain ⟨node, hnode, hnode'⟩ := h.nodeAt start hstart
  obtain ⟨openings, hopenings⟩ := Graph.WellFormed.exists_openings .reset hnode
  have hopenings' : g'.openings .reset start = .ok openings :=
    (h.openings_eq hg hg' hstart).trans hopenings
  simp only [plan, hnode, hnode', hopenings, hopenings']
  cases hdriver : node.isDriver with
  | false => simp only [Bool.false_eq_true, if_false]
  | true =>
    rw [result_plan hnode hdriver hopenings] at hsettled
    have hrun : Survey.run (strategy g' start) { start := node.exeId, limits := limits' } openings
        = (Survey.run (strategy g start) { start := node.exeId, limits } openings).allow limits' :=
      Survey.run_allow (agreesOn h hg hg' start) hle
        (h.inside_of_openings hg hstart hnode hopenings) hsettled.of_map
    rw [hrun]
    generalize Survey.run (strategy g start) { start := node.exeId, limits } openings = survey
    rfl

end Reset

end WorkflowLoops

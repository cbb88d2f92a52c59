import Mathlib.Data.List.Nodup
import WorkflowLoops.Proofs.Driver.Exploration

/-!
# How many spots an exploration enters

An exploration takes a step of its budget for every spot that it enters, and it enters no spot twice.
A spot other than the start is where an edge leads to, so there is at most one more of them than there
are edges (`length_le_of_reaches`). Only an exploration that would enter more spots than it may take steps
runs out of steps (`Overruns`, in `counted_explore`).
-/

namespace WorkflowLoops

namespace Exploration

/-- Every spot that was entered has been paid for with one step, under given limits. -/
structure Counted (limits : Limits) (x : Exploration) : Prop where
  limits_eq : x.budget.limits = limits
  nodup : x.seen.Nodup
  used : x.budget.used = x.seen.length
  /-- An exploration ends no paths. -/
  sinceEnd : x.budget.sinceEnd = x.seen.length

variable {g : Graph} {start : NodeId} {x y : Exploration} {spot : Spot} {e : Edge}
  {later : List Edge} {rest : List (Spot × List Edge)} {limits : Limits} {name : String} {limit : Nat}

/-! ## Steps -/

lemma counted_blank {budget : Budget} (hused : budget.used = 0) (hsince : budget.sinceEnd = 0) :
    Counted budget.limits { budget } where
  limits_eq := rfl
  nodup := List.nodup_nil
  used := hused
  sinceEnd := hsince

/-- A new spot takes one step. -/
lemma Counted.enter (h : x.Counted limits) (hnew : spot ∉ x.seen) (henter : x.enter g spot = .ok y) :
    y.Counted limits := by
  unfold Exploration.enter at henter
  obtain ⟨-, -, henter⟩ := bind_eq_ok_iff.1 henter
  obtain ⟨edges, -, henter⟩ := bind_eq_ok_iff.1 henter
  obtain rfl := Except.ok.inj henter
  refine ⟨h.limits_eq, List.nodup_cons.2 ⟨hnew, h.nodup⟩, ?_, ?_⟩
  · simp [Budget.spend, h.used]
  · simp [Budget.spend, h.sinceEnd]

/-- Looking at an edge enters a spot only if it was not seen. -/
lemma Counted.look (h : x.Counted limits) (hlook : x.look g e = .ok y) : y.Counted limits := by
  unfold Exploration.look at hlook
  obtain ⟨enters, -, hlook⟩ := bind_eq_ok_iff.1 hlook
  split at hlook
  · rw [hit_eq_ok hlook]
    exact ⟨h.limits_eq, h.nodup, h.used, h.sinceEnd⟩
  · split at hlook
    · obtain rfl := Except.ok.inj hlook
      exact ⟨h.limits_eq, h.nodup, h.used, h.sinceEnd⟩
    · split at hlook
      · obtain rfl := Except.ok.inj hlook
        exact h
      · rename_i hnew
        exact h.enter hnew hlook

lemma Counted.step (h : x.Counted limits) (hstep : Exploration.step g x = .ok (some y)) : y.Counted limits := by
  rcases step_cases hstep with ⟨spot, rest, -, rfl⟩ | ⟨spot, e, later, rest, -, hlook⟩
  · exact ⟨h.limits_eq, h.nodup, h.used, h.sinceEnd⟩
  · exact Counted.look (x := { x with stack := (spot, later) :: rest })
      ⟨h.limits_eq, h.nodup, h.used, h.sinceEnd⟩ hlook

/-! ## Running out of steps -/

/-- What there is to see when an exploration runs out of steps: more spots than it may take steps. -/
def Overruns (g : Graph) (start : NodeId) (maxSteps : Nat) : Prop :=
  ∃ spots : List Spot, spots.Nodup ∧ (∀ spot ∈ spots, Reaches g start spot) ∧
    maxSteps < spots.length

/-- A conflict is no lack of steps. -/
lemma hit_ne_stepLimit {d : NodeId} :
    x.hit g d ≠ .error (.malformed (.stepLimitExceeded name limit)) := by
  intro h
  unfold hit at h
  split at h
  · cases h
  · split at h
    · cases h
    · rcases bind_eq_error_iff.1 h with hfirst | ⟨firstId, -, h⟩
      · cases eq_fault_of_orFault hfirst
      rcases bind_eq_error_iff.1 h with hsecond | ⟨secondId, -, h⟩
      · cases eq_fault_of_orFault hsecond
      · cases h

/-- The spot for which there was no step is one more that is reached. -/
lemma Counted.overruns_of_enter (h : x.Counted limits) (hseen : ∀ s ∈ x.seen, Reaches g start s)
    (hspot : Reaches g start spot) (hnew : spot ∉ x.seen)
    (herr : x.budget.spend.checkSteps = .error (.malformed (.stepLimitExceeded name limit))) :
    Overruns g start limits.maxSteps := by
  refine ⟨spot :: x.seen, List.nodup_cons.2 ⟨hnew, h.nodup⟩,
    List.forall_mem_cons.2 ⟨hspot, hseen⟩, ?_⟩
  unfold Budget.checkSteps at herr
  split at herr
  · rename_i hmore
    have hsince := h.sinceEnd
    simp only [Budget.spend, h.limits_eq] at hmore
    rw [List.length_cons]
    omega
  · cases herr

/-- Looking at an edge runs out of steps only where it would enter one spot too many. -/
lemma Counted.overruns_of_look (h : x.Counted limits) (hsound : x.Sound g start) (hg : g.WellFormed)
    (hstack : x.stack = (spot, e :: later) :: rest)
    (herr : Exploration.look { x with stack := (spot, later) :: rest } g e
      = .error (.malformed (.stepLimitExceeded name limit))) :
    Overruns g start limits.maxSteps := by
  obtain ⟨hreach, hgoes⟩ := hsound.reaches_top hstack
  have hthere : e ∈ g.edges.toList := (hg.goesOn_mem_edges hgoes).1
  obtain ⟨enters, henters⟩ := hg.exists_entersLoop hthere
  unfold Exploration.look at herr
  rw [henters] at herr
  cases enters with
  | true => exact absurd herr hit_ne_stepLimit
  | false =>
    simp only [bind, Except.bind, Bool.false_eq_true, if_false] at herr
    split at herr
    · cases herr
    · split at herr
      · cases herr
      · rename_i hnew
        rw [Exploration.enter] at herr
        rcases bind_eq_error_iff.1 herr with hsteps | ⟨_, -, herr⟩
        · exact h.overruns_of_enter hsound.reaches (hreach.tail ⟨e, hgoes, henters, rfl⟩) hnew hsteps
        · -- a spot that an edge leads to has edges that go on
          rw [hg.nextEdges_after .exit hthere] at herr
          cases herr

lemma Counted.overruns_of_step (h : x.Counted limits) (hsound : x.Sound g start) (hg : g.WellFormed)
    (herr : Exploration.step g x = .error (.malformed (.stepLimitExceeded name limit))) :
    Overruns g start limits.maxSteps := by
  obtain ⟨spot, e, later, rest, hstack, hlook⟩ := step_error_cases herr
  exact h.overruns_of_look hsound hg hstack hlook

/-! ## Runs -/

/-- From its first spot on, an exploration enters no spot twice, and it runs out of steps only where
there are too many spots. -/
lemma Counted.run (h : x.Counted limits) (hsound : x.Sound g start) (hg : g.WellFormed) :
    (iterate (Exploration.step g) x).last.Counted limits ∧
      ∀ name limit,
        (iterate (Exploration.step g) x).result
            = .error (.malformed (.stepLimitExceeded name limit)) →
          Overruns g start limits.maxSteps := by
  obtain ⟨hlast, hlastSound⟩ := iterate_keeps (Exploration.step g)
    (P := fun y => y.Counted limits ∧ y.Sound g start)
    (fun y z hy hstep => ⟨hy.1.step hstep, (hy.2.step hstep).1⟩) ⟨h, hsound⟩
  exact ⟨hlast, fun name limit herr =>
    hlast.overruns_of_step hlastSound hg (step_last_of_error herr)⟩

/-- An exploration enters no spot twice, and every spot that it enters is reached. -/
theorem counted_explore (hg : g.WellFormed) (budget : Budget)
    (hstart : g.exeIdAt start = .ok budget.start) (hused : budget.used = 0)
    (hsince : budget.sinceEnd = 0) :
    (explore g budget start).last.Counted budget.limits ∧
      (∀ spot ∈ (explore g budget start).last.seen, Reaches g start spot) ∧
      ∀ name limit,
        (explore g budget start).result = .error (.malformed (.stepLimitExceeded name limit)) →
          Overruns g start budget.limits.maxSteps := by
  have hblank := sound_blank hstart
  have hcounted := counted_blank hused hsince
  rw [explore]
  cases hbegin : Exploration.enter { budget } g ⟨start, .start⟩ with
  | error err =>
    refine ⟨hcounted, by simp, fun name limit herr => ?_⟩
    obtain rfl : err = _ := Except.error.inj herr
    rw [Exploration.enter] at hbegin
    rcases bind_eq_error_iff.1 hbegin with hsteps | ⟨_, -, hnext⟩
    · exact hcounted.overruns_of_enter hblank.reaches .refl List.not_mem_nil hsteps
    · -- the start has edges that go on
      obtain ⟨node, hnode, -⟩ := hg.exists_nodeAt_of_exeIdAt hstart
      have hkind : g.kind (Spot.mk start .start).node = .ok _ := Graph.kind_of_nodeAt hnode
      rw [Graph.nextEdges_of_kind hkind] at hnext
      cases hnext
  | ok x =>
    have hx := hcounted.enter List.not_mem_nil hbegin
    rw [Exploration.enter] at hbegin
    obtain ⟨-, -, hbegin⟩ := bind_eq_ok_iff.1 hbegin
    obtain ⟨edges, hnext, hbegin⟩ := bind_eq_ok_iff.1 hbegin
    obtain rfl := Except.ok.inj hbegin
    have hsound := hblank.push .refl (by simp) hnext
    obtain ⟨hlast, hoverruns⟩ := hx.run hsound hg
    exact ⟨hlast, (hsound.run hg).1.reaches, hoverruns⟩

/-- Of different spots that are reached, there is at most one more than there are edges. -/
theorem length_le_of_reaches (hg : g.WellFormed) {spots : List Spot} (hnodup : spots.Nodup)
    (hreach : ∀ spot ∈ spots, Reaches g start spot) : spots.length ≤ g.edgeCount + 1 := by
  have hsub : spots ⊆ ⟨start, .start⟩ :: g.edges.toList.map Spot.after := by
    intro spot hspot
    rcases mem_of_reaches hg (hreach spot hspot) with hfirst | ⟨e, he, hafter⟩
    · exact hfirst ▸ List.mem_cons_self ..
    · exact List.mem_cons_of_mem _ (List.mem_map.2 ⟨e, he, hafter⟩)
  have hlength := hnodup.length_le_of_subset hsub
  rwa [List.length_cons, List.length_map, ← Arena.size_eq_length] at hlength

end Exploration

end WorkflowLoops

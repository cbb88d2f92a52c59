import WorkflowLoops.Iteration
import WorkflowLoops.Report
import WorkflowLoops.Search.Budget
import WorkflowLoops.Walk.Rules

/-!
# Resolution of loop drivers

The driver that governs a node is found by walking out of the node's loop. Every spot that the walk
can reach is explored once. An edge that enters the loop of a driver
is a hit on that driver and is not walked along. All hits have to be on one driver.

The main statement is that every step either uses up a step of the budget or takes something off the
stack, so the exploration always ends.
-/

namespace WorkflowLoops

/-- The state of an exploration. -/
structure Exploration where
  /-- The spots under exploration, each reached from the one below it, with the edges still to be
  looked at. -/
  stack : List (Spot × List Edge) := []
  /-- All spots explored so far. -/
  seen : List Spot := []
  /-- The driver that was hit. -/
  driver? : Option NodeId := none
  /-- Whether an edge led back to a spot under exploration. -/
  looped : Bool := false
  budget : Budget
deriving DecidableEq, Repr

namespace Exploration

/-- Explore a new spot. -/
def enter (x : Exploration) (g : Graph) (spot : Spot) : Except Error Exploration := do
  x.budget.spend.checkSteps
  let edges ← g.nextEdges .exit spot
  pure { x with
    stack := (spot, edges) :: x.stack
    seen := spot :: x.seen
    budget := x.budget.spend }

/-- Note a hit on a driver. -/
def hit (x : Exploration) (g : Graph) (driver : NodeId) : Except Error Exploration :=
  match x.driver? with
  | none => pure { x with driver? := some driver }
  | some first =>
    if first = driver then pure x
    else do
      let firstId ← g.exeIdAt first
      let secondId ← g.exeIdAt driver
      throw (.malformed (.conflictingDrivers x.budget.start firstId secondId))

/-- Look at an edge of the spot on top of the stack. -/
def look (x : Exploration) (g : Graph) (e : Edge) : Except Error Exploration := do
  if ← g.entersLoop e then
    x.hit g e.target
  else if Spot.after e ∈ x.stack.map Prod.fst then
    pure { x with looped := true }
  else if Spot.after e ∈ x.seen then
    pure x
  else
    x.enter g (.after e)

/-- One step: look at an edge, or be done with a spot. Nothing is left to do when the stack is
empty. -/
def step (g : Graph) (x : Exploration) : Except Error (Option Exploration) :=
  match x.stack with
  | [] => .ok none
  | (_, []) :: rest => .ok (some { x with stack := rest })
  | (spot, e :: later) :: rest =>
    (look { x with stack := (spot, later) :: rest } g e).map some

/-! ## Termination -/

/-- The steps of the budget that are left. -/
def reserve (x : Exploration) : Nat := x.budget.limits.maxSteps - x.budget.sinceEnd

/-- How much there is on the stack: the spots, and the edges still to be looked at. -/
def load (x : Exploration) : Nat := x.stack.length + (x.stack.flatMap Prod.snd).length

/-- Entering a spot takes a step of the budget. -/
theorem reserve_enter {x y : Exploration} {g : Graph} {spot : Spot} (h : x.enter g spot = .ok y) :
    y.reserve < x.reserve := by
  unfold enter at h
  simp only [bind_eq_ok_iff, pure, Except.pure, Except.ok.injEq] at h
  obtain ⟨_, hsteps, edges, -, rfl⟩ := h
  have hleft := (x.budget.spend.checkSteps_eq_ok_iff).1 hsteps
  simp only [reserve, Budget.spend] at hleft ⊢
  omega

/-- A hit leaves the budget and the stack. -/
theorem hit_eq_ok {x y : Exploration} {g : Graph} {driver : NodeId}
    (h : x.hit g driver = .ok y) : y = { x with driver? := some driver } := by
  unfold hit at h
  split at h
  · exact (Except.ok.inj h).symm
  · rename_i first hfirst
    split at h
    · rename_i hsame
      obtain rfl := Except.ok.inj h
      rw [← hsame, ← hfirst]
    · -- a second driver is an error
      simp [bind_eq_ok_iff, throw, throwThe, MonadExceptOf.throw] at h

/-- Looking at an edge uses up the budget, or it leaves both the budget and the stack. -/
theorem reserve_look {x y : Exploration} {g : Graph} {e : Edge} (h : x.look g e = .ok y) :
    y.reserve < x.reserve ∨ y.reserve = x.reserve ∧ y.load = x.load := by
  unfold look at h
  obtain ⟨enters, -, h⟩ := bind_eq_ok_iff.1 h
  split at h
  · rw [hit_eq_ok h]
    exact .inr ⟨rfl, rfl⟩
  · split at h
    · obtain rfl := Except.ok.inj h
      exact .inr ⟨rfl, rfl⟩
    · split at h
      · obtain rfl := Except.ok.inj h
        exact .inr ⟨rfl, rfl⟩
      · exact .inl (reserve_enter h)

/-- Every step uses up the budget, or it takes something off the stack and leaves the budget. -/
theorem measure_step {x y : Exploration} {g : Graph} (h : x.step g = .ok (some y)) :
    y.reserve < x.reserve ∨ y.reserve = x.reserve ∧ y.load < x.load := by
  obtain ⟨stack, seen, driver?, looped, budget⟩ := x
  unfold step at h
  match stack with
  | [] => simp at h
  | (_, []) :: rest =>
    obtain rfl : _ = y := by simpa using h
    right
    simp [reserve, load]
  | (spot, e :: later) :: rest =>
    simp only at h
    cases hlook : look ⟨(spot, later) :: rest, seen, driver?, looped, budget⟩ g e with
    | error => simp [hlook, Except.map] at h
    | ok z =>
      obtain rfl : z = y := by simpa [hlook, Except.map] using h
      rcases reserve_look hlook with hless | ⟨hsame, hload⟩
      · exact .inl hless
      · refine .inr ⟨hsame, ?_⟩
        rw [hload]
        simp [load]

/-- An exploration always ends: budget and stack get less in lexicographic order. -/
instance (g : Graph) : Terminates (step g) where
  wf := by
    refine Subrelation.wf (fun {y x} h => ?_)
      (InvImage.wf (fun x => (x.reserve, x.load)) (Prod.lex Nat.lt_wfRel Nat.lt_wfRel).wf)
    rcases measure_step h with hless | ⟨hsame, hless⟩
    · exact Prod.Lex.left _ _ hless
    · exact Prod.lex_def.2 (.inr ⟨hsame, hless⟩)

/-- Explore everything that a walk out of the start's loop reaches. -/
def explore (g : Graph) (budget : Budget) (start : NodeId) : Halt Error Exploration :=
  match enter { budget } g ⟨start, .start⟩ with
  | .error e => ⟨{ budget }, .error e⟩
  | .ok x => iterate (step g) x

/-- What a finished exploration says about its start. -/
def verdict (x : Exploration) : Except Error NodeId :=
  match x.driver? with
  | some driver => .ok driver
  | none =>
    if x.looped then .error (.malformed (.driverlessCycle x.budget.start))
    else .error (.noGoverningDriver x.budget.start)

end Exploration

namespace Graph

/-- The driver that governs a node. -/
def resolveDriver (g : Graph) (limits : Limits) (start : NodeId) : Report NodeId :=
  match g.exeIdAt start with
  | .error e => .quiet (.error e)
  | .ok exeId =>
    let halt := Exploration.explore g { start := exeId, limits } start
    let answer := do
      halt.result
      let driver ← halt.last.verdict
      let driverId ← g.exeIdAt driver
      pure (driver, driverId)
    match answer with
    | .error e => { events := .resolving exeId :: Event.ofError e, result := .error e }
    | .ok (driver, driverId) =>
      { events := [.resolving exeId, .resolved exeId driverId halt.last.budget.used]
        result := .ok driver }

/-- The driver of the innermost loop around the node with an execution id. For a driver this is the
driver of the loop around its own. -/
def loopDriverOf (g : Graph) (limits : Limits) (exeId : String) : Report Node :=
  ((Report.quiet (g.nodeId exeId)).andThen (g.resolveDriver limits)).andThen fun driver =>
    .quiet (g.nodeAt driver)

end Graph

end WorkflowLoops

/-!
# Iteration

Searches and explorations do their work step by step. A step leads from a state to the next one, tells
that nothing is left to do, or fails. `iterate` takes steps as long as there are any; that this ends is
a property of the steps, `Terminates`.
-/

namespace WorkflowLoops

/-- How taking steps ended: the last state, and the error that stopped it, if any. -/
structure Halt (ε α : Type) where
  last : α
  result : Except ε Unit

/-- Whether the steps come to an end, from whatever state they start. -/
class Terminates {ε α : Type} (step : α → Except ε (Option α)) : Prop where
  wf : WellFounded fun t s => step s = .ok (some t)

/-- Take steps until nothing is left to do or a step fails. -/
def iterate {ε α : Type} (step : α → Except ε (Option α)) [h : Terminates step] (s : α) : Halt ε α :=
  match _taken : step s with
  | .error err => ⟨s, .error err⟩
  | .ok none => ⟨s, .ok ()⟩
  | .ok (some t) => iterate step t
termination_by h.wf.wrap s
decreasing_by exact _taken

section Steps

variable {ε α : Type} {step : α → Except ε (Option α)} [Terminates step] {s t : α} {err : ε}

theorem iterate_of_step (h : step s = .ok (some t)) : iterate step s = iterate step t := by
  rw [iterate]
  split <;> simp_all

theorem iterate_of_done (h : step s = .ok none) : iterate step s = ⟨s, .ok ()⟩ := by
  rw [iterate]
  split <;> simp_all

theorem iterate_of_error (h : step s = .error err) : iterate step s = ⟨s, .error err⟩ := by
  rw [iterate]
  split <;> simp_all

end Steps

end WorkflowLoops

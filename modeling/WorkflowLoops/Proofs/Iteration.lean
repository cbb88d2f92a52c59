import WorkflowLoops.Iteration

/-!
# Rules for iterated steps

What holds of taking steps, whatever the steps are. A property that every step keeps holds of the last
state (`iterate_keeps`), and there the next step tells why it is the last one (`step_last_of_ok`,
`step_last_of_error`). `EndsIn` says the same without a function, and counts the steps.
-/

namespace WorkflowLoops

variable {ε α : Type} {step : α → Except ε (Option α)} {s last : α} {err : ε} {count : Nat}
  {result : Except ε Unit}

/-- How taking steps comes to its end: after how many steps, in which state, and with which result. -/
inductive EndsIn (step : α → Except ε (Option α)) : Nat → α → α → Except ε Unit → Prop
  /-- Nothing is left to do. -/
  | done {s : α} (hstep : step s = .ok none) : EndsIn step 0 s s (.ok ())
  /-- The next step fails. -/
  | stopped {s : α} {err : ε} (hstep : step s = .error err) : EndsIn step 0 s s (.error err)
  | next {count : Nat} {s t last : α} {result : Except ε Unit} (hstep : step s = .ok (some t))
      (hrest : EndsIn step count t last result) : EndsIn step (count + 1) s last result

variable [Terminates step]

/-- What every step keeps holds of the last state. -/
theorem iterate_keeps (step : α → Except ε (Option α)) [Terminates step] {P : α → Prop}
    (hkeeps : ∀ s t, P s → step s = .ok (some t) → P t) (hs : P s) : P (iterate step s).last := by
  fun_induction iterate step s with
  | case1 s err hstep => exact hs
  | case2 s hstep => exact hs
  | case3 s t hstep ih => exact ih (hkeeps s t hs hstep)

/-- The next step from the last state tells the result. -/
theorem step_last (step : α → Except ε (Option α)) [Terminates step] (s : α) :
    step (iterate step s).last = (iterate step s).result.map fun _ => none := by
  fun_induction iterate step s with
  | case1 s err hstep => exact hstep
  | case2 s hstep => exact hstep
  | case3 s t hstep ih => exact ih

/-- Steps that are not stopped lead to where nothing is left to do. -/
theorem step_last_of_ok (h : (iterate step s).result = .ok ()) :
    step (iterate step s).last = .ok none := by
  rw [step_last step, h]
  rfl

/-- Steps that are stopped lead to where the next one fails. -/
theorem step_last_of_error (h : (iterate step s).result = .error err) :
    step (iterate step s).last = .error err := by
  rw [step_last step, h]
  rfl

theorem exists_endsIn_iterate (step : α → Except ε (Option α)) [Terminates step] (s : α) :
    ∃ count, EndsIn step count s (iterate step s).last (iterate step s).result := by
  fun_induction iterate step s with
  | case1 s err hstep => exact ⟨0, .stopped hstep⟩
  | case2 s hstep => exact ⟨0, .done hstep⟩
  | case3 s t hstep ih =>
    obtain ⟨count, hrest⟩ := ih
    exact ⟨count + 1, .next hstep hrest⟩

/-- There is only one end. -/
theorem iterate_of_endsIn (h : EndsIn step count s last result) :
    iterate step s = ⟨last, result⟩ := by
  induction h with
  | done hstep => exact iterate_of_done hstep
  | stopped hstep => exact iterate_of_error hstep
  | next hstep _ ih => rw [iterate_of_step hstep, ih]

end WorkflowLoops

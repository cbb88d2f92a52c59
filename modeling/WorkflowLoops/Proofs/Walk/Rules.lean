import WorkflowLoops.Proofs.Graph.Lookup

/-!
# The rules of walking as conditions

Which roles a walk follows is told by cases in `Walk.follows`. Here the cases are put together as
conditions on the roles, one for the start and one for a node on the way.
-/

namespace WorkflowLoops

namespace Walk

variable {walk : Walk} {kind : NodeKind} {entered role : LoopRole}

/-- On the way, broadcasts are not followed, a driver is left on the level on which it was entered,
and a controller on the way out is left on the other one. -/
theorem follows_via_iff :
    walk.follows kind (.via entered) role = true ↔
      entered ≠ .inner ∧ role ≠ .inner ∧ (walk ≠ .flow → kind = .driver → role = entered) ∧
        (walk = .exit → kind = .controller → role ≠ entered) := by
  cases walk <;> cases kind <;> cases entered <;> cases role <;> simp [Walk.follows]

/-- At the start, broadcasts are not followed, and a driver is left outwards to get out of its loop and
on its own level to come back. -/
theorem follows_start_iff :
    walk.follows kind .start role = true ↔
      role ≠ .inner ∧ (kind = .driver → walk = .exit → role = .outer) ∧
        (kind = .driver → walk = .reset → role = .same) := by
  cases walk <;> cases kind <;> cases role <;> simp [Walk.follows]

end Walk

/-- Only the last edge of a walk may be a broadcast. -/
theorem Graph.targetRole_ne_inner_of_isChain {g : Graph} {walk : Walk} {w : List Edge}
    (h : w.IsChain fun e f => g.GoesOn walk (.after e) f) :
    ∀ e ∈ w.dropLast, e.targetRole ≠ .inner := by
  induction w with
  | nil => simp
  | cons e rest ih =>
    cases rest with
    | nil => simp
    | cons f rest =>
      rw [List.isChain_cons_cons] at h
      rw [List.dropLast_cons_cons, List.forall_mem_cons]
      obtain ⟨kind, -, -, hfollows⟩ := Graph.goesOn_iff.1 h.1
      exact ⟨(Walk.follows_via_iff.1 hfollows).1, ih h.2⟩

end WorkflowLoops

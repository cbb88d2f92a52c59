import WorkflowLoops.Graph.Basic

/-!
# Limits and budgets

A search lists every path, and there can be exponentially many, so its steps are not bounded over
the whole search but from the end of one path to the end of the next. A search that ends no paths is
bounded as a whole.
-/

namespace WorkflowLoops

/-- Bounds on the work of one query. -/
structure Limits where
  /-- How many steps there may be without a path being ended. -/
  maxSteps : Nat
  /-- How many hops a path may have. -/
  maxPathLength : Nat
deriving DecidableEq, Repr

/-- The bounds that follow from the size of a graph: for each node and one more, as many steps as
there are edges and one more; and two hops for each node, but at least one hop. These are plain
products, exact as long as they fit into 64 bits; beyond, a bound stays at the largest number of 64
bits. -/
def Limits.ofGraph (g : Graph) : Limits where
  maxSteps := (g.nodeCount + 1) * (g.edgeCount + 1)
  maxPathLength := max 1 (2 * g.nodeCount)

/-- The steps of one query, counted against its limits. -/
structure Budget where
  /-- The execution id of the node that the query starts from. -/
  start : String
  limits : Limits
  /-- Steps taken so far. -/
  used : Nat := 0
  /-- Steps taken since a path was ended. -/
  sinceEnd : Nat := 0
deriving DecidableEq, Repr

namespace Budget

/-- Count a step, whether it is allowed or not. -/
def spend (b : Budget) : Budget := { b with used := b.used + 1, sinceEnd := b.sinceEnd + 1 }

/-- Fail if more steps were counted than there may be without a path being ended. -/
def checkSteps (b : Budget) : Except Error Unit :=
  if b.sinceEnd > b.limits.maxSteps then
    .error (.malformed (.stepLimitExceeded b.start b.limits.maxSteps))
  else .ok ()

/-- Record that a path was ended, whether it is kept or not. -/
def endPath (b : Budget) : Budget := { b with sinceEnd := 0 }

/-- Fail if a path is longer than it may be. -/
def checkLength (b : Budget) (length : Nat) : Except Error Unit :=
  if length > b.limits.maxPathLength then
    .error (.malformed (.pathTooLong b.start b.limits.maxPathLength))
  else .ok ()

@[simp] theorem limits_spend (b : Budget) : b.spend.limits = b.limits := rfl

@[simp] theorem limits_endPath (b : Budget) : b.endPath.limits = b.limits := rfl

theorem checkSteps_eq_ok_iff (b : Budget) :
    b.checkSteps = .ok () ↔ b.sinceEnd ≤ b.limits.maxSteps := by
  unfold checkSteps
  split <;> simp <;> omega

theorem checkLength_eq_ok_iff (b : Budget) (length : Nat) :
    b.checkLength length = .ok () ↔ length ≤ b.limits.maxPathLength := by
  unfold checkLength
  split <;> simp <;> omega

end Budget

end WorkflowLoops

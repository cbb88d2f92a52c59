import WorkflowLoops.Search.Backtracking

/-!
# Searching output by output

A query searches from every output of its node in turn. The state of one search, with its path, its
memory and its budget, is where the next one starts over.
-/

namespace WorkflowLoops

/-- The searches done so far. -/
structure Survey where
  /-- The paths listed for each output, in the order of the outputs. -/
  listings : Array (String × List Path) := #[]
  search : Search
  /-- The error that stopped the latest search, if any. -/
  result : Except Error Unit := .ok ()

namespace Survey

/-- Search from one more output, along the edges that its name comes with, unless an error has
stopped the survey. -/
def advance (σ : Strategy) (v : Survey) (opening : String × List Edge) : Survey :=
  match v.result with
  | .error _ => v
  | .ok () =>
    let halt := iterate (Search.step σ) (v.search.restart σ opening.2)
    { listings := v.listings.push (opening.1, halt.last.found.reverse)
      search := halt.last
      result := halt.result }

/-- Search from all outputs. -/
def run (σ : Strategy) (budget : Budget) (openings : List (String × List Edge)) : Survey :=
  openings.foldl (advance σ) { search := { budget } }

end Survey

end WorkflowLoops

/-!
# Stop rules

Where the report of a failure ends its way through the graph.
-/

namespace WorkflowLoops

/-- Where the routes of a failure end. -/
inductive StopRule
  /-- At the driver of the loop that the failure happens in, which handles it for its loop. -/
  | governingDriver
  /-- Only where nothing is left to follow; drivers are passed. -/
  | sink
deriving DecidableEq, Repr

namespace StopRule

instance : Inhabited StopRule := ⟨governingDriver⟩

/-- The word for a stop rule in texts. -/
def text : StopRule → String
  | governingDriver => "driver"
  | sink => "sink"

/-- A text that names no stop rule. -/
structure Unknown where
  text : String
deriving DecidableEq, Repr

/-- The wording of the refusal. -/
def Unknown.message (u : Unknown) : String :=
  "Unknown failure stop rule '" ++ u.text ++ "' (expected 'driver' or 'sink')"

/-- Read a stop rule. -/
def parse (s : String) : Except Unknown StopRule :=
  if s = "driver" ∨ s = "governing-driver" then .ok governingDriver
  else if s = "sink" then .ok sink
  else .error ⟨s⟩

/-- The word for a stop rule reads back as that rule. -/
theorem parse_text (r : StopRule) : parse r.text = .ok r := by
  cases r <;> simp [parse, text]

end StopRule

end WorkflowLoops

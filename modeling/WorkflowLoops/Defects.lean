import WorkflowLoops.Error
import WorkflowLoops.Log

/-!
# Lists of defects

Checking goes on after a defect, so that all of them can be told. At the end one error stands for
the whole list: the defect itself if it is the only one, and otherwise the first one and how many
more there are.
-/

namespace WorkflowLoops.Defects

/-- The log line for a defect at the moment it is found. -/
def logged (d : Defect) : Log.Message := ⟨.trace, "validation error: " ++ d.message⟩

/-- The error that stands for a list of defects; an empty list is no error. -/
def verdict : List Defect → Except Error Unit
  | [] => .ok ()
  | [only] => .error (.malformed only)
  | first :: _ :: rest => .error (.malformed (.aggregated first (rest.length + 1)))

/-- The log lines that tell all defects at the end of the activity called `activity`. -/
def report (activity : String) : List Defect → List Log.Message
  | [] => []
  | defects@(_ :: _) =>
    ⟨.error, "Encountered errors while " ++ activity ++ ":"⟩
      :: defects.map fun d => ⟨.error, "ERROR: " ++ d.message⟩

theorem verdict_eq_ok_iff {ds : List Defect} : verdict ds = .ok () ↔ ds = [] := by
  match ds with
  | [] => simp [verdict]
  | [_] => simp [verdict]
  | _ :: _ :: _ => simp [verdict]

end WorkflowLoops.Defects

/-!
# Log

Messages with a severity. Building a graph and every query say what they write to the log as a list
of messages beside their result.
-/

namespace WorkflowLoops.Log

/-- Severities, from the gravest to the most talkative. -/
inductive Level
  | error
  | warn
  | info
  | debug
  | trace
deriving DecidableEq, Repr, Inhabited

namespace Level

/-- Grave levels come first. -/
def rank : Level → Nat
  | error => 0
  | warn => 1
  | info => 2
  | debug => 3
  | trace => 4

/-- The word for a level in a log line. -/
def text : Level → String
  | error => "ERROR"
  | warn => "WARN"
  | info => "INFO"
  | debug => "DEBUG"
  | trace => "TRACE"

end Level

/-- One line of the log. -/
structure Message where
  level : Level
  text : String
deriving DecidableEq, Repr

/-- The messages that are at least as grave as `most`, in the order they were written. -/
def upTo (most : Level) (ms : List Message) : List Message :=
  ms.filter fun m => m.level.rank ≤ most.rank

end WorkflowLoops.Log

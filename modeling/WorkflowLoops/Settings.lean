import WorkflowLoops.Failure.StopRule
import WorkflowLoops.Search.Budget

/-!
# Settings

What can be tuned about the analyses, each setting by a key and a value that are texts. A setting
that is refused changes nothing.
-/

namespace WorkflowLoops

/-- How queries are to be answered. -/
structure Settings where
  /-- Where the routes of a failure end. -/
  failureStop : StopRule := .governingDriver
  /-- Whether to drop routes that end on an input on which an earlier route ends. -/
  dedupFailureTargets : Bool := false
  /-- How many steps a query may take without ending a path. Without a number it follows from the
  size of the graph. -/
  maxSteps : Option Nat := none
deriving DecidableEq, Repr

/-- Why a setting is refused. -/
inductive SettingError
  | unknownKey (key : String)
  | unknownStopRule (cause : StopRule.Unknown)
  | invalidValue (key value : String)
deriving DecidableEq, Repr

/-- The wording of the refusal. -/
def SettingError.message : SettingError → String
  | unknownKey key =>
    "unknown setting '" ++ key
      ++ "' (expected 'failure-stop', 'dedup-failure-targets' or 'max-steps')"
  | unknownStopRule cause => cause.message
  | invalidValue key value => "invalid value '" ++ value ++ "' for setting '" ++ key ++ "'"

namespace Settings

/-- The number that a run of decimal digits denotes. -/
def ofDigits (digits : List Char) : Nat :=
  digits.foldl (fun n c => 10 * n + (c.toNat - '0'.toNat)) 0

/-- The digits of a number, which may have a plus sign in front. -/
def unsigned : List Char → List Char
  | '+' :: digits => digits
  | digits => digits

/-- Read a number that fits into 64 bits: decimal digits, at least one, and perhaps a plus sign in
front of them. -/
def parseCount? (s : String) : Option Nat :=
  let digits := unsigned s.toList
  if digits ≠ [] ∧ digits.all Char.isDigit ∧ ofDigits digits < UInt64.size then some (ofDigits digits)
  else none

/-- Read a truth value. -/
def parseFlag? (s : String) : Option Bool :=
  if s = "true" then some true else if s = "false" then some false else none

/-- Read a step limit; `auto` lets it follow from the size of the graph. -/
def parseMaxSteps? (s : String) : Option (Option Nat) :=
  if s = "auto" then some none else (parseCount? s).map some

/-- Change one setting. -/
def set (s : Settings) (key value : String) : Except SettingError Settings :=
  if key = "failure-stop" then
    match StopRule.parse value with
    | .ok stop => .ok { s with failureStop := stop }
    | .error cause => .error (.unknownStopRule cause)
  else if key = "dedup-failure-targets" then
    match parseFlag? value with
    | some flag => .ok { s with dedupFailureTargets := flag }
    | none => .error (.invalidValue key value)
  else if key = "max-steps" then
    match parseMaxSteps? value with
    | some limit => .ok { s with maxSteps := limit }
    | none => .error (.invalidValue key value)
  else .error (.unknownKey key)

/-- Change settings one after the other; the first refusal ends it. -/
def setAll (s : Settings) (changes : List (String × String)) : Except SettingError Settings :=
  changes.foldlM (fun s (key, value) => s.set key value) s

/-- The limits for queries about a graph. -/
def limits (s : Settings) (g : Graph) : Limits :=
  let auto := Limits.ofGraph g
  { auto with maxSteps := s.maxSteps.getD auto.maxSteps }

end Settings

end WorkflowLoops

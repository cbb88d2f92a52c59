/-!
# Loop roles

The two ends of a connection each say how the connection relates to the loop nesting of the node
at that end.
-/

namespace WorkflowLoops

/-- Where one end of a connection lies, seen from the loop level of its node. -/
inductive LoopRole
  /-- On the node's own loop level. -/
  | same
  /-- On the level around it. For a driver, this end ties its loop to the enclosing one. -/
  | outer
  /-- On a level nested in it. For a driver, this end broadcasts into its loop. -/
  | inner
deriving DecidableEq, Repr, Inhabited

namespace LoopRole

/-- The word for a role in texts. -/
def text : LoopRole → String
  | same => "same"
  | outer => "outer"
  | inner => "inner"

/-- Whether the role leads into a nested loop. -/
def isInner (r : LoopRole) : Bool := r == inner

/-- Roles in ascending order: own level, enclosing level, nested level. -/
def rank : LoopRole → Nat
  | same => 0
  | outer => 1
  | inner => 2

instance : Ord LoopRole := ⟨fun a b => compare a.rank b.rank⟩

/-- A text that names no role. -/
structure Unknown where
  text : String
deriving DecidableEq, Repr

/-- The wording of the refusal. -/
def Unknown.message (u : Unknown) : String :=
  "Unknown port role '" ++ u.text ++ "' (expected 'same', 'outer' or 'inner')"

/-- Read a role. Case does not matter for the letters `A` to `Z`, and each role has longer
spellings. -/
def parse (s : String) : Except Unknown LoopRole :=
  match s.toLower with
  | "same" | "same_loop" | "self" => .ok same
  | "outer" | "outer_loop" => .ok outer
  | "inner" | "inner_loop" => .ok inner
  | _ => .error ⟨s⟩

/-- The word for a role reads back as that role. -/
theorem parse_text (r : LoopRole) : parse r.text = .ok r := by
  have hlower : r.text.toLower = r.text := by
    cases r <;> decide +kernel
  rw [parse, hlower]
  cases r <;> rfl

end LoopRole

end WorkflowLoops

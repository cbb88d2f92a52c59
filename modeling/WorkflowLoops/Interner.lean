import Std.Data.TreeMap

/-!
# Interner

An interner numbers texts: the first text gets 0, every text not seen before gets the next number,
and a text seen before keeps its number.

All texts stand back to back in one buffer, and a text is told by where it ends there. Numbers are
filed by the hashes of their texts, so looking up a text compares it with the few texts that have the
same hash.
-/

namespace WorkflowLoops

/-- Distinct texts, numbered in the order of their first appearance. -/
structure Interner where
  /-- How texts are hashed. -/
  hash : String → UInt64 := fun text => text.toList.foldl (fun h c => h * 31 + c.val.toUInt64) 7
  /-- All texts, back to back. -/
  buffer : String := ""
  /-- Where each text ends in the buffer, in bytes. -/
  ends : Array Nat := #[]
  /-- The numbers of the texts that have a hash. -/
  filed : Std.TreeMap UInt64 (List Nat) := {}

namespace Interner

/-- The part of a text between two byte positions. There is none unless both positions are boundaries
of characters, the first one not behind the second. -/
def slice? (text : String) (start stop : Nat) : Option String :=
  if h : String.Pos.Raw.IsValid text ⟨start⟩ ∧ String.Pos.Raw.IsValid text ⟨stop⟩ ∧ start ≤ stop then
    some (String.extract (s := text) ⟨⟨start⟩, h.1⟩ ⟨⟨stop⟩, h.2.1⟩)
  else none

/-- How many distinct texts are numbered. -/
def size (t : Interner) : Nat := t.ends.size

/-- Where the text with a given number starts: where the one before it ends. -/
def startOf? (t : Interner) (number : Nat) : Option Nat :=
  if number = 0 then some 0 else t.ends[number - 1]?

/-- The text with a given number. -/
def text? (t : Interner) (number : Nat) : Option String :=
  match t.startOf? number, t.ends[number]? with
  | some start, some stop => slice? t.buffer start stop
  | _, _ => none

/-- The numbers filed under a hash. -/
def filedUnder (t : Interner) (hash : UInt64) : List Nat := t.filed[hash]?.getD []

/-- The number of a text, if it has one. -/
def find? (t : Interner) (text : String) : Option Nat :=
  (t.filedUnder (t.hash text)).find? fun number => t.text? number == some text

/-- Put a text behind all others. -/
def append (t : Interner) (text : String) : Interner where
  hash := t.hash
  buffer := t.buffer ++ text
  ends := t.ends.push (t.buffer ++ text).utf8ByteSize
  filed := t.filed.insert (t.hash text) (t.size :: t.filedUnder (t.hash text))

@[simp] theorem hash_append (t : Interner) (text : String) : (t.append text).hash = t.hash := rfl

/-- The number of a text, a new one if need be, and whether it is new. -/
def intern (t : Interner) (text : String) : (Nat × Bool) × Interner :=
  match t.find? text with
  | some number => ((number, false), t)
  | none => ((t.size, true), t.append text)

/-- Number texts one after the other. -/
def internAll (t : Interner) (texts : List String) : Interner :=
  texts.foldl (fun t text => (t.intern text).2) t

theorem intern_of_find?_eq_some {t : Interner} {text : String} {number : Nat}
    (h : t.find? text = some number) : t.intern text = ((number, false), t) := by
  simp [intern, h]

theorem intern_of_find?_eq_none {t : Interner} {text : String} (h : t.find? text = none) :
    t.intern text = ((t.size, true), t.append text) := by
  simp [intern, h]

end Interner

end WorkflowLoops

import Mathlib
import WorkflowLoops.Proofs.Interner.Keys

/-!
# Interners over any table

Where an interner files its numbers does not matter. All that is relied on is that a table finds a number
exactly if one is filed under the hash that passes the test, and that it files what it is told to
(`HashTable.Files`). A table does not have the texts; when it grows, it asks for their hashes, which the
interner reads off the buffer to which it has just added. So the numbers that an interner files, its
buffer and its ends are the same over all tables (`Follows`), and so is what it answers (`Agrees`).
-/

namespace WorkflowLoops

/-- A kind of table in which numbers are filed under hashes. -/
structure HashTable (τ : Type) where
  empty : τ
  /-- A number that is filed under a hash and passes a test. -/
  find? : τ → UInt64 → (Nat → Bool) → Option Nat
  /-- File one more number under a hash. The table can ask for the hashes of the numbers that it has. -/
  insert : τ → UInt64 → Nat → (Nat → Option UInt64) → τ

/-- What is relied on of a table, by what it has filed. -/
structure HashTable.Files {τ : Type} (T : HashTable τ) (Filed : τ → UInt64 → Nat → Prop) : Prop where
  empty : ∀ hash number, ¬ Filed T.empty hash number
  /-- What is found is filed under the hash and passes the test. -/
  find?_some : ∀ table hash test number, T.find? table hash test = some number →
    Filed table hash number ∧ test number = true
  /-- Nothing is found only if nothing is filed under the hash that passes the test. -/
  find?_none : ∀ table hash test, T.find? table hash test = none →
    ∀ number, Filed table hash number → test number = false
  /-- A number is filed besides the others, if the table is told their hashes. -/
  insert : ∀ table hash number rehash,
    (∀ hash' number', Filed table hash' number' → rehash number' = some hash') →
    ∀ hash' number', Filed (T.insert table hash number rehash) hash' number' ↔
      (number' = number ∧ hash = hash') ∨ Filed table hash' number'

namespace Interner

/-- An interner that files its numbers in a table of some kind. -/
structure Tabled (τ : Type) where
  hash : String → UInt64
  buffer : String := ""
  ends : Array Nat := #[]
  table : τ

namespace Tabled

variable {τ : Type}

/-- How many distinct texts are numbered. -/
def size (s : Tabled τ) : Nat := s.ends.size

/-- The text with a given number. -/
def text? (s : Tabled τ) (number : Nat) : Option String :=
  Interner.text? { hash := s.hash, buffer := s.buffer, ends := s.ends } number

/-- The number of a text, if it has one. -/
def find? (T : HashTable τ) (s : Tabled τ) (text : String) : Option Nat :=
  T.find? s.table (s.hash text) fun number => s.text? number == some text

/-- Put a text behind all others, before it is filed. -/
def push (s : Tabled τ) (text : String) : Tabled τ :=
  { s with
    buffer := s.buffer ++ text
    ends := s.ends.push (s.buffer ++ text).utf8ByteSize }

/-- Put a text behind all others. -/
def append (T : HashTable τ) (s : Tabled τ) (text : String) : Tabled τ :=
  { s.push text with
    table := T.insert s.table (s.hash text) s.size fun number =>
      ((s.push text).text? number).map s.hash }

/-- The number of a text, a new one if need be, and whether it is new. -/
def intern (T : HashTable τ) (s : Tabled τ) (text : String) : (Nat × Bool) × Tabled τ :=
  match s.find? T text with
  | some number => ((number, false), s)
  | none => ((s.size, true), s.append T text)

/-- Number texts one after the other. -/
def internAll (T : HashTable τ) (s : Tabled τ) (texts : List String) : Tabled τ :=
  texts.foldl (fun s text => (s.intern T text).2) s

/-- Whether an interner over a table answers as another one. -/
structure Agrees (T : HashTable τ) (s : Tabled τ) (t : Interner) : Prop where
  size : s.size = t.size
  text? : ∀ number, s.text? number = t.text? number
  find? : ∀ text, s.find? T text = t.find? text
  intern : ∀ text, (s.intern T text).1 = (t.intern text).1
  unchanged : ∀ text, (s.intern T text).1.2 = false → (s.intern T text).2 = s

/-- Whether an interner over a table has the same texts as another one, and the same numbers filed. -/
structure Follows (Filed : τ → UInt64 → Nat → Prop) (s : Tabled τ) (t : Interner) : Prop where
  hash : s.hash = t.hash
  buffer : s.buffer = t.buffer
  ends : s.ends = t.ends
  filed : ∀ hash number, Filed s.table hash number ↔ number ∈ t.filedUnder hash

variable {T : HashTable τ} {Filed : τ → UInt64 → Nat → Prop} {s : Tabled τ} {t : Interner}
  {texts : List String}

namespace Follows

lemma size_eq (h : Follows Filed s t) : s.size = t.size := by
  rw [size, h.ends, Interner.size]

lemma text?_eq (h : Follows Filed s t) (number : Nat) : s.text? number = t.text? number := by
  simp only [text?, Interner.text?, startOf?, h.buffer, h.ends]

/-- The tables find the same number, as only one is that of a text. -/
lemma find?_eq (h : Follows Filed s t) (hT : T.Files Filed) (ht : t.Numbers texts) (text : String) :
    s.find? T text = t.find? text := by
  have hfound : ∀ number, s.find? T text = some number → t.find? text = some number := by
    intro number hfind
    obtain ⟨-, htest⟩ := hT.find?_some _ _ _ _ hfind
    rw [beq_iff_eq, h.text?_eq] at htest
    exact ht.find?_iff_text?.2 htest
  cases hfind : s.find? T text with
  | some number => exact (hfound number hfind).symm
  | none =>
    symm
    rw [Option.eq_none_iff_forall_ne_some]
    intro number hnumber
    have hat := ht.find?_eq_some_iff.1 hnumber
    have hfiled := (h.filed (s.hash text) number).2 ((ht.filed _ _).2 ⟨text, hat, by rw [h.hash]⟩)
    have htest := hT.find?_none _ _ _ hfind number hfiled
    rw [h.text?_eq, ht.find?_iff_text?.1 hnumber] at htest
    simp at htest

/-- The table is told the hashes of the numbers that it has filed. -/
lemma append (h : Follows Filed s t) (hT : T.Files Filed) (ht : t.Numbers texts) {text : String}
    (hnew : text ∉ texts) : Follows Filed (s.append T text) (t.append text) where
  hash := h.hash
  buffer := by
    show s.buffer ++ text = t.buffer ++ text
    rw [h.buffer]
  ends := by
    show s.ends.push (s.buffer ++ text).utf8ByteSize = t.ends.push (t.buffer ++ text).utf8ByteSize
    rw [h.buffer, h.ends]
  filed hash number := by
    have hpushed : ∀ number, (s.push text).text? number = (t.append text).text? number := by
      intro number
      simp only [text?, push, Interner.text?, startOf?, Interner.append, h.buffer, h.ends]
    have hrehash : ∀ hash' number', Filed s.table hash' number' →
        ((s.push text).text? number').map s.hash = some hash' := by
      intro hash' number' hfiled
      obtain ⟨old, hold, rfl⟩ := (ht.filed _ _).1 ((h.filed _ _).1 hfiled)
      have hkept : (texts ++ [text])[number']? = some old := by
        rw [List.getElem?_append_left (List.getElem?_eq_some_iff.1 hold).1, hold]
      rw [hpushed, (ht.append hnew).text?_eq, hkept, h.hash]
      rfl
    rw [Numbers.mem_filedUnder_append, ← h.filed, ← h.size_eq, ← h.hash]
    exact hT.insert _ _ _ _ hrehash hash number

/-- Interning one more text keeps what the interners have in common. -/
lemma intern (h : Follows Filed s t) (hT : T.Files Filed) (ht : t.Numbers texts) (text : String) :
    (s.intern T text).1 = (t.intern text).1 ∧ Follows Filed (s.intern T text).2 (t.intern text).2 := by
  cases hfind : t.find? text with
  | some number =>
    have hfind' := (h.find?_eq hT ht text).trans hfind
    rw [Tabled.intern, hfind', intern_of_find?_eq_some hfind]
    exact ⟨rfl, h⟩
  | none =>
    have hfind' := (h.find?_eq hT ht text).trans hfind
    rw [Tabled.intern, hfind', intern_of_find?_eq_none hfind]
    exact ⟨by rw [h.size_eq], h.append hT ht (ht.find?_eq_none_iff.1 hfind)⟩

theorem agrees (h : Follows Filed s t) (hT : T.Files Filed) (ht : t.Numbers texts) : Agrees T s t where
  size := h.size_eq
  text? := h.text?_eq
  find? := h.find?_eq hT ht
  intern text := (h.intern hT ht text).1
  unchanged text hold := by
    unfold Tabled.intern at hold ⊢
    split at hold
    · rfl
    · cases hold

end Follows

/-- Over any table the same numbers are filed. -/
lemma follows_internAll (hT : T.Files Filed) (hash : String → UInt64) (texts : List String) :
    Follows Filed (internAll T { hash, table := T.empty } texts)
      (({ hash } : Interner).internAll texts) := by
  induction texts using List.reverseRecOn with
  | nil =>
    refine ⟨rfl, rfl, rfl, fun hash' number => iff_of_false (hT.empty _ _) ?_⟩
    simp [Interner.internAll, filedUnder]
  | append_singleton before text ih =>
    rw [internAll_concat, internAll, List.foldl_append]
    exact (ih.intern hT (numbers_internAll hash before) text).2

/-! ## A table that is always rebuilt -/

/-- A table that asks for all hashes whenever a number is filed. -/
def rebuilt : HashTable (List (UInt64 × Nat)) where
  empty := []
  find? table hash test := ((table.filter (·.1 == hash)).map (·.2)).find? test
  insert table hash number rehash :=
    (hash, number) :: table.filterMap fun entry => (rehash entry.2).map fun hash' => (hash', entry.2)

lemma files_rebuilt : rebuilt.Files fun table hash number => (hash, number) ∈ table where
  empty hash number := List.not_mem_nil
  find?_some table hash test number hfind := by
    have hmem := List.mem_of_find?_eq_some hfind
    simp only [List.mem_map, List.mem_filter, beq_iff_eq] at hmem
    obtain ⟨⟨hash', number'⟩, ⟨hentry, rfl⟩, rfl⟩ := hmem
    exact ⟨hentry, List.find?_some hfind⟩
  find?_none table hash test hfind number hfiled := by
    rw [← Bool.not_eq_true]
    refine List.find?_eq_none.1 hfind number (List.mem_map.2 ⟨(hash, number), ?_, rfl⟩)
    exact List.mem_filter.2 ⟨hfiled, beq_self_eq_true hash⟩
  insert table hash number rehash hrehash hash' number' := by
    rw [rebuilt, List.mem_cons, List.mem_filterMap]
    refine or_congr ?_ ⟨?_, fun hfiled => ?_⟩
    · rw [Prod.mk.injEq, and_comm, eq_comm (a := hash')]
    · rintro ⟨⟨old, n⟩, hentry, hsome⟩
      rw [hrehash old n hentry] at hsome
      obtain ⟨rfl, rfl⟩ := Prod.mk.inj (Option.some.inj hsome)
      exact hentry
    · exact ⟨(hash', number'), hfiled, by rw [hrehash hash' number' hfiled]; rfl⟩

end Tabled

/-- However texts are hashed and wherever their numbers are filed, distinct texts are numbered from zero
on in the order in which they come first: a text that is interned again has its number, lookups in both
directions agree, and numbers keep their meaning. -/
theorem interned_over_tables (hash : String → UInt64) (texts : List String) {τ : Type} {T : HashTable τ}
    {Filed : τ → UInt64 → Nat → Prop} (hT : T.Files Filed) :
    Interned (({ hash } : Interner).internAll texts) texts ∧
      Tabled.Agrees T (Tabled.internAll T { hash, table := T.empty } texts)
        (({ hash } : Interner).internAll texts) :=
  ⟨interned_internAll hash texts,
    (Tabled.follows_internAll hT hash texts).agrees hT (numbers_internAll hash texts)⟩

/-- Texts hashed by their lengths. -/
def hashLength (text : String) : UInt64 := text.length.toUInt64

/-- Over a table that is rebuilt each time, with texts of the same hash, an empty and a repeated one. -/
theorem interned_over_rebuilt :
    Tabled.rebuilt.Files (fun table hash number => (hash, number) ∈ table) ∧
      Interned (({ hash := hashLength } : Interner).internAll ["", "a", "ab", "", "é", "b"])
        ["", "a", "ab", "", "é", "b"] ∧
      Tabled.Agrees Tabled.rebuilt
        (Tabled.internAll Tabled.rebuilt { hash := hashLength, table := Tabled.rebuilt.empty }
          ["", "a", "ab", "", "é", "b"])
        (({ hash := hashLength } : Interner).internAll ["", "a", "ab", "", "é", "b"]) ∧
      (({ hash := hashLength } : Interner).internAll ["", "a", "ab", "", "é", "b"]).find? "é"
        = some 3 := by
  obtain ⟨hinterned, hagrees⟩ := interned_over_tables hashLength ["", "a", "ab", "", "é", "b"]
    Tabled.files_rebuilt
  refine ⟨Tabled.files_rebuilt, hinterned, hagrees, (hinterned.find? "é" 3).2 ?_⟩
  exact ⟨["", "a", "ab", ""], ["b"], rfl, by decide, by decide⟩

end Interner

end WorkflowLoops

import Mathlib.Algebra.Ring.Parity
import Mathlib.Data.List.Induction
import WorkflowLoops.Graph.Graphviz

/-!
# Texts between quotes

A text is escaped character by character, which comes to the same as doubling its backslashes first and
then putting one in front of every quote (`escape_eq_replace`). Nothing is lost by it: `unescape` drops
the backslashes again (`unescape_escape`).

Whoever reads on from an opening quote looks for the next quote with an even number of backslashes in
front of it. The main statement is that this is the closing quote, whatever the text is and whatever
follows (`isClosing_escape`); `readText` reads in this way (`readText_escape`).
-/

namespace WorkflowLoops.Graphviz

/-- Characters with the escapes undone: a backslash is dropped, and the character behind it is kept as it
is. -/
def unescapeChars : List Char → List Char
  | '\\' :: c :: cs => c :: unescapeChars cs
  | c :: cs => c :: unescapeChars cs
  | [] => []

/-- A text with the escapes undone. -/
def unescape (s : String) : String := String.ofList (unescapeChars s.toList)

/-- A text with a word in the place of a character, wherever it stands. -/
def replace (s : String) (c : Char) (word : String) : String :=
  String.ofList (s.toList.flatMap fun d => if d = c then word.toList else [d])

/-- The characters up to the first quote that is not escaped, with the escapes undone, and what stands
behind that quote. -/
def readText : List Char → Option (List Char × List Char)
  | [] => none
  | '"' :: cs => some ([], cs)
  | '\\' :: c :: cs => (readText cs).map (Prod.map (c :: ·) id)
  | c :: cs => (readText cs).map (Prod.map (c :: ·) id)

/-- How many backslashes stand at the end of a text. -/
def backslashes (cs : List Char) : Nat := (cs.reverse.takeWhile (· == '\\')).length

/-- Whether the quote that ends a text would stand at a position: a quote that no backslash escapes. Pairs
of backslashes escape each other. -/
def EndsText (cs : List Char) (i : Nat) : Prop := cs[i]? = some '"' ∧ Even (backslashes (cs.take i))

/-- Whether a position is that of the first quote that is not escaped. -/
def IsClosing (cs : List Char) (i : Nat) : Prop := EndsText cs i ∧ ∀ j < i, ¬ EndsText cs j

/-! ## Escapes -/

@[simp] theorem toList_escape (s : String) : (escape s).toList = s.toList.flatMap escapeChar :=
  String.toList_ofList

lemma escapeChar_of_ne {c : Char} (hslash : c ≠ '\\') (hquote : c ≠ '"') : escapeChar c = [c] := by
  unfold escapeChar
  split
  · exact absurd rfl hslash
  · exact absurd rfl hquote
  · rfl

/-- To escape a text is to double its backslashes and then to put one in front of every quote. -/
theorem escape_eq_replace (s : String) :
    escape s = replace (replace s '\\' "\\\\") '"' "\\\"" := by
  simp only [escape, replace, String.toList_ofList, List.flatMap_assoc]
  congr 2
  funext c
  by_cases hslash : c = '\\'
  · subst hslash
    decide
  by_cases hquote : c = '"'
  · subst hquote
    decide
  · simp [escapeChar_of_ne hslash hquote, hslash, hquote]

lemma unescapeChars_cons {c : Char} (h : c ≠ '\\') (cs : List Char) :
    unescapeChars (c :: cs) = c :: unescapeChars cs := by
  rw [unescapeChars]
  exact fun _ _ hc => absurd hc h

lemma unescapeChars_escapeChar (c : Char) (cs : List Char) :
    unescapeChars (escapeChar c ++ cs) = c :: unescapeChars cs := by
  by_cases hslash : c = '\\'
  · subst hslash
    rfl
  by_cases hquote : c = '"'
  · subst hquote
    rfl
  · rw [escapeChar_of_ne hslash hquote]
    exact unescapeChars_cons hslash cs

theorem unescape_escape (s : String) : unescape (escape s) = s := by
  have hchars : ∀ cs : List Char, unescapeChars (cs.flatMap escapeChar) = cs := by
    intro cs
    induction cs with
    | nil => rfl
    | cons c cs ih => rw [List.flatMap_cons, unescapeChars_escapeChar, ih]
  rw [unescape, toList_escape, hchars, String.ofList_toList]

/-! ## The closing quote -/

@[simp] lemma backslashes_nil : backslashes [] = 0 := rfl

lemma backslashes_concat (cs : List Char) (c : Char) :
    backslashes (cs ++ [c]) = if c = '\\' then backslashes cs + 1 else 0 := by
  rw [backslashes, List.reverse_concat, List.takeWhile_cons]
  by_cases h : c = '\\'
  · simp [h, backslashes]
  · simp [h]

/-- What stands behind a position does not tell whether a text ends there. -/
lemma endsText_append {cs : List Char} {i : Nat} (hi : i < cs.length) (rest : List Char) :
    EndsText (cs ++ rest) i ↔ EndsText cs i := by
  rw [EndsText, EndsText, List.getElem?_append_left hi, List.take_append_of_le_length (Nat.le_of_lt hi)]

/-- The escapes of a text leave no backslash that would escape what follows. -/
lemma even_backslashes_escape (cs : List Char) : Even (backslashes (cs.flatMap escapeChar)) := by
  induction cs using List.reverseRecOn with
  | nil => exact Even.zero
  | append_singleton cs c ih =>
    rw [List.flatMap_append, List.flatMap_singleton]
    by_cases hslash : c = '\\'
    · subst hslash
      have hpair : cs.flatMap escapeChar ++ escapeChar '\\' = cs.flatMap escapeChar ++ ['\\'] ++ ['\\'] := by
        simp [escapeChar]
      rw [hpair, backslashes_concat, backslashes_concat, if_pos rfl, if_pos rfl]
      exact ih.add even_two
    by_cases hquote : c = '"'
    · subst hquote
      have hpair : cs.flatMap escapeChar ++ escapeChar '"' = cs.flatMap escapeChar ++ ['\\'] ++ ['"'] := by
        simp [escapeChar]
      rw [hpair, backslashes_concat, if_neg (by decide)]
      exact Even.zero
    · rw [escapeChar_of_ne hslash hquote, backslashes_concat, if_neg hslash]
      exact Even.zero

/-- No quote of an escaped text ends it. -/
lemma not_endsText_escape (cs : List Char) (i : Nat) : ¬ EndsText (cs.flatMap escapeChar) i := by
  induction cs using List.reverseRecOn with
  | nil => simp [EndsText]
  | append_singleton cs c ih =>
    rw [List.flatMap_append, List.flatMap_singleton]
    rcases Nat.lt_or_ge i (cs.flatMap escapeChar).length with hlt | hge
    · rwa [endsText_append hlt]
    · rintro ⟨hquote, heven⟩
      rw [List.getElem?_append_right hge] at hquote
      by_cases hc : c = '"'
      · subst hc
        -- the quote comes second, behind a backslash of its own
        have hi : i = (cs.flatMap escapeChar).length + 1 := by
          have hpos : i - (cs.flatMap escapeChar).length = 1 := by
            generalize i - (cs.flatMap escapeChar).length = k at hquote
            match k with
            | 0 => exact absurd hquote (by decide)
            | 1 => rfl
            | k + 2 => exact absurd hquote (by simp [escapeChar])
          omega
        have htake : (cs.flatMap escapeChar ++ escapeChar '"').take i
            = cs.flatMap escapeChar ++ ['\\'] := by
          rw [hi, List.take_length_add_append]
          rfl
        rw [htake, backslashes_concat, if_pos rfl, Nat.even_add_one] at heven
        exact heven (even_backslashes_escape cs)
      · -- no other character is escaped with a quote
        have hmem := List.mem_of_getElem? hquote
        by_cases hslash : c = '\\'
        · subst hslash
          exact absurd hmem (by decide)
        · rw [escapeChar_of_ne hslash hc, List.mem_singleton] at hmem
          exact hc hmem.symm

/-- Reading on from an opening quote, the first quote that is not escaped is the closing one. -/
theorem isClosing_escape (s : String) (rest : List Char) :
    IsClosing ((escape s).toList ++ '"' :: rest) (escape s).toList.length := by
  rw [toList_escape]
  constructor
  · constructor
    · simp
    · rw [List.take_left']
      · exact even_backslashes_escape s.toList
      · rfl
  · intro j hj
    rw [endsText_append hj]
    exact not_endsText_escape s.toList j

/-! ## Reading -/

lemma readText_cons {c : Char} (hslash : c ≠ '\\') (hquote : c ≠ '"') (cs : List Char) :
    readText (c :: cs) = (readText cs).map (Prod.map (c :: ·) id) := by
  rw [readText]
  · exact hquote
  · exact fun _ _ hc => absurd hc hslash

lemma readText_escapeChar (c : Char) (cs : List Char) :
    readText (escapeChar c ++ cs) = (readText cs).map (Prod.map (c :: ·) id) := by
  by_cases hslash : c = '\\'
  · subst hslash
    rfl
  by_cases hquote : c = '"'
  · subst hquote
    rfl
  · rw [escapeChar_of_ne hslash hquote]
    exact readText_cons hslash hquote cs

/-- An escaped text is read back up to its closing quote. -/
theorem readText_escape (cs rest : List Char) :
    readText (cs.flatMap escapeChar ++ '"' :: rest) = some (cs, rest) := by
  induction cs with
  | nil => rfl
  | cons c cs ih =>
    rw [List.flatMap_cons, List.append_assoc, readText_escapeChar, ih]
    rfl

end WorkflowLoops.Graphviz

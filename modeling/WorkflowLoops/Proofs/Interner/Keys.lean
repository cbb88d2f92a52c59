import Mathlib
import WorkflowLoops.Proofs.Interner

/-!
# The numbers of texts

An interner is given texts one after the other, some of them repeatedly. The number of a text is how many
distinct texts came before it first (`IsKey`); without repetitions, this is its position (`isKey_iff`).
So the interner stands for the row without repetitions (`numbers_internAll`), and what it answers can be
told from the row (`interned_internAll`).
-/

namespace WorkflowLoops.Interner

/-- Whether so many distinct texts come before a text in a row of texts. -/
def IsKey (texts : List String) (text : String) (number : Nat) : Prop :=
  ∃ before after, texts = before ++ text :: after ∧ text ∉ before ∧ before.toFinset.card = number

/-- What an interner answers to which the texts of a row were given. -/
structure Interned (t : Interner) (texts : List String) : Prop where
  size : t.size = texts.toFinset.card
  /-- A new text gets the next number. -/
  intern_new : ∀ text ∉ texts, (t.intern text).1 = (texts.toFinset.card, true)
  /-- An old text has its number, and nothing changes. -/
  intern_old : ∀ text number, IsKey texts text number → t.intern text = ((number, false), t)
  find? : ∀ text number, t.find? text = some number ↔ IsKey texts text number
  text? : ∀ text number, t.text? number = some text ↔ IsKey texts text number
  /-- Every number below the size is that of a text. -/
  exists_text : ∀ number < t.size, ∃ text, IsKey texts text number
  /-- Numbers keep their meaning when more texts are given. -/
  keeps : ∀ more text number, IsKey texts text number →
    (t.internAll more).find? text = some number ∧ (t.internAll more).text? number = some text

variable {t : Interner} {texts : List String} {text : String} {number : Nat}

/-! ## Rows without repetitions -/

lemma eraseDups_concat (before : List String) (text : String) :
    (before ++ [text]).eraseDups
      = if text ∈ before then before.eraseDups else before.eraseDups ++ [text] := by
  rw [List.eraseDups_append]
  by_cases hold : text ∈ before
  · have hnone : [text].removeAll before = [] := by simp [List.removeAll, hold]
    rw [if_pos hold, hnone, List.eraseDups_nil, List.append_nil]
  · have hone : [text].removeAll before = [text] := by simp [List.removeAll, hold]
    rw [if_neg hold, hone, List.eraseDups_cons]
    rfl

lemma nodup_eraseDups (texts : List String) : texts.eraseDups.Nodup := by
  induction texts using List.reverseRecOn with
  | nil => exact List.nodup_nil
  | append_singleton before text ih =>
    rw [eraseDups_concat]
    split
    · exact ih
    · rename_i hnew
      rw [List.nodup_append_comm]
      exact List.nodup_cons.2 ⟨fun hold => hnew (List.mem_eraseDups.1 hold), ih⟩

lemma card_toFinset (texts : List String) : texts.toFinset.card = texts.eraseDups.length := by
  rw [← List.toFinset_card_of_nodup (nodup_eraseDups texts)]
  congr 1
  ext text
  simp

/-- A text stands at the position of its number. -/
theorem isKey_iff : IsKey texts text number ↔ texts.eraseDups[number]? = some text := by
  have hat : ∀ before after, text ∉ before →
      (before ++ text :: after).eraseDups[before.toFinset.card]? = some text := by
    intro before after hnew
    have hrest : (text :: after).removeAll before = text :: after.removeAll before := by
      simp [List.removeAll, hnew]
    rw [List.eraseDups_append, card_toFinset, List.getElem?_append_right (Nat.le_refl _), hrest,
      Nat.sub_self, List.eraseDups_cons]
    rfl
  constructor
  · rintro ⟨before, after, rfl, hnew, rfl⟩
    exact hat before after hnew
  · intro hnumber
    have hmem : text ∈ texts := List.mem_eraseDups.1 (List.mem_of_getElem? hnumber)
    obtain ⟨before, after, rfl, hnew⟩ := List.eq_append_cons_of_mem hmem
    -- a text stands at one position only
    have hsame := (hat before after hnew).trans hnumber.symm
    have hlt := (List.getElem?_eq_some_iff.1 (hat before after hnew)).1
    exact ⟨before, after, rfl, hnew, (List.getElem?_inj hlt (nodup_eraseDups _)).1 hsame⟩

/-! ## Interning in a row -/

lemma numbers_blank (hash : String → UInt64) : Numbers { hash } [] where
  buffer := rfl
  ends := rfl
  filed := by simp [filedUnder]
  nodup := List.nodup_nil

lemma internAll_concat (t : Interner) (before : List String) (text : String) :
    t.internAll (before ++ [text]) = ((t.internAll before).intern text).2 := by
  rw [internAll, List.foldl_append]
  rfl

/-- A text is added to the row unless it is in it. -/
lemma Numbers.intern (h : t.Numbers texts) (text : String) :
    (t.intern text).2.Numbers (if text ∈ texts then texts else texts ++ [text]) := by
  split
  · rename_i hold
    cases hfind : t.find? text with
    | none => exact absurd hold (h.find?_eq_none_iff.1 hfind)
    | some number => rwa [intern_of_find?_eq_some hfind]
  · rename_i hnew
    rw [intern_of_find?_eq_none (h.find?_eq_none_iff.2 hnew)]
    exact h.append hnew

/-- An interner numbers the texts that it was given, without the repetitions. -/
theorem numbers_internAll (hash : String → UInt64) (texts : List String) :
    (({ hash } : Interner).internAll texts).Numbers texts.eraseDups := by
  induction texts using List.reverseRecOn with
  | nil => exact numbers_blank hash
  | append_singleton before text ih =>
    rw [internAll_concat, eraseDups_concat]
    simpa only [List.mem_eraseDups] using ih.intern text

/-- Numbers are kept when more texts are given. -/
lemma Numbers.exists_append (h : t.Numbers texts) (more : List String) :
    ∃ rest, (t.internAll more).Numbers (texts ++ rest) := by
  induction more using List.reverseRecOn with
  | nil => exact ⟨[], by rwa [List.append_nil]⟩
  | append_singleton before text ih =>
    obtain ⟨rest, hrest⟩ := ih
    rw [internAll_concat]
    have hmore := hrest.intern text
    split at hmore
    · exact ⟨rest, hmore⟩
    · exact ⟨rest ++ [text], by rwa [← List.append_assoc]⟩

/-- What an interner answers can be told from the row of texts that it was given. -/
theorem interned_internAll (hash : String → UInt64) (texts : List String) :
    Interned (({ hash } : Interner).internAll texts) texts := by
  have h := numbers_internAll hash texts
  have hfind : ∀ text number, (({ hash } : Interner).internAll texts).find? text = some number ↔
      IsKey texts text number := fun text number => h.find?_eq_some_iff.trans isKey_iff.symm
  have hsize := h.size_eq.trans (card_toFinset texts).symm
  refine ⟨hsize, fun text hnew => ?_, fun text number hkey => ?_, hfind, fun text number => ?_,
    fun number hlt => ?_, fun more text number hkey => ?_⟩
  · have hnone := h.find?_eq_none_iff.2 (mt List.mem_eraseDups.1 hnew)
    rw [intern_of_find?_eq_none hnone, hsize]
  · exact intern_of_find?_eq_some ((hfind text number).2 hkey)
  · rw [h.text?_eq, isKey_iff]
  · rw [h.size_eq] at hlt
    exact ⟨_, isKey_iff.2 (List.getElem?_eq_getElem hlt)⟩
  · obtain ⟨rest, hmore⟩ := h.exists_append more
    have hat : (texts.eraseDups ++ rest)[number]? = some text := by
      have hat := isKey_iff.1 hkey
      rw [List.getElem?_append_left (List.getElem?_eq_some_iff.1 hat).1, hat]
    exact ⟨hmore.find?_eq_some_iff.2 hat, (hmore.text?_eq number).trans hat⟩

end WorkflowLoops.Interner

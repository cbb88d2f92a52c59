import Mathlib.Data.List.Nodup
import WorkflowLoops.Interner

/-!
# What an interner numbers

The buffer, the ends and the filed numbers of an interner stand for one list of distinct texts
(`Numbers`). This list tells what every lookup gives, and interning a new text only adds it to the list.
-/

namespace WorkflowLoops.Interner

variable {t : Interner} {texts : List String} {text : String} {number : Nat}

/-! ## Slices -/

/-- A text is what stands between where it starts and where it ends. -/
theorem slice?_append (before text after : String) :
    slice? (before ++ text ++ after) before.utf8ByteSize (before ++ text).utf8ByteSize
      = some text := by
  have hstart : String.Pos.Raw.IsValid (before ++ text ++ after) ⟨before.utf8ByteSize⟩ := by
    rw [String.append_assoc]
    exact String.Pos.Raw.isValid_iff_exists_append.2 ⟨before, text ++ after, rfl, rfl⟩
  have hstop : String.Pos.Raw.IsValid (before ++ text ++ after) ⟨(before ++ text).utf8ByteSize⟩ :=
    String.Pos.Raw.isValid_iff_exists_append.2 ⟨before ++ text, after, rfl, rfl⟩
  have hsize : (before ++ text).utf8ByteSize = before.utf8ByteSize + text.utf8ByteSize :=
    String.utf8ByteSize_append
  have hle : before.utf8ByteSize ≤ (before ++ text).utf8ByteSize := by omega
  rw [slice?, dif_pos ⟨hstart, hstop, hle⟩, Option.some.injEq, ← String.toByteArray_inj]
  show (before ++ text ++ after).toByteArray.extract before.utf8ByteSize
    (before ++ text).utf8ByteSize = text.toByteArray
  have hrest := ByteArray.extract_append_size_add (a := before.toByteArray)
    (b := (text ++ after).toByteArray) (i := 0) (j := text.utf8ByteSize)
  rw [Nat.add_zero] at hrest
  rw [String.append_assoc, String.toByteArray_append, hsize]
  refine hrest.trans ?_
  rw [String.toByteArray_append]
  exact ByteArray.extract_append_eq_left rfl

/-! ## Texts and numbers -/

/-- How many bytes the first texts of a list take. -/
def extent (texts : List String) (count : Nat) : Nat := (String.join (texts.take count)).utf8ByteSize

/-- Whether an interner numbers just the texts of a list, by their positions. -/
structure Numbers (t : Interner) (texts : List String) : Prop where
  buffer : t.buffer = String.join texts
  ends : t.ends.toList = (List.range texts.length).map fun i => extent texts (i + 1)
  /-- Every number is filed under the hash of its text, and under no other. -/
  filed : ∀ hash number, number ∈ t.filedUnder hash ↔
    ∃ text, texts[number]? = some text ∧ t.hash text = hash
  nodup : texts.Nodup

lemma join_concat (texts : List String) (text : String) :
    String.join (texts ++ [text]) = String.join texts ++ text := by
  rw [String.join_append, String.join_cons, String.join_nil, String.append_empty]

theorem numbers_empty : Numbers {} [] where
  buffer := rfl
  ends := rfl
  filed := by simp [filedUnder]
  nodup := List.nodup_nil

namespace Numbers

lemma size_eq (h : t.Numbers texts) : t.size = texts.length := by
  rw [size, ← Array.length_toList, h.ends, List.length_map, List.length_range]

lemma getElem?_ends (h : t.Numbers texts) (i : Nat) :
    t.ends[i]? = if i < texts.length then some (extent texts (i + 1)) else none := by
  rw [← Array.getElem?_toList, h.ends, List.getElem?_map]
  split <;> rename_i hi <;> simp [hi]

/-- A text starts where the texts before it end. -/
lemma startOf?_eq (h : t.Numbers texts) (hnumber : number < texts.length) :
    t.startOf? number = some (extent texts number) := by
  unfold startOf?
  cases number with
  | zero => rfl
  | succ i =>
    rw [if_neg (by omega), h.getElem?_ends, if_pos (by omega)]
    rfl

/-- The number of a position leads to the text there, and no other number leads to a text. -/
theorem text?_eq (h : t.Numbers texts) (number : Nat) : t.text? number = texts[number]? := by
  unfold text?
  rw [h.getElem?_ends]
  by_cases hnumber : number < texts.length
  · rw [if_pos hnumber, h.startOf?_eq hnumber, List.getElem?_eq_getElem hnumber]
    have htake : String.join (texts.take (number + 1))
        = String.join (texts.take number) ++ texts[number] := by
      rw [List.take_succ_eq_append_getElem hnumber, join_concat]
    have hsplit : t.buffer = String.join (texts.take number) ++ texts[number]
        ++ String.join (texts.drop (number + 1)) := by
      rw [h.buffer, ← htake, ← String.join_append, List.take_append_drop]
    rw [extent, extent, htake, hsplit]
    exact slice?_append _ _ _
  · rw [if_neg hnumber, List.getElem?_eq_none (by omega)]
    cases t.startOf? number <;> rfl

/-- A text has the number of its position. -/
theorem find?_eq_some_iff (h : t.Numbers texts) :
    t.find? text = some number ↔ texts[number]? = some text := by
  have htext : ∀ n, (t.text? n == some text) = true ↔ texts[n]? = some text := by
    intro n
    rw [beq_iff_eq, h.text?_eq]
  unfold find?
  constructor
  · intro hfind
    have hsame := List.find?_some hfind
    exact (htext number).1 hsame
  · intro hat
    have hfiled : number ∈ t.filedUnder (t.hash text) := (h.filed _ _).2 ⟨text, hat, rfl⟩
    cases hfind : (t.filedUnder (t.hash text)).find? fun n => t.text? n == some text with
    | none => exact absurd ((htext number).2 hat) (List.find?_eq_none.1 hfind number hfiled)
    | some other =>
      -- a text stands at one position only
      have hsame := List.find?_some hfind
      have hother := (htext other).1 hsame
      have hlt := (List.getElem?_eq_some_iff.1 hother).1
      rw [(List.getElem?_inj hlt h.nodup).1 (hother.trans hat.symm)]

lemma find?_eq_none_iff (h : t.Numbers texts) : t.find? text = none ↔ text ∉ texts := by
  rw [Option.eq_none_iff_forall_ne_some, List.mem_iff_getElem?, not_exists]
  exact forall_congr' fun number => not_congr h.find?_eq_some_iff

/-- A text is found under a number exactly if the number leads back to it. -/
lemma find?_iff_text? (h : t.Numbers texts) :
    t.find? text = some number ↔ t.text? number = some text := by
  rw [h.find?_eq_some_iff, h.text?_eq]

/-- Every number that is filed leads to a text. -/
theorem exists_text?_of_filed (h : t.Numbers texts) {hash : UInt64}
    (hfiled : number ∈ t.filedUnder hash) : ∃ text, t.text? number = some text := by
  obtain ⟨text, hat, -⟩ := (h.filed hash number).1 hfiled
  exact ⟨text, (h.text?_eq number).trans hat⟩

/-! ## Interning -/

/-- The new number is filed under the hash of the new text. -/
lemma mem_filedUnder_append {hash : UInt64} :
    number ∈ (t.append text).filedUnder hash ↔
      (number = t.size ∧ t.hash text = hash) ∨ number ∈ t.filedUnder hash := by
  simp only [filedUnder, Interner.append, Std.TreeMap.getElem?_insert,
    Std.LawfulEqCmp.compare_eq_iff_eq]
  by_cases hsame : t.hash text = hash
  · subst hsame
    simp
  · simp [hsame]

/-- A new text gets the next number. -/
theorem append (h : t.Numbers texts) (hnew : text ∉ texts) :
    (t.append text).Numbers (texts ++ [text]) where
  buffer := by
    rw [join_concat, ← h.buffer]
    rfl
  ends := by
    have hold : ∀ i ∈ List.range texts.length,
        extent (texts ++ [text]) (i + 1) = extent texts (i + 1) := by
      intro i hi
      rw [extent, List.take_append_of_le_length (List.mem_range.1 hi), extent]
    have hlast : extent (texts ++ [text]) (texts.length + 1) = (t.buffer ++ text).utf8ByteSize := by
      rw [extent, List.take_of_length_le (by simp), join_concat, h.buffer]
    rw [List.length_append, List.length_singleton, List.range_succ, List.map_append,
      List.map_congr_left hold, ← h.ends, List.map_singleton, hlast, ← Array.toList_push]
    rfl
  filed hash number := by
    have hold := h.filed hash number
    have hsize := h.size_eq
    rw [mem_filedUnder_append, hash_append, List.getElem?_append]
    by_cases hlt : number < texts.length
    · -- an old number is not the new one
      have hne : number ≠ t.size := by omega
      rw [if_pos hlt, ← hold, or_iff_right fun hnew => hne hnew.1]
    · rw [if_neg hlt, hold, List.getElem?_eq_none (by omega), List.getElem?_singleton]
      by_cases hnumber : number = t.size
      · rw [if_pos (by omega)]
        simp [hnumber]
      · rw [if_neg (by omega)]
        simp [hnumber]
  nodup := by
    rw [List.nodup_append_comm]
    exact List.nodup_cons.2 ⟨hnew, h.nodup⟩

end Numbers

end WorkflowLoops.Interner

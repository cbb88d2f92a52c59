import Mathlib.Data.List.Nodup
import WorkflowLoops.Declaration.PortDefects

/-!
# Faultless ports

`repeats` goes through a list once with the set of texts seen so far. `again` says the same by the
texts before each one, and with it a node without port defects is one whose ports fit: no more ports
than can be numbered, distinct port ids, distinct output names.
-/

namespace WorkflowLoops

/-- The entries of a list that stand before it or earlier in it. -/
def again (before : List String) : List String → List String
  | [] => []
  | text :: rest =>
    if text ∈ before then text :: again before rest else again (text :: before) rest

lemma foldl_note (texts : List String) :
    ∀ (before : List String) (seen : Std.TreeSet String) (repeated : Array String),
      (∀ text, seen.contains text = true ↔ text ∈ before) →
      (texts.foldl repeats.note (seen, repeated)).2.toList
        = repeated.toList ++ again before texts := by
  induction texts with
  | nil => intro before seen repeated _; simp [again]
  | cons text rest ih =>
    intro before seen repeated hseen
    rw [List.foldl_cons, repeats.note, again]
    by_cases hmem : text ∈ before
    · rw [if_pos ((hseen text).2 hmem), if_pos hmem, ih before seen _ hseen]
      simp
    · rw [if_neg (fun hc => hmem ((hseen text).1 hc)), if_neg hmem]
      refine ih (text :: before) _ _ fun other => ?_
      rw [Std.TreeSet.contains_insert, Bool.or_eq_true, hseen, List.mem_cons, beq_iff_eq,
        Std.LawfulEqCmp.compare_eq_iff_eq, eq_comm]

/-- The repeated texts of a list are those that stand in it before. -/
theorem repeats_eq_again (texts : List String) : repeats texts = again [] texts := by
  have h := foldl_note texts [] {} #[] (by simp)
  simpa [repeats] using h

lemma again_eq_nil_iff (texts : List String) :
    ∀ before : List String,
      again before texts = [] ↔ texts.Nodup ∧ ∀ text ∈ texts, text ∉ before := by
  induction texts with
  | nil => intro before; simp [again]
  | cons text rest ih =>
    intro before
    rw [again]
    by_cases hmem : text ∈ before
    · simp [hmem]
    · rw [if_neg hmem, ih, List.nodup_cons]
      constructor
      · rintro ⟨hrest, hfresh⟩
        refine ⟨⟨fun hc => hfresh text hc (List.mem_cons_self ..), hrest⟩, ?_⟩
        intro other hother
        rcases List.mem_cons.1 hother with rfl | hother
        · exact hmem
        · exact fun hc => hfresh other hother (List.mem_cons_of_mem _ hc)
      · rintro ⟨⟨hnew, hrest⟩, hfresh⟩
        refine ⟨hrest, fun other hother hc => ?_⟩
        rcases List.mem_cons.1 hc with rfl | hc
        · exact hnew hother
        · exact hfresh other (List.mem_cons_of_mem _ hother) hc

/-- Nothing is repeated in a list without duplicates, and in no other. -/
theorem repeats_eq_nil_iff (texts : List String) : repeats texts = [] ↔ texts.Nodup := by
  rw [repeats_eq_again, again_eq_nil_iff]
  simp

/-- Ports on both sides of a node that can be numbered and told apart. -/
structure PortsFit (inputs outputs : List Port) : Prop where
  inputs_le : inputs.length ≤ PortIdx.maxPorts
  outputs_le : outputs.length ≤ PortIdx.maxPorts
  ids_nodup : ((inputs ++ outputs).map Port.id).Nodup
  outputNames_nodup : (outputs.map Port.name).Nodup

/-- A node has no port defect exactly if its ports fit. -/
theorem NodeDecl.portDefects_eq_nil_iff (n : NodeDecl) :
    n.portDefects = [] ↔ PortsFit n.inputs n.outputs := by
  simp only [portDefects, overflow, List.append_eq_nil_iff, List.map_eq_nil_iff,
    repeats_eq_nil_iff, ite_eq_right_iff, List.cons_ne_nil, imp_false, Nat.not_lt, gt_iff_lt]
  constructor
  · rintro ⟨⟨⟨hin, hout⟩, hids⟩, hnames⟩
    exact ⟨hin, hout, hids, hnames⟩
  · rintro ⟨hin, hout, hids, hnames⟩
    exact ⟨⟨⟨hin, hout⟩, hids⟩, hnames⟩

end WorkflowLoops

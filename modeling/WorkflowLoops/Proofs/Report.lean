import Mathlib.Data.List.Forall2
import WorkflowLoops.Report

/-!
# Reports and listings

A row of results is there if all of them are. A report that goes on has a result if both of its parts
have one, and fails if one of them does; a listing made of entries under different names keeps them all.
-/

namespace WorkflowLoops

section Rows

variable {ε α β : Type} {f f' : α → Except ε β} {as : List α} {bs : List β}

lemma mapM_congr (h : ∀ a ∈ as, f a = f' a) : as.mapM f = as.mapM f' := by
  induction as with
  | nil => rfl
  | cons a rest ih =>
    rw [List.mapM_cons, List.mapM_cons, h a (List.mem_cons_self ..),
      ih fun b hb => h b (List.mem_cons_of_mem _ hb)]

/-- Results that are all there are told one by one. -/
lemma forall₂_of_mapM_eq_ok (h : as.mapM f = .ok bs) :
    List.Forall₂ (fun a b => f a = .ok b) as bs := by
  induction as generalizing bs with
  | nil =>
    obtain rfl := Except.ok.inj h
    exact .nil
  | cons a rest ih =>
    rw [List.mapM_cons] at h
    obtain ⟨b, hfirst, h⟩ := bind_eq_ok_iff.1 h
    obtain ⟨later, hrest, h⟩ := bind_eq_ok_iff.1 h
    obtain rfl := Except.ok.inj h
    exact .cons hfirst (ih hrest)

/-- A row of results fails as the first of them that is not there. -/
lemma exists_first_of_mapM_eq_error {err : ε} (h : as.mapM f = .error err) :
    ∃ before a after, as = before ++ a :: after ∧ (∀ a' ∈ before, ∃ b, f a' = .ok b) ∧
      f a = .error err := by
  induction as with
  | nil => cases h
  | cons a rest ih =>
    rw [List.mapM_cons] at h
    rcases bind_eq_error_iff.1 h with hfirst | ⟨b, hfirst, h⟩
    · exact ⟨[], a, rest, rfl, by simp, hfirst⟩
    rcases bind_eq_error_iff.1 h with hrest | ⟨later, -, h⟩
    · obtain ⟨before, a', after, rfl, hbefore, herr⟩ := ih hrest
      exact ⟨a :: before, a', after, rfl, List.forall_mem_cons.2 ⟨⟨b, hfirst⟩, hbefore⟩, herr⟩
    · cases h

/-- A row of results fails as one of them does. -/
lemma exists_of_mapM_eq_error {err : ε} (h : as.mapM f = .error err) :
    ∃ a ∈ as, f a = .error err := by
  obtain ⟨before, a, after, rfl, -, herr⟩ := exists_first_of_mapM_eq_error h
  exact ⟨a, List.mem_append_right before (List.mem_cons_self ..), herr⟩

/-- A row of results is there if each of them is. -/
lemma exists_mapM_eq_ok (h : ∀ a ∈ as, ∃ b, f a = .ok b) : ∃ bs, as.mapM f = .ok bs := by
  cases hrow : as.mapM f with
  | ok bs => exact ⟨bs, rfl⟩
  | error err =>
    obtain ⟨a, ha, herr⟩ := exists_of_mapM_eq_error hrow
    obtain ⟨b, hb⟩ := h a ha
    rw [hb] at herr
    cases herr

/-- A row of results that are all known is there. -/
lemma mapM_eq_ok {h : α → β} (has : ∀ a ∈ as, f a = .ok (h a)) : as.mapM f = .ok (as.map h) := by
  induction as with
  | nil => rfl
  | cons a rest ih =>
    rw [List.mapM_cons, has a (List.mem_cons_self ..), ih fun b hb => has b (List.mem_cons_of_mem _ hb)]
    rfl

/-- A row of results each of which is read in another way. -/
lemma mapM_map {γ : Type} (f : α → Except ε β) (h : β → γ) (as : List α) :
    (as.mapM fun a => (f a).map h) = (as.mapM f).map (List.map h) := by
  induction as with
  | nil => rfl
  | cons a rest ih =>
    rw [List.mapM_cons, List.mapM_cons, ih]
    cases f a with
    | error err => rfl
    | ok b => cases rest.mapM f <;> rfl

end Rows

namespace Report

variable {α β : Type} {r : Report α} {f : α → Report β} {b : β}

theorem result_andThen_eq_ok_iff :
    (r.andThen f).result = .ok b ↔ ∃ a, r.result = .ok a ∧ (f a).result = .ok b := by
  rw [andThen]
  cases r.result with
  | error e => simp
  | ok a => simp

theorem result_andThen_eq_error_iff {err : Error} :
    (r.andThen f).result = .error err ↔
      r.result = .error err ∨ ∃ a, r.result = .ok a ∧ (f a).result = .error err := by
  rw [andThen]
  cases r.result with
  | error e => simp
  | ok a => simp

end Report

namespace Listing

/-- Whether something is listed, under any name. -/
def Holds {α : Type} (listing : Listing α) (x : α) : Prop :=
  ∃ (name : String) (xs : List α), listing[name]? = some xs ∧ x ∈ xs

variable {α : Type} {entries : List (String × List α)}

/-- Entries under different names are all kept. -/
theorem getElem?_ofList (hnames : (entries.map Prod.fst).Nodup) {name : String} {xs : List α}
    (hmem : (name, xs) ∈ entries) : (Std.TreeMap.ofList entries : Listing α)[name]? = some xs := by
  refine Std.TreeMap.getElem?_ofList_of_mem Std.ReflCmp.compare_self ?_ hmem
  rw [List.Nodup, List.pairwise_map] at hnames
  exact hnames.imp fun hne hc => hne (Std.LawfulEqCmp.compare_eq_iff_eq.1 hc)

theorem keys_ofList_perm (hnames : (entries.map Prod.fst).Nodup) :
    (Std.TreeMap.ofList entries : Listing α).keys.Perm (entries.map Prod.fst) := by
  refine (List.perm_ext_iff_of_nodup Std.TreeMap.nodup_keys hnames).2 fun name => ?_
  rw [Std.TreeMap.mem_keys, Std.TreeMap.mem_ofList, List.contains_iff_mem]

/-- Under a name there is what the entry of that name holds. -/
theorem getElem?_ofList_iff (hnames : (entries.map Prod.fst).Nodup) {name : String} {xs : List α} :
    (Std.TreeMap.ofList entries : Listing α)[name]? = some xs ↔ (name, xs) ∈ entries := by
  refine ⟨fun hget => ?_, getElem?_ofList hnames⟩
  have hkey : name ∈ entries.map Prod.fst := by
    rw [← (keys_ofList_perm hnames).mem_iff, Std.TreeMap.mem_keys,
      Std.TreeMap.mem_iff_isSome_getElem?, hget]
    rfl
  obtain ⟨entry, hentry, rfl⟩ := List.mem_map.1 hkey
  rw [getElem?_ofList hnames hentry] at hget
  obtain rfl := Option.some.inj hget
  exact hentry

/-- A listing holds what its entries hold. -/
theorem holds_ofList_iff (hnames : (entries.map Prod.fst).Nodup) {x : α} :
    (Std.TreeMap.ofList entries : Listing α).Holds x ↔ ∃ entry ∈ entries, x ∈ entry.2 := by
  constructor
  · rintro ⟨name, xs, hget, hx⟩
    exact ⟨(name, xs), (getElem?_ofList_iff hnames).1 hget, hx⟩
  · rintro ⟨entry, hentry, hx⟩
    exact ⟨entry.1, entry.2, getElem?_ofList hnames hentry, hx⟩

end Listing

end WorkflowLoops

import Mathlib
import WorkflowLoops.Proofs.Search.States

/-!
# The leaves of a search

A search goes along its walks one after the other. From the end of one walk it comes back to where the
next one leaves it, so what it walks anew are the hops that the next walk does not have in common with
the one before. The walks are those through a tree, from its first branch to its last, so these hops lead
to every beginning of every walk, and to none twice (`mem_beginnings_iff`, `nodup_beginnings`).
-/

namespace WorkflowLoops

/-- How many hops two walks have in common before they part. -/
def commonHops : List Edge → List Edge → Nat
  | e :: v, f :: w => if e = f then commonHops v w + 1 else 0
  | _, _ => 0

/-- A walk that a search follows to its end. -/
structure Leaf where
  walk : List Edge
  /-- Whether the path along the walk is listed. -/
  listed : Bool
  /-- How many hops the walk has in common with the one before it. -/
  common : Nat

namespace Leaf

/-- How many hops of a walk are not those of the one before it. -/
def own (leaf : Leaf) : Nat := leaf.walk.length - leaf.common

/-- The end of the walk, without the mark. -/
def ending (leaf : Leaf) : List Edge × Bool := (leaf.walk, leaf.listed)

/-- The walk below an edge. -/
def below (e : Edge) (leaf : Leaf) : Leaf := ⟨e :: leaf.walk, leaf.listed, leaf.common + 1⟩

/-- The beginnings of a walk that are not those of the one before it. -/
def beginnings (leaf : Leaf) : List (List Edge) := leaf.walk.inits.drop (leaf.common + 1)

end Leaf

/-- The leaves with given ends, when a search comes from a walk before them. -/
def leavesAfter : List Edge → List (List Edge × Bool) → List Leaf
  | _, [] => []
  | before, (w, listed) :: rest => ⟨w, listed, commonHops before w⟩ :: leavesAfter w rest

/-- The leaves of a search with given ends. -/
def leaves (ends : List (List Edge × Bool)) : List Leaf := leavesAfter [] ends

variable {ends xs ys : List (List Edge × Bool)} {before w : List Edge} {e : Edge} {keep : Bool}

/-! ## Marking the leaves -/

lemma commonHops_nil (w : List Edge) : commonHops [] w = 0 := by
  rw [commonHops]
  simp

lemma commonHops_of_head_ne (h : w.head? ≠ some e) : commonHops (e :: before) w = 0 := by
  cases w with
  | nil => rw [commonHops]; simp
  | cons f w =>
    have hne : e ≠ f := fun heq => h (congrArg some heq.symm)
    rw [commonHops, if_neg hne]

/-- A walk that shares nothing with the first leaf might as well not be there. -/
lemma leavesAfter_eq_leaves (h : ∀ t ∈ ends.head?, commonHops before t.1 = 0) :
    leavesAfter before ends = leaves ends := by
  cases ends with
  | nil => rfl
  | cons t rest =>
    have hnone : commonHops before t.1 = commonHops [] t.1 := (h t rfl).trans (commonHops_nil _).symm
    simp only [leaves, leavesAfter, hnone]

lemma leavesAfter_append (h : ∀ t ∈ xs, t.1.head? = some e) (hnew : ∀ t ∈ ys, t.1.head? ≠ some e)
    (hbefore : xs = [] → before = [] ∨ before.head? = some e) :
    leavesAfter before (xs ++ ys) = leavesAfter before xs ++ leaves ys := by
  induction xs generalizing before with
  | nil =>
    refine leavesAfter_eq_leaves fun t ht => ?_
    have hother : t.1.head? ≠ some e := hnew t (List.mem_of_mem_head? ht)
    rcases hbefore rfl with rfl | hhead
    · exact commonHops_nil _
    · obtain ⟨rest, rfl⟩ := List.head?_eq_some_iff.1 hhead
      exact commonHops_of_head_ne hother
  | cons t xs ih =>
    rw [List.forall_mem_cons] at h
    rw [List.cons_append, leavesAfter, leavesAfter, List.cons_append,
      ih h.2 fun _ => .inr h.1]

lemma leavesAfter_below (e : Edge) :
    leavesAfter (e :: before) (ends.map fun t => (e :: t.1, t.2))
      = (leavesAfter before ends).map (Leaf.below e) := by
  induction ends generalizing before with
  | nil => rfl
  | cons t rest ih =>
    rw [List.map_cons, leavesAfter, leavesAfter, List.map_cons, ih, commonHops, if_pos rfl]
    rfl

/-- The leaves of an edge that ends a walk at once, and of those after it. -/
lemma leaves_finish (hnew : ∀ t ∈ ends, t.1.head? ≠ some e) :
    leaves (([e], keep) :: ends) = ⟨[e], keep, 0⟩ :: leaves ends := by
  have hrest : leavesAfter [e] ends = leaves ends :=
    leavesAfter_eq_leaves fun t ht => commonHops_of_head_ne (hnew t (List.mem_of_mem_head? ht))
  rw [leaves, leavesAfter, hrest, commonHops_nil]

/-- The leaves below an edge, and of those after it. The first one is new from its first hop on. -/
lemma leaves_enter (hnew : ∀ t ∈ ends, t.1.head? ≠ some e) :
    leaves (((w, keep) :: xs).map (fun t => (e :: t.1, t.2)) ++ ends)
      = ⟨e :: w, keep, 0⟩ :: (leavesAfter w xs).map (Leaf.below e) ++ leaves ends := by
  have hhead : ∀ t ∈ ((w, keep) :: xs).map (fun t => (e :: t.1, t.2)), t.1.head? = some e :=
    List.forall_mem_map.2 fun _ _ => rfl
  rw [leaves, leavesAfter_append hhead hnew (by simp), List.map_cons, leavesAfter, leavesAfter_below,
    commonHops_nil]

lemma leaves_below_append (hnew : ∀ t ∈ ends, t.1.head? ≠ some e) :
    leaves (xs.map (fun t => (e :: t.1, t.2)) ++ ends)
      = leaves (xs.map fun t => (e :: t.1, t.2)) ++ leaves ends :=
  leavesAfter_append (List.forall_mem_map.2 fun _ _ => rfl) hnew fun _ => .inl rfl

lemma leaves_cons : leaves ((w, keep) :: xs) = ⟨w, keep, 0⟩ :: leavesAfter w xs := by
  rw [leaves, leavesAfter, commonHops_nil]

lemma leaves_eq_nil_iff : leaves ends = [] ↔ ends = [] := by
  cases ends with
  | nil => exact iff_of_true rfl rfl
  | cons t rest => simp [leaves, leavesAfter]

lemma map_ending_leavesAfter : (leavesAfter before ends).map Leaf.ending = ends := by
  induction ends generalizing before with
  | nil => rfl
  | cons t rest ih =>
    rw [leavesAfter, List.map_cons, ih]
    rfl

lemma map_ending_leaves (ends : List (List Edge × Bool)) : (leaves ends).map Leaf.ending = ends :=
  map_ending_leavesAfter

/-- Below an edge the first walk has one hop more of its own. -/
lemma sum_own_below (hsome : xs ≠ []) :
    ((leaves (xs.map fun t => (e :: t.1, t.2))).map Leaf.own).sum
      = ((leaves xs).map Leaf.own).sum + 1 := by
  obtain ⟨⟨w, keep⟩, xs, rfl⟩ := List.exists_cons_of_ne_nil hsome
  have hown : Leaf.own ∘ Leaf.below e = Leaf.own := by
    funext leaf
    simp [Leaf.own, Leaf.below]
  rw [List.map_cons, leaves_cons, leaves_cons, leavesAfter_below, List.map_cons, List.map_cons,
    List.map_map, hown, List.sum_cons, List.sum_cons]
  simp only [Leaf.own, List.length_cons, Nat.sub_zero]
  omega

/-- There are as many beginnings of walks as the walks have hops of their own. -/
lemma length_beginnings (ls : List Leaf) :
    (ls.flatMap Leaf.beginnings).length = (ls.map Leaf.own).sum := by
  rw [List.length_flatMap]
  refine congrArg List.sum (List.map_congr_left fun leaf _ => ?_)
  rw [Leaf.beginnings, List.length_drop, List.length_inits, Leaf.own]
  omega

/-! ## Trees -/

/-- Whether walks are those through a tree, from its first branch to its last. -/
inductive IsTree : List (List Edge × Bool) → Prop
  | done : IsTree []
  | finish {e : Edge} {keep : Bool} {ends : List (List Edge × Bool)}
      (hnew : ∀ t ∈ ends, t.1.head? ≠ some e) (hlater : IsTree ends) :
      IsTree (([e], keep) :: ends)
  | enter {e : Edge} {below ends : List (List Edge × Bool)} (hsome : below ≠ [])
      (hnew : ∀ t ∈ ends, t.1.head? ≠ some e) (hbelow : IsTree below) (hlater : IsTree ends) :
      IsTree (below.map (fun t => (e :: t.1, t.2)) ++ ends)

namespace IsTree

/-- Every walk has a hop of its own. -/
lemma common_lt (h : IsTree ends) : ∀ leaf ∈ leaves ends, leaf.common < leaf.walk.length := by
  induction h with
  | done => exact fun _ hmem => absurd hmem List.not_mem_nil
  | finish hnew _ ih =>
    rw [leaves_finish hnew, List.forall_mem_cons]
    exact ⟨Nat.one_pos, ih⟩
  | @enter e below ends hsome hnew _ _ ihbelow ihlater =>
    obtain ⟨⟨w, keep⟩, xs, rfl⟩ := List.exists_cons_of_ne_nil hsome
    rw [leaves_cons, List.forall_mem_cons] at ihbelow
    rw [leaves_enter hnew, List.forall_mem_append, List.forall_mem_cons, List.forall_mem_map]
    refine ⟨⟨Nat.succ_pos _, fun leaf hleaf => ?_⟩, ihlater⟩
    exact Nat.succ_lt_succ (ihbelow.2 leaf hleaf)

/-- All beginnings of the walks through a tree, as a search comes to them. -/
def beginnings (ends : List (List Edge × Bool)) : List (List Edge) :=
  (leaves ends).flatMap Leaf.beginnings

lemma beginnings_finish (hnew : ∀ t ∈ ends, t.1.head? ≠ some e) :
    beginnings (([e], keep) :: ends) = [e] :: beginnings ends := by
  rw [beginnings, leaves_finish hnew]
  rfl

lemma beginnings_enter (hsome : xs ≠ []) (hnew : ∀ t ∈ ends, t.1.head? ≠ some e) :
    beginnings (xs.map (fun t => (e :: t.1, t.2)) ++ ends)
      = [e] :: (beginnings xs).map (e :: ·) ++ beginnings ends := by
  obtain ⟨⟨w, keep⟩, xs, rfl⟩ := List.exists_cons_of_ne_nil hsome
  have hbelow : ∀ leaf : Leaf, (leaf.below e).beginnings = leaf.beginnings.map (e :: ·) := by
    intro leaf
    simp [Leaf.beginnings, Leaf.below, List.map_drop]
  have hfirst : (Leaf.mk (e :: w) keep 0).beginnings
      = [e] :: (Leaf.mk w keep 0).beginnings.map (e :: ·) := by
    cases w <;> simp [Leaf.beginnings]
  simp only [beginnings, leaves_enter hnew, leaves_cons, List.flatMap_append, List.flatMap_cons,
    List.flatMap_map, List.map_append, List.map_flatMap, hfirst, hbelow, List.cons_append,
    List.append_assoc]

/-- The beginnings that a search comes to are those of all walks, but for the one without a hop. -/
theorem mem_beginnings_iff (h : IsTree ends) {v : List Edge} :
    v ∈ beginnings ends ↔ v ≠ [] ∧ ∃ t ∈ ends, v <+: t.1 := by
  induction h generalizing v with
  | done => simp [beginnings, leaves, leavesAfter]
  | @finish e keep ends hnew _ ih =>
    rw [beginnings_finish hnew, List.mem_cons, ih]
    cases v with
    | nil => simp
    | cons f v => simp [List.cons_prefix_cons]
  | @enter e below ends hsome hnew _ _ ihbelow ihlater =>
    rw [beginnings_enter hsome hnew, List.cons_append, List.mem_cons, List.mem_append, ihlater,
      List.mem_map]
    simp only [ihbelow]
    obtain ⟨t, ht⟩ := List.exists_mem_of_ne_nil _ hsome
    constructor
    · rintro (rfl | ⟨u, ⟨-, t, ht, hu⟩, rfl⟩ | ⟨hne, t, ht, hv⟩)
      · refine ⟨by simp, (e :: t.1, t.2), List.mem_append_left _ (List.mem_map_of_mem ht), ?_⟩
        exact List.cons_prefix_cons.2 ⟨rfl, List.nil_prefix⟩
      · refine ⟨by simp, (e :: t.1, t.2), List.mem_append_left _ (List.mem_map_of_mem ht), ?_⟩
        exact List.cons_prefix_cons.2 ⟨rfl, hu⟩
      · exact ⟨hne, t, List.mem_append_right _ ht, hv⟩
    · rintro ⟨hne, t, ht, hv⟩
      rcases List.mem_append.1 ht with hbelow | hlater
      · obtain ⟨u, hu, rfl⟩ := List.mem_map.1 hbelow
        obtain ⟨f, v, rfl⟩ := List.exists_cons_of_ne_nil hne
        obtain ⟨rfl, hrest⟩ := List.cons_prefix_cons.1 hv
        cases v with
        | nil => exact .inl rfl
        | cons f' v => exact .inr (.inl ⟨f' :: v, ⟨by simp, u, hu, hrest⟩, rfl⟩)
      · exact .inr (.inr ⟨hne, t, hlater, hv⟩)

/-- A search comes to no beginning twice. -/
theorem nodup_beginnings (h : IsTree ends) : (beginnings ends).Nodup := by
  -- beginnings of walks without an edge in front do not have it in front
  have hother : ∀ {e : Edge} {ends : List (List Edge × Bool)}, IsTree ends →
      (∀ t ∈ ends, t.1.head? ≠ some e) → ∀ v ∈ beginnings ends, v.head? ≠ some e := by
    intro e ends hends hnew v hv hhead
    obtain ⟨-, t, ht, hprefix⟩ := hends.mem_beginnings_iff.1 hv
    obtain ⟨rest, rfl⟩ := List.head?_eq_some_iff.1 hhead
    obtain ⟨more, heq⟩ := hprefix
    exact hnew t ht (by rw [← heq]; rfl)
  induction h with
  | done => exact List.nodup_nil
  | @finish e keep ends hnew hlater ih =>
    rw [beginnings_finish hnew, List.nodup_cons]
    exact ⟨fun hmem => hother hlater hnew _ hmem rfl, ih⟩
  | @enter e below ends hsome hnew hbelow hlater ihbelow ihlater =>
    rw [beginnings_enter hsome hnew, List.nodup_append, List.nodup_cons]
    refine ⟨⟨?_, ?_⟩, ihlater, ?_⟩
    · rw [List.mem_map]
      rintro ⟨v, hv, heq⟩
      exact (hbelow.mem_beginnings_iff.1 hv).1 (List.cons.inj heq).2
    · exact ihbelow.map fun _ _ heq => (List.cons.inj heq).2
    · intro v hv v' hv' heq
      refine hother hlater hnew v' hv' ?_
      rcases List.mem_cons.1 hv with rfl | hv
      · rw [← heq]
        rfl
      · obtain ⟨u, -, rfl⟩ := List.mem_map.1 hv
        rw [← heq]
        rfl

end IsTree

end WorkflowLoops

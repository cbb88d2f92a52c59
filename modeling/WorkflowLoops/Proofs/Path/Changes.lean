import Mathlib.Data.List.Chain
import Mathlib.Data.List.Induction
import WorkflowLoops.Path.Basic

/-!
# How paths come about

A path grows and shrinks at its end, or it is replaced by the path of a row of hops. A hop that does not
start where the path ends is refused, and so is a row of hops that do not follow one another; the path is
then left as it was. Growing looks at the last hop only, replacing at every pair of neighbours, and both
let the same rows of hops through (`ofHops?_eq_foldlM_push?`).

The main statement is that no row of changes makes a path that is not continuous (`changes_keep_continuous`).
-/

namespace WorkflowLoops

/-- The check for continuity compares every pair of neighbours. -/
theorem Hop.chained_iff {hops : List Hop} :
    Hop.chained hops = true ↔ hops.IsChain fun a b => a.target = b.source := by
  induction hops with
  | nil => simp [Hop.chained]
  | cons a rest ih =>
    cases rest with
    | nil => simp [Hop.chained]
    | cons b rest => rw [Hop.chained, Bool.and_eq_true, beq_iff_eq, ih, List.isChain_cons_cons]

namespace Path

/-- What can be done to a path. -/
inductive Change
  /-- Let it go on with a hop. -/
  | push (hop : Hop)
  /-- Take its last hop back. -/
  | pop
  /-- Put the path of a row of hops in its place. -/
  | replace (hops : List Hop)
deriving DecidableEq, Repr

/-- What a change makes of a path, if it is not refused. -/
def change? (p : Path) : Change → Option Path
  | .push hop => p.push? hop
  | .pop => some p.pop
  | .replace hops => ofHops? hops

/-- The path after a change. A change that is refused leaves it as it was. -/
def change (p : Path) (c : Change) : Path := (p.change? c).getD p

/-- What a row of changes makes of the path without hops. -/
def changed (cs : List Change) : Path := cs.foldl change {}

variable {p q : Path} {hop : Hop} {hops : List Hop}

/-! ## Single operations -/

lemma last?_eq (p : Path) : p.last? = p.hops.getLast? := by
  rw [last?, hops, List.getLast?_reverse]

lemma first?_eq (p : Path) : p.first? = p.hops.head? := by
  rw [first?, hops, List.head?_reverse]

lemma hops_pop (p : Path) : p.pop.hops = p.hops.dropLast := by
  rw [pop, hops, hops, List.dropLast_reverse]

theorem isContinuous_iff : p.isContinuous = true ↔ p.hops.IsChain fun a b => a.target = b.source :=
  Hop.chained_iff

/-- A hop is refused if it does not start where the path ends. -/
theorem push?_eq_none_iff :
    p.push? hop = none ↔ ∃ last, p.hops.getLast? = some last ∧ last.target ≠ hop.source := by
  rw [push?, terminus?, last?_eq]
  cases p.hops.getLast? <;> simp

lemma ofHops?_eq_some_iff : ofHops? hops = some q ↔ q.hops = hops ∧ q.isContinuous = true := by
  unfold ofHops?
  constructor
  · intro h
    split at h
    · obtain rfl := Option.some.inj h
      rename_i hchained
      simpa [Path.hops, isContinuous] using hchained
    · cases h
  · rintro ⟨rfl, hcontinuous⟩
    exact (if_pos hcontinuous).trans (by rw [Path.hops, List.reverse_reverse])

/-- For a row that is continuous, the last hop decides whether it goes on. -/
lemma isContinuous_concat_iff (hp : p.isContinuous = true) (hq : q.hops = p.hops ++ [hop]) :
    q.isContinuous = true ↔ ∀ t ∈ p.terminus?, t = hop.source := by
  rw [isContinuous_iff] at hp
  rw [isContinuous_iff, hq, List.isChain_append, terminus?, last?_eq]
  simp [hp]

lemma isContinuous_of_push? (hp : p.isContinuous = true) (h : p.push? hop = some q) :
    q.isContinuous = true :=
  (isContinuous_concat_iff hp (hops_of_push? h)).2 (push?_eq_some_iff.1 h).1

lemma isContinuous_pop (hp : p.isContinuous = true) : p.pop.isContinuous = true := by
  rw [isContinuous_iff] at hp ⊢
  rw [hops_pop, List.dropLast_eq_take]
  exact hp.take _

/-- A row of hops is let through exactly if all of it but the last hop is, and the path of these goes on
with the last hop. -/
lemma ofHops?_concat (hops : List Hop) (hop : Hop) :
    ofHops? (hops ++ [hop]) = (ofHops? hops).bind fun p => p.push? hop := by
  apply Option.ext
  intro q
  rw [ofHops?_eq_some_iff, Option.bind_eq_some_iff]
  constructor
  · rintro ⟨hq, hcontinuous⟩
    have hbefore : Path.isContinuous ⟨hops.reverse⟩ = true := by
      rw [isContinuous_iff, hq] at hcontinuous
      rw [isContinuous_iff, Path.hops, List.reverse_reverse]
      exact (List.isChain_append.1 hcontinuous).1
    have hp : ofHops? hops = some ⟨hops.reverse⟩ :=
      ofHops?_eq_some_iff.2 ⟨List.reverse_reverse hops, hbefore⟩
    have hgoes := (isContinuous_concat_iff hbefore (by rw [hq, Path.hops, List.reverse_reverse])).1
      hcontinuous
    refine ⟨_, hp, push?_eq_some_iff.2 ⟨hgoes, ?_⟩⟩
    have hlatest : q.latestFirst = (hops ++ [hop]).reverse := by
      rw [← hq, Path.hops, List.reverse_reverse]
    rw [List.reverse_concat] at hlatest
    exact congrArg Path.mk hlatest
  · rintro ⟨p, hp, hpush⟩
    obtain ⟨rfl, hcontinuous⟩ := ofHops?_eq_some_iff.1 hp
    exact ⟨hops_of_push? hpush, isContinuous_of_push? hcontinuous hpush⟩

/-- A row of hops makes the path that comes about by pushing them one by one, and is refused if one of
them is. -/
theorem ofHops?_eq_foldlM_push? (hops : List Hop) : ofHops? hops = hops.foldlM push? {} := by
  induction hops using List.reverseRecOn with
  | nil => rfl
  | append_singleton hops hop ih =>
    rw [ofHops?_concat, ih, List.foldlM_append]
    simp

/-! ## Rows of changes -/

/-- A change keeps a path continuous. -/
lemma isContinuous_change (hp : p.isContinuous = true) (c : Change) :
    (p.change c).isContinuous = true := by
  rw [change]
  cases hresult : p.change? c with
  | none => exact hp
  | some q =>
    rw [Option.getD_some]
    cases c with
    | push hop => exact isContinuous_of_push? hp hresult
    | pop =>
      obtain rfl := Option.some.inj hresult
      exact isContinuous_pop hp
    | replace hops => exact (ofHops?_eq_some_iff.1 hresult).2

theorem isContinuous_changed (cs : List Change) : (changed cs).isContinuous = true := by
  induction cs using List.reverseRecOn with
  | nil => rfl
  | append_singleton cs c ih =>
    rw [changed, List.foldl_append]
    exact isContinuous_change ih c

lemma isClosed_iff :
    p.isClosed = true ↔ ∃ first last, p.hops.head? = some first ∧ p.hops.getLast? = some last ∧
      last.target = first.source := by
  rw [isClosed, origin?, terminus?, first?_eq, last?_eq]
  cases p.hops.head? with
  | none => simp
  | some first =>
    cases p.hops.getLast? with
    | none => simp
    | some last =>
      simp only [Option.map_some, beq_iff_eq, Option.some.injEq]
      constructor
      · exact fun h => ⟨first, last, rfl, rfl, h.symm⟩
      · rintro ⟨_, _, rfl, rfl, h⟩
        exact h.symm

/-- A continuous path closes into a cycle of the same hops if it has a hop and ends where it starts. -/
lemma close?_eq_some_iff (hp : p.isContinuous = true) {cycle : Cycle} :
    Cycle.close? p = some cycle ↔
      (∃ first last, p.hops.head? = some first ∧ p.hops.getLast? = some last ∧
        last.target = first.source) ∧ cycle.path = p := by
  rw [← isClosed_iff, Cycle.close?, hp, Bool.true_and]
  split
  · rename_i hclosed
    rw [Option.some.injEq]
    constructor
    · rintro rfl
      exact ⟨hclosed, rfl⟩
    · rintro ⟨-, rfl⟩
      rfl
  · rename_i hopen
    simp [hopen]

/-- Whatever is done to a path that is empty at first, it is continuous afterwards.

A hop is refused exactly if it does not start where the path ends; else it becomes the last hop, and taking
it back restores the path. A row of hops makes the path that comes about by pushing them one by one, and is
refused exactly if one of them is. A path that came about by changes closes exactly if it has a hop and its
last hop leads to where its first hop starts, and the cycle has the hops of the path. -/
theorem changes_keep_continuous :
    (∀ cs, (changed cs).isContinuous = true ∧
      (changed cs).hops.IsChain fun a b => a.target = b.source) ∧
    (∀ cs hop, (changed cs).push? hop = none ↔
      ∃ last, (changed cs).hops.getLast? = some last ∧ last.target ≠ hop.source) ∧
    (∀ cs hop q, (changed cs).push? hop = some q →
      q.hops = (changed cs).hops ++ [hop] ∧ q.last? = some hop ∧ q.pop = changed cs) ∧
    (∀ hops, ofHops? hops = hops.foldlM push? {}) ∧
    (∀ hops q, ofHops? hops = some q → q.hops = hops) ∧
    (∀ cs cycle, Cycle.close? (changed cs) = some cycle ↔
      (∃ first last, (changed cs).hops.head? = some first ∧ (changed cs).hops.getLast? = some last ∧
        last.target = first.source) ∧ cycle.path = changed cs) := by
  refine ⟨fun cs => ?_, fun cs hop => push?_eq_none_iff, fun cs hop q h => ?_, ofHops?_eq_foldlM_push?,
    fun hops q h => (ofHops?_eq_some_iff.1 h).1,
    fun cs cycle => close?_eq_some_iff (isContinuous_changed cs)⟩
  · exact ⟨isContinuous_changed cs, isContinuous_iff.1 (isContinuous_changed cs)⟩
  · have hhops := hops_of_push? h
    refine ⟨hhops, ?_, pop_of_push? h⟩
    rw [last?_eq, hhops, List.getLast?_concat]

/-- A hop from a node to itself: the path is pushed to, refuses a hop that starts elsewhere and a row of
hops that do not follow one another, goes around once more and back, and closes. -/
theorem changes_keep_continuous_selfLoop :
    let around : Hop := ⟨⟨3⟩, ⟨0⟩, ⟨3⟩, ⟨0⟩, ⟨0⟩⟩
    let elsewhere : Hop := ⟨⟨4⟩, ⟨0⟩, ⟨3⟩, ⟨0⟩, ⟨1⟩⟩
    let cs := [.push around, .push elsewhere, .replace [around, elsewhere], .push around, .pop]
    (changed cs).hops = [around] ∧ (changed cs).isContinuous = true ∧
      (changed cs).push? elsewhere = none ∧
      (∃ q, (changed cs).push? around = some q ∧ q.pop = changed cs) ∧
      ofHops? [around, around] = [around, around].foldlM push? {} ∧
      ∃ cycle, Cycle.close? (changed cs) = some cycle ∧ cycle.path = changed cs := by
  intro around elsewhere cs
  obtain ⟨hcontinuous, hrefused, htaken, hrows, -, hcloses⟩ := changes_keep_continuous
  have hhops : (changed cs).hops = [around] := by decide
  refine ⟨hhops, (hcontinuous cs).1, ?_, ?_, hrows _, ?_⟩
  · rw [hrefused, hhops]
    exact ⟨around, rfl, by decide⟩
  · have hpush : (changed cs).push? around = some ⟨[around, around]⟩ := by decide
    exact ⟨_, hpush, (htaken cs around _ hpush).2.2⟩
  · refine ⟨⟨changed cs⟩, (hcloses cs _).2 ⟨⟨around, around, ?_⟩, rfl⟩, rfl⟩
    rw [hhops]
    exact ⟨rfl, rfl, rfl⟩

end Path

end WorkflowLoops

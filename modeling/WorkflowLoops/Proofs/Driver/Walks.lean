import Mathlib.Order.Preorder.Finite
import Mathlib.Order.WellFounded
import WorkflowLoops.Driver.Resolution
import WorkflowLoops.Proofs.Graph.Lookup

/-!
# Walks out of a loop

What the exploration for a driver is about, said without it: the spots that a walk out of a loop
leads to, the drivers whose loops it enters, and whether it can go in a circle.

A graph is finite, so a walk can go in a circle exactly if it can go on for ever
(`circles_iff_exists_infinite`).
-/

namespace WorkflowLoops.Exploration

/-- Whether a walk out of a loop leads from one spot to the next. It does not go on along an edge that
enters the loop of a driver. -/
def Leads (g : Graph) (a b : Spot) : Prop :=
  ∃ e, g.GoesOn .exit a e ∧ g.entersLoop e = .ok false ∧ Spot.after e = b

/-- Whether a walk out of the loop of a node comes to a spot. -/
def Reaches (g : Graph) (start : NodeId) (spot : Spot) : Prop :=
  Relation.ReflTransGen (Leads g) ⟨start, .start⟩ spot

/-- Whether a walk out of the loop of a node hits a driver, by an edge that enters its loop. -/
def Hits (g : Graph) (start driver : NodeId) : Prop :=
  ∃ spot e, Reaches g start spot ∧ g.GoesOn .exit spot e ∧ g.entersLoop e = .ok true ∧
    e.target = driver

/-- Whether a walk out of the loop of a node can go in a circle. -/
def Circles (g : Graph) (start : NodeId) : Prop :=
  ∃ spot, Reaches g start spot ∧ Relation.TransGen (Leads g) spot spot

/-- Whether every walk from a spot comes to an end. -/
def Ends (g : Graph) (spot : Spot) : Prop := Acc (fun b a => Leads g a b) spot

variable {g : Graph} {start : NodeId} {a b : Spot}

lemma ends_of_reflTransGen (h : Relation.ReflTransGen (Leads g) a b) (ha : Ends g a) :
    Ends g b := by
  induction h with
  | refl => exact ha
  | tail _ hstep ih => exact ih.inv hstep

/-- Where every walk comes to an end, none goes in a circle. -/
theorem not_circles_of_ends (h : Ends g ⟨start, .start⟩) : ¬ Circles g start := by
  rintro ⟨spot, hreach, hcircle⟩
  have hends : Ends g spot := ends_of_reflTransGen hreach h
  clear hreach
  -- a circle passes a spot that can go on around it
  induction hends with
  | intro spot _ ih =>
    obtain ⟨next, hfirst, hrest⟩ := Relation.TransGen.head'_iff.1 hcircle
    exact ih next hfirst (Relation.TransGen.tail' hrest hfirst)

lemma mem_of_reaches (hg : g.WellFormed) {spot : Spot} (h : Reaches g start spot) :
    spot ∈ insert ⟨start, .start⟩ (Spot.after '' { e | e ∈ g.edges.toList }) := by
  induction h with
  | refl => exact Set.mem_insert _ _
  | tail _ hstep _ =>
    obtain ⟨e, hgoes, -, rfl⟩ := hstep
    exact Set.mem_insert_of_mem _ ⟨e, (hg.goesOn_mem_edges hgoes).1, rfl⟩

lemma reflTransGen_of_le {walk : Nat → Spot} (hwalk : ∀ n, Leads g (walk n) (walk (n + 1)))
    {m n : Nat} (h : m ≤ n) : Relation.ReflTransGen (Leads g) (walk m) (walk n) := by
  induction n, h using Nat.le_induction with
  | base => exact .refl
  | succ n _ ih => exact ih.tail (hwalk n)

/-- A walk out of a loop can go in a circle exactly if it can go on for ever. -/
theorem circles_iff_exists_infinite (hg : g.WellFormed) :
    Circles g start ↔
      ∃ walk : Nat → Spot, walk 0 = ⟨start, .start⟩ ∧ ∀ n, Leads g (walk n) (walk (n + 1)) := by
  have hinfinite : (∃ walk : Nat → Spot, walk 0 = ⟨start, .start⟩ ∧
      ∀ n, Leads g (walk n) (walk (n + 1))) ↔ ¬ Ends g ⟨start, .start⟩ := by
    rw [Ends, not_acc_iff_exists_descending_chain]
  constructor
  · intro hcircles
    rw [hinfinite]
    exact fun hends => not_circles_of_ends hends hcircles
  · rintro ⟨walk, hzero, hwalk⟩
    have hreach : ∀ n, Reaches g start (walk n) := by
      intro n
      rw [Reaches, ← hzero]
      exact reflTransGen_of_le hwalk (Nat.zero_le n)
    -- among infinitely many spots of a finite graph, one comes twice
    have hfinite : (insert ⟨start, .start⟩
        (Spot.after '' { e | e ∈ g.edges.toList })).Finite :=
      ((List.finite_toSet g.edges.toList).image Spot.after).insert _
    obtain ⟨m, n, hlt, heq⟩ :=
      hfinite.exists_lt_map_eq_of_forall_mem fun n => mem_of_reaches hg (hreach n)
    refine ⟨walk m, hreach m, ?_⟩
    have hround : Relation.TransGen (Leads g) (walk m) (walk n) :=
      Relation.TransGen.head' (hwalk m) (reflTransGen_of_le hwalk hlt)
    rwa [← heq] at hround

end WorkflowLoops.Exploration

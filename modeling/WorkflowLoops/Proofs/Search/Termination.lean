import Mathlib
import WorkflowLoops.Proofs.Search.Extension
import WorkflowLoops.Proofs.Search.Lengths

/-!
# Searches come to an end

A search is cut off by its limits, but it does not need them to end. No trail takes an edge twice, so
limits that allow as many steps and hops as there are edges are never reached; and with any limits that
are not reached a search goes through the same states. So there is one number of steps after which it
ends with an empty stack, whatever the limits are (`Search.endsByItself`).
-/

namespace WorkflowLoops

namespace Search

/-- Whether a search along given edges ends by itself: whatever was searched before, it takes a certain
number of steps under all limits that are large enough, and leaves nothing on its stack. -/
def EndsByItself (σ : Strategy) (least : Limits) (first : List Edge) : Prop :=
  ∀ s : Search, s.IsBack → ∃ count, ∀ limits, least ≤ limits →
    ∃ last, EndsIn (step σ) count ((s.allow limits).restart σ first) last (.ok ()) ∧
      last.stack = [] ∧ last.IsBack

variable {G : Guide} {σ : Strategy} {first edges : List Edge} {s last : Search} {limits : Limits}
  {count : Nat} {result : Except Error Unit}

/-- Larger limits change neither how many steps a search takes nor where it ends. -/
lemma endsIn_allow (h : EndsIn (step σ) count s last result) (hle : s.budget.limits ≤ limits)
    (hsettled : Settled result) :
    EndsIn (step σ) count (s.allow limits) (last.allow limits) result := by
  have hσ : σ.AgreesOn σ fun _ => True :=
    ⟨rfl, rfl, fun _ _ _ => rfl, fun _ _ _ _ _ _ _ _ => trivial⟩
  exact (carries_allow hσ limits).endsIn h ⟨hle, fun _ _ _ _ => trivial⟩ hsettled

/-- A guided search whose limits no trail exceeds ends with an empty stack, ready to start over. -/
lemma OnTrack.exists_endsIn (hσ : σ.KeepsTo G edges)
    (hjoin : ∀ e f, f ∈ G.next e → f.source = e.target) (hfirst : first ⊆ edges)
    (hle : Limits.mk edges.length edges.length ≤ s.budget.limits) (h : OnTrack G σ first s) :
    ∃ count last, EndsIn (Search.step σ) count s last (.ok ()) ∧ last.stack = [] ∧ last.IsBack := by
  obtain ⟨hdone, hstops⟩ := h.run hσ hfirst hjoin
  have hok : (iterate (Search.step σ) s).result = .ok () := by
    cases hresult : (iterate (Search.step σ) s).result with
    | ok _ => rfl
    | error err =>
      exfalso
      cases hstops err hresult with
      | steps hhead htrail hmore =>
        obtain ⟨f, hf, hhead⟩ := hhead
        have hfew := htrail.length_le_edges hσ.next_subset hhead (hfirst hf)
        exact absurd (hfew.trans hle.1) (Nat.not_le_of_lt hmore)
      | length hhead htrail hmore =>
        obtain ⟨f, hf, hhead⟩ := hhead
        have hfew := htrail.length_le_edges hσ.next_subset hhead (hfirst hf)
        exact absurd (hfew.trans hle.2) (Nat.not_le_of_lt hmore)
  obtain ⟨count, hends⟩ := exists_endsIn_iterate (Search.step σ) s
  rw [hok] at hends
  exact ⟨count, _, hends, stack_eq_nil_of_run hok, hdone hok⟩

/-- A guided search ends by itself: no trail exceeds the number of edges. -/
theorem endsByItself (hσ : σ.KeepsTo G edges) (hjoin : ∀ e f, f ∈ G.next e → f.source = e.target)
    (hfirst : first ⊆ edges) : EndsByItself σ ⟨edges.length, edges.length⟩ first := by
  intro s h
  have hback : (s.allow ⟨edges.length, edges.length⟩).IsBack := ⟨h.path, h.onPath, h.idle⟩
  have htrack : OnTrack G σ first ((s.allow ⟨edges.length, edges.length⟩).restart σ first) :=
    hback.restart
  obtain ⟨count, last, hends, hstack, hlast⟩ :=
    htrack.exists_endsIn hσ hjoin hfirst ⟨Nat.le_refl _, Nat.le_refl _⟩
  -- the steps are the same under larger limits
  refine ⟨count, fun limits hle => ⟨last.allow limits, ?_, hstack, ?_⟩⟩
  · exact endsIn_allow hends hle (settled_ok ())
  · exact ⟨hlast.path, hlast.onPath, hlast.idle⟩

end Search

end WorkflowLoops

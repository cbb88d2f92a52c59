import WorkflowLoops.Proofs.Search.Trails

/-!
# Shortcuts

A walk may come back to where it was before; a trail may not. If what may follow an edge is told by
its key alone, a walk can be cut short: at the first place where a key comes back, the way around is
left out.

The main statement is that for every walk there is a trail that ends on the same key, with the same
edges to follow it (`exists_leadsTo_of_isChain`), unless the walk comes back to the start.
-/

namespace WorkflowLoops.Guide

/-- Whether a walk may go on along an edge after another one, on which it does not end. -/
def Continues (G : Guide) (e f : Edge) : Prop := G.ends e = false ∧ f ∈ G.next e

/-- Whether what may follow an edge is told by its key, for edges that anything may follow. Back at
the start, a walk may take an edge only if it could also start with it. -/
structure KeysDecide (G : Guide) (root : Visit) (opens : Edge → Prop) : Prop where
  along : ∀ {e e' f f' : Edge}, G.key e = G.key e' → G.Continues e f → G.Continues e' f' →
    G.Continues e' f
  back : ∀ {e f : Edge}, G.key e = root → G.Continues e f → opens f

variable {G : Guide} {root : Visit} {opens : Edge → Prop} {e f : Edge} {w : List Edge}

theorem isChain_continues_iff :
    w.IsChain G.Continues ↔
      (w.IsChain fun e f => f ∈ G.next e) ∧ ∀ e ∈ w.dropLast, G.ends e = false := by
  induction w with
  | nil => simp
  | cons e rest ih =>
    cases rest with
    | nil => simp
    | cons f rest =>
      rw [List.isChain_cons_cons, List.isChain_cons_cons, ih, List.dropLast_cons_cons,
        List.forall_mem_cons, Continues]
      tauto

/-- A walk that starts with an edge, ends on a key, and comes back neither to its root nor to a key
it went through. -/
structure LeadsTo (G : Guide) (root : Visit) (opens : Edge → Prop) (v : List Edge) (e : Edge) :
    Prop where
  starts : ∃ x, v.head? = some x ∧ opens x
  continues : v.IsChain G.Continues
  simple : (root :: v.map G.key).Nodup
  last : ∃ e', v.getLast? = some e' ∧ G.key e' = G.key e ∧ ∀ f, G.Continues e f → G.Continues e' f

lemma LeadsTo.isTrail {v : List Edge} (h : G.LeadsTo root opens v e) : G.IsTrail [root] v := by
  obtain ⟨hchain, hpasses⟩ := isChain_continues_iff.1 h.continues
  obtain ⟨hroot, hnodup⟩ := List.nodup_cons.1 h.simple
  refine ⟨hchain, hpasses, .inr ⟨hnodup, fun x hx hback => hroot ?_⟩⟩
  rw [List.mem_singleton] at hback
  exact List.mem_map.2 ⟨x, hx, hback⟩

/-- A single edge leads to its own key. -/
lemma leadsTo_singleton (hopens : opens e) (hroot : G.key e ≠ root) :
    G.LeadsTo root opens [e] e where
  starts := ⟨e, rfl, hopens⟩
  continues := .singleton e
  simple := by simpa using hroot.symm
  last := ⟨e, rfl, rfl, fun _ h => h⟩

/-- Where a walk has come to, it can go on: to a new key, or to one that it went through, where the
rest of the walk is left out. -/
lemma LeadsTo.exists_continue (hkeys : G.KeysDecide root opens) {v : List Edge} {d : Edge}
    (h : G.LeadsTo root opens v d) (hde : G.Continues d e) (hroot : G.key e ≠ root) :
    ∃ u, G.LeadsTo root opens u e := by
  obtain ⟨⟨first, hfirst, hopens⟩, hchain, hsimple, d', hlast, hkey, hfollow⟩ := h
  by_cases hseen : G.key e ∈ v.map G.key
  · obtain ⟨x, hx, hsame⟩ := List.mem_map.1 hseen
    obtain ⟨before, after, rfl⟩ := List.append_of_mem hx
    -- anything may follow `x`, as something does
    have hnext : ∃ y, G.Continues x y := by
      cases after with
      | nil =>
        obtain rfl : x = d' := by simpa using hlast
        exact ⟨e, hfollow e hde⟩
      | cons y rest =>
        exact ⟨y, (List.isChain_append_cons_cons.1 hchain).2.1⟩
    obtain ⟨y, hy⟩ := hnext
    have hsplit : before ++ x :: after = (before ++ [x]) ++ after := by simp
    rw [hsplit] at hfirst hchain hsimple
    refine ⟨before ++ [x], ⟨first, ?_, hopens⟩, hchain.left_of_append, ?_, x, by simp, hsame, ?_⟩
    · rwa [List.head?_append_of_ne_nil _ (by simp)] at hfirst
    · rw [List.map_append, ← List.cons_append] at hsimple
      exact hsimple.of_append_left
    · exact fun f hf => hkeys.along hsame.symm hf hy
  · have hne : v ≠ [] := by
      rintro rfl
      simp at hfirst
    refine ⟨v ++ [e], ⟨first, ?_, hopens⟩, ?_, ?_, e, by simp, rfl, fun _ hf => hf⟩
    · rw [List.head?_append_of_ne_nil _ hne, hfirst]
    · refine hchain.append (.singleton e) fun a ha b hb => ?_
      obtain rfl : d' = a := by simpa [hlast] using ha
      obtain rfl : e = b := by simpa using hb
      exact hfollow e hde
    · rw [List.map_append, List.map_singleton, ← List.cons_append, ← List.concat_eq_append]
      refine List.Nodup.concat ?_ hsimple
      rw [List.mem_cons, not_or]
      exact ⟨hroot, hseen⟩

/-- Every walk can be cut short to a trail that ends on the same key, unless it ends at its root. -/
theorem exists_leadsTo_of_isChain (hkeys : G.KeysDecide root opens) (hchain : w.IsChain G.Continues)
    (hopens : ∀ x ∈ w.head?, opens x) :
    ∀ e ∈ w.getLast?, G.key e ≠ root → ∃ v, G.LeadsTo root opens v e := by
  induction w using List.reverseRecOn with
  | nil => simp
  | append_singleton before e ih =>
    intro e' he' hroot
    obtain rfl : e = e' := by simpa using he'
    cases hlast : before.getLast? with
    | none =>
      obtain rfl : before = [] := by simpa using hlast
      exact ⟨[e], leadsTo_singleton (hopens e rfl) hroot⟩
    | some d =>
      have hne : before ≠ [] := by
        rintro rfl
        simp at hlast
      have hde : G.Continues d e := (List.isChain_append.1 hchain).2.2 d hlast e rfl
      by_cases hback : G.key d = root
      · -- back at the root the walk starts anew
        exact ⟨[e], leadsTo_singleton (hkeys.back hback hde) hroot⟩
      · have hopens' : ∀ x ∈ before.head?, opens x := fun x hx =>
          hopens x (by rwa [List.head?_append_of_ne_nil _ hne])
        obtain ⟨v, hv⟩ := ih hchain.left_of_append hopens' d hlast hback
        exact hv.exists_continue hkeys hde hroot

end WorkflowLoops.Guide

import Mathlib.Data.List.Chain
import Mathlib.Data.List.Nodup
import WorkflowLoops.Proofs.Search.Unfolding

/-!
# Trails

The two searches with backtracking follow one pattern: an edge is remembered by a key, it may end
the path, and otherwise the path goes on along those next edges whose keys are not remembered yet. A
`Guide` is what tells them apart, and a trail is a walk that keeps to a guide and repeats no key.

The main statements: what a guided search unfolds to are the full trails, those that cannot be
extended (`mem_iff_of_unfolds`), in the lexicographic order of their edges (`pairwise_of_unfolds`);
and every trail can be extended to a full one (`exists_isFullTrail`).
-/

namespace WorkflowLoops

/-- The rules of a search with backtracking. -/
structure Guide where
  /-- How a path remembers that it went along an edge. -/
  key : Edge → Visit
  /-- The edges that go on after an edge. -/
  next : Edge → List Edge
  /-- Whether a path ends with an edge even if other edges go on. -/
  ends : Edge → Bool
  /-- Whether a path that ends with an edge is listed. -/
  lists : Edge → Bool

namespace Guide

/-- The edges that go on after an edge without leading back onto the path. -/
def ahead (G : Guide) (onPath : List Visit) (e : Edge) : List Edge :=
  (G.next e).filter fun f => G.key f ∉ onPath

/-- What a search does after an edge. -/
def move (G : Guide) (onPath : List Visit) (e : Edge) : Move :=
  if G.ends e = true ∨ G.key e ∈ onPath ∨ G.ahead (G.key e :: onPath) e = [] then
    .finish (G.lists e)
  else .enter (G.key e) (G.ahead (G.key e :: onPath) e)

/-- A walk that keeps to the rules and repeats no key. A single edge may lead back to a key that is
remembered from before. -/
structure IsTrail (G : Guide) (onPath : List Visit) (w : List Edge) : Prop where
  goesOn : w.IsChain fun e f => f ∈ G.next e
  passes : ∀ e ∈ w.dropLast, G.ends e = false
  simple : w.length = 1 ∨ (w.map G.key).Nodup ∧ ∀ e ∈ w, G.key e ∉ onPath

/-- A trail that cannot be extended. -/
def IsFullTrail (G : Guide) (onPath : List Visit) (w : List Edge) : Prop :=
  G.IsTrail onPath w ∧ ∀ e, ¬ G.IsTrail onPath (w ++ [e])

variable {G : Guide} {onPath : List Visit} {e f : Edge} {w : List Edge}

lemma mem_ahead : f ∈ G.ahead onPath e ↔ f ∈ G.next e ∧ G.key f ∉ onPath := by
  simp [ahead]

theorem isTrail_singleton : G.IsTrail onPath [e] where
  goesOn := .singleton e
  passes := by simp
  simple := .inl rfl

/-- After its first edge a trail is a trail for the memory in which that edge is noted. -/
theorem isTrail_cons_cons :
    G.IsTrail onPath (e :: f :: w) ↔
      (G.ends e = false ∧ G.key e ∉ onPath ∧ f ∈ G.ahead (G.key e :: onPath) e) ∧
        G.IsTrail (G.key e :: onPath) (f :: w) := by
  constructor
  · rintro ⟨hchain, hpasses, hsimple⟩
    obtain ⟨hnodup, hfresh⟩ := hsimple.resolve_left (by simp)
    rw [List.isChain_cons_cons] at hchain
    rw [List.map_cons, List.nodup_cons] at hnodup
    have hends : G.ends e = false := hpasses e (by simp)
    have hnew : ∀ x ∈ f :: w, G.key x ∉ G.key e :: onPath := by
      intro x hx
      rw [List.mem_cons, not_or]
      exact ⟨fun hc => hnodup.1 (List.mem_map.2 ⟨x, hx, hc⟩), hfresh x (List.mem_cons_of_mem e hx)⟩
    refine ⟨⟨hends, hfresh e (List.mem_cons_self ..), ?_⟩, hchain.2, ?_, .inr ⟨hnodup.2, hnew⟩⟩
    · exact mem_ahead.2 ⟨hchain.1, hnew f (List.mem_cons_self ..)⟩
    · intro x hx
      exact hpasses x (by rw [List.dropLast_cons_cons]; exact List.mem_cons_of_mem e hx)
  · rintro ⟨⟨hends, hfresh, hahead⟩, hchain, hpasses, hsimple⟩
    obtain ⟨hnext, hf⟩ := mem_ahead.1 hahead
    -- the second edge is new even where it is the last one
    have hall : ((f :: w).map G.key).Nodup ∧ ∀ x ∈ f :: w, G.key x ∉ G.key e :: onPath := by
      rcases hsimple with hone | hmore
      · obtain rfl : w = [] := by simpa using hone
        simpa using hf
      · exact hmore
    refine ⟨List.isChain_cons_cons.2 ⟨hnext, hchain⟩, ?_, .inr ⟨?_, ?_⟩⟩
    · intro x hx
      rw [List.dropLast_cons_cons] at hx
      rcases List.mem_cons.1 hx with rfl | hx
      · exact hends
      · exact hpasses x hx
    · rw [List.map_cons, List.nodup_cons]
      refine ⟨fun hc => ?_, hall.1⟩
      obtain ⟨x, hx, hkey⟩ := List.mem_map.1 hc
      exact hall.2 x hx (by rw [hkey]; exact List.mem_cons_self ..)
    · intro x hx
      rcases List.mem_cons.1 hx with rfl | hx
      · exact hfresh
      · exact fun hc => hall.2 x hx (List.mem_cons_of_mem _ hc)

/-- One edge is a full trail exactly if the search ends the path there. -/
theorem isFullTrail_singleton_iff :
    G.IsFullTrail onPath [e] ↔ G.move onPath e = .finish (G.lists e) := by
  have hextend : ∀ f, G.IsTrail onPath ([e] ++ [f]) ↔
      (G.ends e = false ∧ G.key e ∉ onPath ∧ f ∈ G.ahead (G.key e :: onPath) e) := by
    intro f
    rw [List.singleton_append, isTrail_cons_cons]
    exact and_iff_left isTrail_singleton
  simp only [IsFullTrail, isTrail_singleton, true_and, hextend, move]
  constructor
  · intro hfull
    apply if_pos
    by_contra hc
    simp only [not_or, Bool.not_eq_true] at hc
    obtain ⟨hends, hfresh, hahead⟩ := hc
    obtain ⟨f, hf⟩ := List.exists_mem_of_ne_nil _ hahead
    exact hfull f ⟨hends, hfresh, hf⟩
  · rintro hmove f ⟨hends, hfresh, hf⟩
    rw [if_neg] at hmove
    · cases hmove
    · simp only [hends, Bool.false_eq_true, false_or, not_or]
      exact ⟨hfresh, List.ne_nil_of_mem hf⟩

/-- A full trail of more than one edge goes on where the search enters a node. -/
theorem isFullTrail_cons_cons_iff :
    G.IsFullTrail onPath (e :: f :: w) ↔
      G.move onPath e = .enter (G.key e) (G.ahead (G.key e :: onPath) e) ∧
        f ∈ G.ahead (G.key e :: onPath) e ∧ G.IsFullTrail (G.key e :: onPath) (f :: w) := by
  have hmove : f ∈ G.ahead (G.key e :: onPath) e →
      (G.move onPath e = .enter (G.key e) (G.ahead (G.key e :: onPath) e) ↔
        G.ends e = false ∧ G.key e ∉ onPath) := by
    intro hf
    have hne := List.ne_nil_of_mem hf
    rw [move]
    by_cases hstop : G.ends e = true ∨ G.key e ∈ onPath
    · rw [if_pos (hstop.imp_right .inl)]
      refine iff_of_false (by simp) fun hc => ?_
      rcases hstop with hends | hback
      · simp [hc.1] at hends
      · exact hc.2 hback
    · rw [not_or, Bool.not_eq_true] at hstop
      rw [if_neg (by simp [hstop, hne])]
      exact iff_of_true rfl hstop
  simp only [IsFullTrail, List.cons_append, isTrail_cons_cons]
  constructor
  · rintro ⟨⟨⟨hends, hfresh, hf⟩, htrail⟩, hmax⟩
    exact ⟨(hmove hf).2 ⟨hends, hfresh⟩, hf, htrail, fun x hx => hmax x ⟨⟨hends, hfresh, hf⟩, hx⟩⟩
  · rintro ⟨henter, hf, htrail, hmax⟩
    obtain ⟨hends, hfresh⟩ := (hmove hf).1 henter
    exact ⟨⟨⟨hends, hfresh, hf⟩, htrail⟩, fun x hx => hmax x hx.2⟩

/-- A path ends where the guide says so and where it comes back to a key. -/
lemma move_of_stop (h : G.ends e = true ∨ G.key e ∈ onPath) :
    G.move onPath e = .finish (G.lists e) :=
  if_pos (h.imp_right .inl)

/-- Anywhere else it ends only if nothing goes on. -/
lemma move_of_pass (h : ¬ (G.ends e = true ∨ G.key e ∈ onPath)) :
    G.move onPath e = if G.ahead (G.key e :: onPath) e = [] then .finish (G.lists e)
      else .enter (G.key e) (G.ahead (G.key e :: onPath) e) := by
  rw [not_or] at h
  simp only [move, h, false_or, Bool.false_eq_true]

lemma keep_of_move {keep : Bool} (h : G.move onPath e = .finish keep) : keep = G.lists e := by
  unfold move at h
  split at h
  · exact (Move.finish.inj h).symm
  · cases h

lemma enter_of_move {visit : Visit} {next : List Edge} (h : G.move onPath e = .enter visit next) :
    visit = G.key e ∧ next = G.ahead (G.key e :: onPath) e := by
  unfold move at h
  split at h
  · cases h
  · obtain ⟨hvisit, hnext⟩ := Move.enter.inj h
    exact ⟨hvisit.symm, hnext.symm⟩

end Guide

/-- Whether a search keeps to a guide along the edges of a graph. -/
structure Strategy.KeepsTo (σ : Strategy) (G : Guide) (edges : List Edge) : Prop where
  move_eq : ∀ e ∈ edges, ∀ onPath, σ.move onPath e = .ok (G.move onPath e)
  next_subset : ∀ e ∈ edges, ∀ f ∈ G.next e, f ∈ edges

namespace Guide

open Search

variable {G : Guide} {σ : Strategy} {edges pending : List Edge} {onPath : List Visit}
  {ends : List (List Edge × Bool)}

/-! ## The ends of a search -/

/-- What a guided search unfolds to are the full trails that start with one of its edges. -/
theorem mem_iff_of_unfolds (hσ : σ.KeepsTo G edges) (h : Unfolds σ onPath pending ends)
    (hpending : ∀ e ∈ pending, e ∈ edges) (w : List Edge) (keep : Bool) :
    (w, keep) ∈ ends ↔
      (∃ e ∈ pending, w.head? = some e) ∧ G.IsFullTrail onPath w ∧
        w.getLast?.map G.lists = some keep := by
  induction h generalizing w with
  | done => simp
  | @finish onPath e later keep' ends hmove hlater ih =>
    have hthere : e ∈ edges := hpending e (List.mem_cons_self ..)
    have hmove' : G.move onPath e = .finish keep' :=
      Except.ok.inj ((hσ.move_eq e hthere onPath).symm.trans hmove)
    obtain rfl : keep' = G.lists e := keep_of_move hmove'
    rw [List.mem_cons, ih (fun x hx => hpending x (List.mem_cons_of_mem _ hx)), Prod.mk.injEq]
    constructor
    · rintro (⟨rfl, rfl⟩ | ⟨⟨x, hx, hhead⟩, hrest⟩)
      · exact ⟨⟨e, List.mem_cons_self .., rfl⟩, isFullTrail_singleton_iff.2 hmove', rfl⟩
      · exact ⟨⟨x, List.mem_cons_of_mem _ hx, hhead⟩, hrest⟩
    · rintro ⟨⟨x, hx, hhead⟩, hfull, hkeep⟩
      rcases List.mem_cons.1 hx with rfl | hx
      · left
        match w, hhead with
        | [_], rfl => exact ⟨rfl, (Option.some.inj hkeep).symm⟩
        | _ :: f :: rest, rfl =>
          -- the search does not go on after this edge
          have henter := (isFullTrail_cons_cons_iff.1 hfull).1
          rw [hmove'] at henter
          cases henter
      · exact .inr ⟨⟨x, hx, hhead⟩, hfull, hkeep⟩
  | @enter onPath e later next visit below ends hmove hbelow hlater ihbelow ihlater =>
    have hthere : e ∈ edges := hpending e (List.mem_cons_self ..)
    have hmove' : G.move onPath e = .enter visit next :=
      Except.ok.inj ((hσ.move_eq e hthere onPath).symm.trans hmove)
    obtain ⟨rfl, rfl⟩ := enter_of_move hmove'
    have hnext : ∀ x ∈ G.ahead (G.key e :: onPath) e, x ∈ edges := fun x hx =>
      hσ.next_subset e hthere x (mem_ahead.1 hx).1
    rw [List.mem_append, ihlater (fun x hx => hpending x (List.mem_cons_of_mem _ hx)),
      List.mem_map]
    constructor
    · rintro (⟨⟨rest, keep'⟩, hmem, heq⟩ | ⟨⟨x, hx, hhead⟩, hrest⟩)
      · obtain ⟨rfl, rfl⟩ := Prod.mk.inj heq
        obtain ⟨⟨f, hf, hhead⟩, hfull, hkeep⟩ := (ihbelow hnext rest).1 hmem
        obtain ⟨rest, rfl⟩ := List.head?_eq_some_iff.1 hhead
        refine ⟨⟨e, List.mem_cons_self .., rfl⟩,
          isFullTrail_cons_cons_iff.2 ⟨hmove', hf, hfull⟩, ?_⟩
        rw [List.getLast?_cons_cons]
        exact hkeep
      · exact ⟨⟨x, List.mem_cons_of_mem _ hx, hhead⟩, hrest⟩
    · rintro ⟨⟨x, hx, hhead⟩, hfull, hkeep⟩
      rcases List.mem_cons.1 hx with rfl | hx
      · left
        match w, hhead with
        | [_], rfl =>
          -- the search does not end after this edge
          have hfinish := isFullTrail_singleton_iff.1 hfull
          rw [hmove'] at hfinish
          cases hfinish
        | _ :: f :: rest, rfl =>
          obtain ⟨-, hf, hfull'⟩ := isFullTrail_cons_cons_iff.1 hfull
          rw [List.getLast?_cons_cons] at hkeep
          exact ⟨(f :: rest, keep), (ihbelow hnext _).2 ⟨⟨f, hf, rfl⟩, hfull', hkeep⟩, rfl⟩
      · exact .inr ⟨⟨x, hx, hhead⟩, hfull, hkeep⟩

/-! ## Their order -/

/-- Every end starts with one of the edges. -/
lemma exists_head_of_unfolds (h : Unfolds σ onPath pending ends) :
    ∀ t ∈ ends, ∃ e ∈ pending, t.1.head? = some e := by
  induction h with
  | done => simp
  | @finish onPath e later keep ends hmove hlater ih =>
    intro t ht
    rcases List.mem_cons.1 ht with rfl | ht
    · exact ⟨e, List.mem_cons_self .., rfl⟩
    · obtain ⟨f, hf, hhead⟩ := ih t ht
      exact ⟨f, List.mem_cons_of_mem _ hf, hhead⟩
  | @enter onPath e later next visit below ends hmove hbelow hlater ihbelow ihlater =>
    intro t ht
    rcases List.mem_append.1 ht with ht | ht
    · obtain ⟨u, -, rfl⟩ := List.mem_map.1 ht
      exact ⟨e, List.mem_cons_self .., rfl⟩
    · obtain ⟨f, hf, hhead⟩ := ihlater t ht
      exact ⟨f, List.mem_cons_of_mem _ hf, hhead⟩

/-- A walk comes before all walks whose first edge is ranked higher than its own. -/
lemma map_rank_lt {rank : Edge → Nat} {e f : Edge} {v w : List Edge} (hlt : rank e < rank f)
    (hhead : w.head? = some f) : (e :: v).map rank < w.map rank := by
  obtain ⟨rest, rfl⟩ := List.head?_eq_some_iff.1 hhead
  rw [List.map_cons, List.map_cons, List.cons_lt_cons_iff]
  exact .inl hlt

/-- If edges that go on from a node always come in the order of their ranks, then the ends of a
search come in the lexicographic order of the ranks along them. -/
theorem pairwise_of_unfolds {rank : Edge → Nat} (hσ : σ.KeepsTo G edges)
    (hrank : ∀ e ∈ edges, (G.next e).Pairwise fun f f' => rank f < rank f')
    (h : Unfolds σ onPath pending ends) (hpending : ∀ e ∈ pending, e ∈ edges)
    (hfirst : pending.Pairwise fun f f' => rank f < rank f') :
    ends.Pairwise fun t u => t.1.map rank < u.1.map rank := by
  induction h with
  | done => exact .nil
  | @finish onPath e later keep ends hmove hlater ih =>
    rw [List.pairwise_cons] at hfirst ⊢
    refine ⟨fun u hu => ?_, ih (fun x hx => hpending x (List.mem_cons_of_mem _ hx)) hfirst.2⟩
    obtain ⟨f, hf, hhead⟩ := exists_head_of_unfolds hlater u hu
    exact map_rank_lt (hfirst.1 f hf) hhead
  | @enter onPath e later next visit below ends hmove hbelow hlater ihbelow ihlater =>
    have hthere : e ∈ edges := hpending e (List.mem_cons_self ..)
    obtain ⟨rfl, rfl⟩ := enter_of_move (Except.ok.inj ((hσ.move_eq e hthere onPath).symm.trans hmove))
    have hnext : ∀ x ∈ G.ahead (G.key e :: onPath) e, x ∈ edges := fun x hx =>
      hσ.next_subset e hthere x (mem_ahead.1 hx).1
    rw [List.pairwise_cons] at hfirst
    rw [List.pairwise_append]
    refine ⟨?_, ihlater (fun x hx => hpending x (List.mem_cons_of_mem _ hx)) hfirst.2, ?_⟩
    · rw [List.pairwise_map]
      refine (ihbelow hnext ((hrank e hthere).filter _)).imp fun hlt => ?_
      rw [List.map_cons, List.map_cons, List.cons_lt_cons_iff]
      exact .inr ⟨rfl, hlt⟩
    · intro t ht u hu
      obtain ⟨v, -, rfl⟩ := List.mem_map.1 ht
      obtain ⟨f, hf, hhead⟩ := exists_head_of_unfolds hlater u hu
      exact map_rank_lt (hfirst.1 f hf) hhead

/-! ## Extending a trail -/

/-- A walk that starts with an edge of a graph and keeps to the rules stays in the graph. -/
lemma mem_of_isChain (hnext : ∀ e ∈ edges, ∀ f ∈ G.next e, f ∈ edges) {w : List Edge} {first : Edge}
    (hchain : w.IsChain fun e f => f ∈ G.next e) (hhead : w.head? = some first)
    (hfirst : first ∈ edges) : ∀ e ∈ w, e ∈ edges := by
  induction w generalizing first with
  | nil => simp
  | cons e rest ih =>
    obtain rfl : e = first := Option.some.inj hhead
    intro x hx
    rcases List.mem_cons.1 hx with rfl | hx
    · exact hfirst
    · obtain ⟨f, rest, rfl⟩ := List.exists_cons_of_ne_nil (List.ne_nil_of_mem hx)
      rw [List.isChain_cons_cons] at hchain
      exact ih hchain.2 rfl (hnext e hfirst f hchain.1) x hx

/-- A trail takes no edge twice. -/
lemma IsTrail.nodup {w : List Edge} (h : G.IsTrail onPath w) : w.Nodup := by
  rcases h.simple with hone | ⟨hnodup, -⟩
  · obtain ⟨e, rfl⟩ := List.length_eq_one_iff.1 hone
    exact List.nodup_singleton e
  · exact hnodup.of_map

/-- Every trail can be extended to a full one. -/
theorem exists_isFullTrail (hnext : ∀ e ∈ edges, ∀ f ∈ G.next e, f ∈ edges) {w : List Edge}
    {first : Edge} (hhead : w.head? = some first) (hfirst : first ∈ edges)
    (h : G.IsTrail onPath w) : ∃ rest, G.IsFullTrail onPath (w ++ rest) := by
  by_cases hfull : ∃ e, G.IsTrail onPath (w ++ [e])
  · obtain ⟨e, he⟩ := hfull
    have hhead' : (w ++ [e]).head? = some first := by
      rw [List.head?_append, hhead]
      rfl
    -- a longer trail has fewer edges of the graph left
    have hlength : (w ++ [e]).length ≤ edges.length :=
      he.nodup.length_le_of_subset (mem_of_isChain hnext he.goesOn hhead' hfirst)
    obtain ⟨rest, hrest⟩ := exists_isFullTrail hnext hhead' hfirst he
    exact ⟨e :: rest, by simpa using hrest⟩
  · exact ⟨[], by simpa using h, fun e he => hfull ⟨e, by simpa using he⟩⟩
termination_by edges.length - w.length
decreasing_by
  rw [List.length_append, List.length_singleton] at hlength ⊢
  omega

end Guide

end WorkflowLoops

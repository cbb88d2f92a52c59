import Mathlib.Data.List.Chain
import WorkflowLoops.Proofs.Driver.Walks
import WorkflowLoops.Proofs.Iteration

/-!
# What an exploration finds

An exploration looks at every edge of every spot that it comes to. `Sound` says what holds in each of
its states: what was seen can be reached, what was noted is there, and a spot that is left has been
explored to its end. Each operation keeps it, so it holds at the end (`Sound.run`), when nothing is
left on the stack.
-/

namespace WorkflowLoops.Exploration

/-- Whether what an edge leads to is noted: a hit on a driver, or a spot that is seen. -/
structure Explored (g : Graph) (driver? : Option NodeId) (seen : List Spot) (e : Edge) : Prop where
  hit : g.entersLoop e = .ok true → driver? = some e.target
  step : g.entersLoop e = .ok false → Spot.after e ∈ seen

/-- Whether no edge of a frame that was looked at leads to the spot of another frame. -/
def Avoids (g : Graph) (f f' : Spot × List Edge) : Prop :=
  ∀ e, g.GoesOn .exit f.1 e → e ∉ f.2 → g.entersLoop e = .ok false → Spot.after e ≠ f'.1

/-- What holds in every state of an exploration. -/
structure Sound (g : Graph) (start : NodeId) (x : Exploration) : Prop where
  named : g.exeIdAt start = .ok x.budget.start
  reaches : ∀ spot ∈ x.seen, Reaches g start spot
  stack_seen : ∀ f ∈ x.stack, f.1 ∈ x.seen
  chained : (x.stack.map Prod.fst).IsChain fun above below => Leads g below above
  pending : ∀ f ∈ x.stack, ∀ e ∈ f.2, g.GoesOn .exit f.1 e
  /-- The edges of a spot under exploration are still to be looked at, or they are explored. -/
  looked : ∀ f ∈ x.stack, ∀ e, g.GoesOn .exit f.1 e → e ∈ f.2 ∨ Explored g x.driver? x.seen e
  /-- Unless that was noted, no edge looked at leads back down the stack. -/
  avoids : x.looped = false → (∀ f ∈ x.stack, Avoids g f f) ∧ x.stack.Pairwise (Avoids g)
  /-- The edges of a spot that was left are explored. -/
  left : ∀ spot ∈ x.seen, spot ∉ x.stack.map Prod.fst →
    (∀ e, g.GoesOn .exit spot e → Explored g x.driver? x.seen e) ∧ (x.looped = false → Ends g spot)
  hits : ∀ d, x.driver? = some d → Hits g start d
  circles : x.looped = true → Circles g start

/-- What can stop an exploration: it runs out of steps, or it hits two drivers. -/
inductive Stops (g : Graph) (start : NodeId) (name : String) : Error → Prop
  | steps (limit : Nat) : Stops g start name (.malformed (.stepLimitExceeded name limit))
  | conflict {d d' : NodeId} {first second : String} : Hits g start d → Hits g start d' → d ≠ d' →
      g.exeIdAt d = .ok first → g.exeIdAt d' = .ok second →
      Stops g start name (.malformed (.conflictingDrivers name first second))

variable {g : Graph} {start : NodeId} {x y : Exploration} {e : Edge} {spot : Spot}
  {edges later : List Edge} {below rest : List (Spot × List Edge)}

lemma Explored.mono {driver? driver?' : Option NodeId} {seen seen' : List Spot}
    (h : Explored g driver? seen e) (hdriver : ∀ d, driver? = some d → driver?' = some d)
    (hseen : ∀ spot ∈ seen, spot ∈ seen') : Explored g driver?' seen' e where
  hit henters := hdriver _ (h.hit henters)
  step henters := hseen _ (h.step henters)

lemma Avoids.drop {f : Spot × List Edge} (h : Avoids g (spot, e :: later) f)
    (hnew : g.entersLoop e = .ok false → Spot.after e ≠ f.1) : Avoids g (spot, later) f := by
  intro e' hgoes hlater henters
  by_cases heq : e' = e
  · rw [heq] at henters ⊢
    exact hnew henters
  · exact h e' hgoes (by simp [heq, hlater]) henters

/-! ## The operations -/

/-- An exploration that has not begun. -/
lemma sound_blank {budget : Budget} (hstart : g.exeIdAt start = .ok budget.start) :
    Sound g start { budget } where
  named := hstart
  reaches := by simp
  stack_seen := by simp
  chained := .nil
  pending := by simp
  looked := by simp
  avoids := by simp
  left := by simp
  hits := by simp
  circles := by simp

/-- When all edges of the spot on top are looked at, what they lead to is noted and was left before. -/
lemma Sound.explored_top (h : x.Sound g start) (hstack : x.stack = (spot, []) :: rest) :
    (∀ e, g.GoesOn .exit spot e → Explored g x.driver? x.seen e) ∧
      (x.looped = false → Ends g spot) := by
  have htop : (spot, []) ∈ x.stack := by
    rw [hstack]
    exact List.mem_cons_self ..
  have hexplored : ∀ e, g.GoesOn .exit spot e → Explored g x.driver? x.seen e := fun e he =>
    (h.looked _ htop e he).resolve_left List.not_mem_nil
  refine ⟨hexplored, fun hlooped => .intro spot ?_⟩
  rintro next ⟨e, hgoes, henters, rfl⟩
  obtain ⟨hself, hothers⟩ := h.avoids hlooped
  rw [hstack, List.pairwise_cons] at hothers
  have hgone : Spot.after e ∉ x.stack.map Prod.fst := by
    rw [hstack, List.map_cons, List.mem_cons, not_or]
    refine ⟨hself _ htop e hgoes List.not_mem_nil henters, fun hback => ?_⟩
    obtain ⟨f, hf, heq⟩ := List.mem_map.1 hback
    exact hothers.1 f hf e hgoes List.not_mem_nil henters heq.symm
  exact (h.left _ ((hexplored e hgoes).step henters) hgone).2 hlooped

/-- A spot is left when all of its edges are looked at. -/
lemma Sound.pop (h : x.Sound g start) (hstack : x.stack = (spot, []) :: rest) :
    Sound g start { x with stack := rest } where
  named := h.named
  reaches := h.reaches
  stack_seen f hf := h.stack_seen f (hstack ▸ List.mem_cons_of_mem _ hf)
  chained := by
    have hchained := h.chained
    rw [hstack, List.map_cons] at hchained
    exact hchained.tail
  pending f hf := h.pending f (hstack ▸ List.mem_cons_of_mem _ hf)
  looked f hf := h.looked f (hstack ▸ List.mem_cons_of_mem _ hf)
  avoids hlooped := by
    obtain ⟨hself, hothers⟩ := h.avoids hlooped
    rw [hstack, List.pairwise_cons] at hothers
    exact ⟨fun f hf => hself f (hstack ▸ List.mem_cons_of_mem _ hf), hothers.2⟩
  left s hseen hgone := by
    by_cases hs : s = spot
    · rw [hs]
      exact h.explored_top hstack
    · apply h.left s hseen
      rw [hstack, List.map_cons, List.mem_cons, not_or]
      exact ⟨hs, hgone⟩
  hits := h.hits
  circles := h.circles

/-- What no edge of a stack leads back to stays so when one edge more is looked at, if that edge does
not lead back itself. -/
lemma avoids_drop {above : List (Spot × List Edge)}
    (hself : ∀ f ∈ above ++ (spot, e :: later) :: below, Avoids g f f)
    (hpairs : (above ++ (spot, e :: later) :: below).Pairwise (Avoids g))
    (hback : g.entersLoop e = .ok false → Spot.after e ∉ spot :: below.map Prod.fst) :
    (∀ f ∈ above ++ (spot, later) :: below, Avoids g f f) ∧
      (above ++ (spot, later) :: below).Pairwise (Avoids g) := by
  have hnew : ∀ f ∈ (spot, later) :: below,
      g.entersLoop e = .ok false → Spot.after e ≠ f.1 := by
    intro f hf henters heq
    apply hback henters
    rw [heq]
    exact List.mem_map_of_mem (f := Prod.fst) hf
  rw [List.pairwise_append, List.pairwise_cons] at hpairs ⊢
  obtain ⟨habove, ⟨hbelow, hrest⟩, hcross⟩ := hpairs
  refine ⟨fun f hf => ?_, habove, ⟨fun f hf => ?_, hrest⟩, fun a ha f hf => ?_⟩
  · rcases List.mem_append.1 hf with hf | hf
    · exact hself f (List.mem_append_left _ hf)
    · rcases List.mem_cons.1 hf with rfl | hf
      · have htop := hself (spot, e :: later) (by simp)
        exact htop.drop (hnew (spot, later) (List.mem_cons_self ..))
      · exact hself f (List.mem_append_right _ (List.mem_cons_of_mem _ hf))
  · exact (hbelow f hf).drop (hnew f (List.mem_cons_of_mem _ hf))
  · rcases List.mem_cons.1 hf with rfl | hf
    · exact hcross a ha (spot, e :: later) (List.mem_cons_self ..)
    · exact hcross a ha f (List.mem_cons_of_mem _ hf)

/-- An edge that is explored need not be looked at any more. -/
lemma Sound.drop (h : x.Sound g start) (above : List (Spot × List Edge))
    (hstack : x.stack = above ++ (spot, e :: later) :: below)
    (hexplored : Explored g x.driver? x.seen e)
    (hback : x.looped = false → g.entersLoop e = .ok false →
      Spot.after e ∉ spot :: below.map Prod.fst) :
    Sound g start { x with stack := above ++ (spot, later) :: below } := by
  have hspots : (above ++ (spot, later) :: below).map Prod.fst = x.stack.map Prod.fst := by
    rw [hstack]
    simp
  have hmem : (spot, e :: later) ∈ x.stack := by
    rw [hstack]
    simp
  -- every frame is one of before, or it is the frame that loses the edge
  have hframe : ∀ f ∈ above ++ (spot, later) :: below, f ∈ x.stack ∨ f = (spot, later) := by
    intro f hf
    rw [hstack]
    simp only [List.mem_append, List.mem_cons] at hf ⊢
    tauto
  exact
    { named := h.named
      reaches := h.reaches
      stack_seen := by
        intro f hf
        rcases hframe f hf with hf | rfl
        · exact h.stack_seen f hf
        · exact h.stack_seen (spot, e :: later) hmem
      chained := by
        show ((above ++ (spot, later) :: below).map Prod.fst).IsChain _
        rw [hspots]
        exact h.chained
      pending := by
        intro f hf e' he'
        rcases hframe f hf with hf | rfl
        · exact h.pending f hf e' he'
        · exact h.pending _ hmem e' (List.mem_cons_of_mem e he')
      looked := by
        intro f hf e' hgoes
        rcases hframe f hf with hf | rfl
        · exact h.looked f hf e' hgoes
        · rcases h.looked _ hmem e' hgoes with hpending | hdone
          · rcases List.mem_cons.1 hpending with rfl | hlater
            · exact .inr hexplored
            · exact .inl hlater
          · exact .inr hdone
      avoids := by
        intro hlooped
        obtain ⟨hself, hpairs⟩ := h.avoids hlooped
        rw [hstack] at hself hpairs
        exact avoids_drop hself hpairs (hback hlooped)
      left := by
        show ∀ s ∈ x.seen, s ∉ (above ++ (spot, later) :: below).map Prod.fst → _
        rw [hspots]
        exact h.left
      hits := h.hits
      circles := h.circles }

/-- A hit is noted. -/
lemma Sound.hit {d : NodeId} (h : x.Sound g start) (hd : Hits g start d)
    (hsame : ∀ first, x.driver? = some first → first = d) :
    Sound g start { x with driver? := some d } := by
  have hmono : ∀ e, Explored g x.driver? x.seen e → Explored g (some d) x.seen e := fun e he =>
    he.mono (fun first hfirst => by rw [hsame first hfirst]) fun _ hs => hs
  exact
    { named := h.named
      reaches := h.reaches
      stack_seen := h.stack_seen
      chained := h.chained
      pending := h.pending
      looked := fun f hf e he => (h.looked f hf e he).imp_right (hmono e)
      avoids := h.avoids
      left := by
        intro s hs hgone
        obtain ⟨hexplored, hends⟩ := h.left s hs hgone
        exact ⟨fun e he => hmono e (hexplored e he), hends⟩
      hits := by
        intro d' hd'
        obtain rfl : d = d' := Option.some.inj hd'
        exact hd
      circles := h.circles }

/-- A way back is noted. -/
lemma Sound.loop (h : x.Sound g start) (hcircles : Circles g start) :
    Sound g start { x with looped := true } where
  named := h.named
  reaches := h.reaches
  stack_seen := h.stack_seen
  chained := h.chained
  pending := h.pending
  looked := h.looked
  avoids hlooped := by cases hlooped
  left s hs hgone := by
    refine ⟨(h.left s hs hgone).1, fun hlooped => ?_⟩
    cases hlooped
  hits := h.hits
  circles _ := hcircles

/-- A new spot is explored next. -/
lemma Sound.push (h : x.Sound g start) (hreach : Reaches g start spot)
    (hstep : ∀ f ∈ x.stack.head?, Leads g f.1 spot) (hedges : g.nextEdges .exit spot = .ok edges) :
    Sound g start
      { x with
        stack := (spot, edges) :: x.stack
        seen := spot :: x.seen
        budget := x.budget.spend } := by
  have hgoes : ∀ e, g.GoesOn .exit spot e ↔ e ∈ edges := by
    intro e
    rw [Graph.GoesOn, hedges]
    simp
  have hmono : ∀ e, Explored g x.driver? x.seen e → Explored g x.driver? (spot :: x.seen) e :=
    fun e he => he.mono (fun _ hd => hd) fun s hs => List.mem_cons_of_mem _ hs
  exact
    { named := h.named
      reaches := by
        intro s hs
        rcases List.mem_cons.1 hs with rfl | hs
        · exact hreach
        · exact h.reaches s hs
      stack_seen := by
        intro f hf
        rcases List.mem_cons.1 hf with rfl | hf
        · exact List.mem_cons_self ..
        · exact List.mem_cons_of_mem _ (h.stack_seen f hf)
      chained := by
        show (List.map Prod.fst ((spot, edges) :: x.stack)).IsChain _
        rw [List.map_cons, List.isChain_cons]
        refine ⟨fun s hs => ?_, h.chained⟩
        rw [List.head?_map, Option.mem_def, Option.map_eq_some_iff] at hs
        obtain ⟨f, hf, rfl⟩ := hs
        exact hstep f hf
      pending := by
        intro f hf e he
        rcases List.mem_cons.1 hf with rfl | hf
        · exact (hgoes e).2 he
        · exact h.pending f hf e he
      looked := by
        intro f hf e he
        rcases List.mem_cons.1 hf with rfl | hf
        · exact .inl ((hgoes e).1 he)
        · exact (h.looked f hf e he).imp_right (hmono e)
      avoids := by
        intro hlooped
        obtain ⟨hself, hpairs⟩ := h.avoids hlooped
        -- of the new spot no edge was looked at yet
        have hfresh : ∀ f, Avoids g (spot, edges) f := fun f e he hnot =>
          absurd ((hgoes e).1 he) hnot
        refine ⟨fun f hf => ?_, List.pairwise_cons.2 ⟨fun f _ => hfresh f, hpairs⟩⟩
        rcases List.mem_cons.1 hf with rfl | hf
        · exact hfresh _
        · exact hself f hf
      left := by
        intro s hs hgone
        rw [List.map_cons, List.mem_cons, not_or] at hgone
        have hs' : s ∈ x.seen := (List.mem_cons.1 hs).resolve_left hgone.1
        obtain ⟨hexplored, hends⟩ := h.left s hs' hgone.2
        exact ⟨fun e he => hmono e (hexplored e he), hends⟩
      hits := h.hits
      circles := h.circles }

/-! ## Looking at an edge -/

/-- An edge that is looked at next goes on from a spot that a walk reaches. -/
lemma Sound.reaches_top (h : x.Sound g start) (hstack : x.stack = (spot, e :: later) :: rest) :
    Reaches g start spot ∧ g.GoesOn .exit spot e := by
  have htop : (spot, e :: later) ∈ x.stack := by
    rw [hstack]
    exact List.mem_cons_self ..
  exact ⟨h.reaches spot (h.stack_seen _ htop), h.pending _ htop e (List.mem_cons_self ..)⟩

/-- The spots on a stack lead up to the one on top. -/
lemma reflTransGen_of_mem {top : Spot} {spots : List Spot}
    (hchain : (top :: spots).IsChain fun above below => Leads g below above)
    (hmem : spot ∈ top :: spots) : Relation.ReflTransGen (Leads g) spot top := by
  induction spots generalizing top with
  | nil =>
    obtain rfl : spot = top := by simpa using hmem
    exact .refl
  | cons next spots ih =>
    rw [List.isChain_cons_cons] at hchain
    rcases List.mem_cons.1 hmem with rfl | hmem
    · exact .refl
    · exact (ih hchain.2 hmem).tail hchain.1

lemma eq_of_hit {d first : NodeId} (h : x.hit g d = .ok y) (hfirst : x.driver? = some first) :
    first = d := by
  unfold hit at h
  simp only [hfirst] at h
  split at h
  · assumption
  · -- a second driver is an error
    simp [bind_eq_ok_iff, throw, throwThe, MonadExceptOf.throw] at h

/-- Looking at an edge keeps what holds. -/
theorem Sound.look (h : x.Sound g start) (hstack : x.stack = (spot, e :: later) :: rest)
    (hlook : Exploration.look { x with stack := (spot, later) :: rest } g e = .ok y) :
    y.Sound g start ∧ ∀ s ∈ x.seen, s ∈ y.seen := by
  obtain ⟨hreach, hgoes⟩ := h.reaches_top hstack
  unfold Exploration.look at hlook
  obtain ⟨enters, henters, hlook⟩ := bind_eq_ok_iff.1 hlook
  cases enters with
  | true =>
    rw [if_pos rfl] at hlook
    rw [hit_eq_ok hlook]
    have hhit := h.hit ⟨spot, e, hreach, hgoes, henters, rfl⟩ fun _ hd => eq_of_hit hlook hd
    have hexplored : Explored g (some e.target) x.seen e :=
      ⟨fun _ => rfl, fun hnot => by simp [henters] at hnot⟩
    refine ⟨hhit.drop [] hstack hexplored fun _ hnot => ?_, fun s hs => hs⟩
    simp [henters] at hnot
  | false =>
    rw [if_neg Bool.false_ne_true] at hlook
    have hleads : Leads g spot (.after e) := ⟨e, hgoes, henters, rfl⟩
    have hexplored : ∀ seen, Spot.after e ∈ seen → Explored g x.driver? seen e := fun seen hseen =>
      ⟨fun hnot => by simp [henters] at hnot, fun _ => hseen⟩
    split at hlook
    · -- back on the stack there is a circle
      rename_i hback
      obtain rfl := Except.ok.inj hlook
      have hspots : Spot.after e ∈ spot :: rest.map Prod.fst := hback
      have hchained := h.chained
      rw [hstack, List.map_cons] at hchained
      have hcircles : Circles g start :=
        ⟨.after e, hreach.tail hleads, .tail' (reflTransGen_of_mem hchained hspots) hleads⟩
      have hseen : Spot.after e ∈ x.seen := by
        rw [← List.map_cons (f := Prod.fst) (a := (spot, e :: later)), ← hstack] at hspots
        obtain ⟨f, hf, heq⟩ := List.mem_map.1 hspots
        rw [← heq]
        exact h.stack_seen f hf
      refine ⟨(h.loop hcircles).drop [] hstack (hexplored _ hseen) ?_, fun s hs => hs⟩
      intro hlooped
      cases hlooped
    · rename_i hback
      split at hlook
      · rename_i hseen
        obtain rfl := Except.ok.inj hlook
        exact ⟨h.drop [] hstack (hexplored _ hseen) fun _ _ => hback, fun s hs => hs⟩
      · rw [enter] at hlook
        obtain ⟨-, -, hlook⟩ := bind_eq_ok_iff.1 hlook
        obtain ⟨edges, hedges, hlook⟩ := bind_eq_ok_iff.1 hlook
        obtain rfl := Except.ok.inj hlook
        have hpush := h.push (hreach.tail hleads) (fun f hf => by
          rw [hstack] at hf
          obtain rfl := Option.some.inj hf
          exact hleads) hedges
        refine ⟨hpush.drop [(.after e, edges)] (by rw [hstack]; rfl)
          (hexplored _ (List.mem_cons_self ..)) fun _ _ => hback, fun s hs => ?_⟩
        exact List.mem_cons_of_mem _ hs

/-! ## What stops an exploration -/

lemma Hits.exists_exeIdAt (hg : g.WellFormed) {d : NodeId} (h : Hits g start d) :
    ∃ exeId, g.exeIdAt d = .ok exeId := by
  obtain ⟨spot, e, -, hgoes, -, rfl⟩ := h
  obtain ⟨node, hnode, -⟩ := hg.exists_target (hg.goesOn_mem_edges hgoes).1
  exact ⟨node.exeId, hg.exeIdAt_of_nodeAt hnode⟩

lemma stops_of_spend {budget : Budget} {err : Error}
    (h : budget.spend.checkSteps = .error err) : Stops g start budget.start err := by
  unfold Budget.checkSteps at h
  split at h
  · obtain rfl := Except.error.inj h
    exact .steps budget.limits.maxSteps
  · cases h

/-- A hit fails only where another driver was hit. -/
lemma stops_of_hit (hg : g.WellFormed) {d : NodeId} {err : Error}
    (hits : ∀ first, x.driver? = some first → Hits g start first) (hd : Hits g start d)
    (herr : x.hit g d = .error err) : Stops g start x.budget.start err := by
  unfold Exploration.hit at herr
  split at herr
  · cases herr
  · rename_i first hfirst
    split at herr
    · cases herr
    · rename_i hne
      obtain ⟨firstId, hfirstId⟩ := (hits first hfirst).exists_exeIdAt hg
      obtain ⟨secondId, hsecondId⟩ := hd.exists_exeIdAt hg
      rw [hfirstId, hsecondId] at herr
      obtain rfl := Except.error.inj herr
      exact .conflict (hits first hfirst) hd hne hfirstId hsecondId

/-- Looking at an edge fails only where the exploration stops. -/
theorem Sound.stops_of_look (h : x.Sound g start) (hg : g.WellFormed)
    (hstack : x.stack = (spot, e :: later) :: rest) {err : Error}
    (herr : Exploration.look { x with stack := (spot, later) :: rest } g e = .error err) :
    Stops g start x.budget.start err := by
  obtain ⟨hreach, hgoes⟩ := h.reaches_top hstack
  have hthere : e ∈ g.edges.toList := (hg.goesOn_mem_edges hgoes).1
  obtain ⟨enters, henters⟩ := hg.exists_entersLoop hthere
  unfold Exploration.look at herr
  rw [henters] at herr
  cases enters with
  | true =>
    exact stops_of_hit (x := { x with stack := (spot, later) :: rest }) hg h.hits
      ⟨spot, e, hreach, hgoes, henters, rfl⟩ herr
  | false =>
    simp only [bind, Except.bind, Bool.false_eq_true, if_false] at herr
    split at herr
    · cases herr
    · split at herr
      · cases herr
      · rw [enter] at herr
        rcases bind_eq_error_iff.1 herr with hsteps | ⟨_, -, herr⟩
        · exact stops_of_spend hsteps
        · -- a spot that an edge leads to has edges that go on
          rw [hg.nextEdges_after .exit hthere] at herr
          cases herr

/-! ## Runs -/

/-- A step leaves the spot on top, or it looks at an edge of it. -/
theorem step_cases (h : Exploration.step g x = .ok (some y)) :
    (∃ spot rest, x.stack = (spot, []) :: rest ∧ y = { x with stack := rest }) ∨
    ∃ spot e later rest, x.stack = (spot, e :: later) :: rest ∧
      Exploration.look { x with stack := (spot, later) :: rest } g e = .ok y := by
  unfold Exploration.step at h
  split at h
  · cases h
  · rename_i spot rest hstack
    exact .inl ⟨spot, rest, hstack, (Option.some.inj (Except.ok.inj h)).symm⟩
  · rename_i spot e later rest hstack
    obtain ⟨z, hlook, hz⟩ := map_eq_ok_iff.1 h
    obtain rfl := Option.some.inj hz
    exact .inr ⟨spot, e, later, rest, hstack, hlook⟩

/-- A step fails where it cannot look at an edge. -/
theorem step_error_cases {err : Error} (h : Exploration.step g x = .error err) :
    ∃ spot e later rest, x.stack = (spot, e :: later) :: rest ∧
      Exploration.look { x with stack := (spot, later) :: rest } g e = .error err := by
  unfold Exploration.step at h
  split at h
  · cases h
  · cases h
  · rename_i spot e later rest hstack
    exact ⟨spot, e, later, rest, hstack, map_eq_error_iff.1 h⟩

lemma stack_of_step (h : Exploration.step g x = .ok none) : x.stack = [] := by
  unfold Exploration.step at h
  split at h
  · assumption
  · cases h
  · obtain ⟨y, -, hy⟩ := map_eq_ok_iff.1 h
    cases hy

/-- One step keeps what holds, and what was seen stays seen. -/
theorem Sound.step (h : x.Sound g start) (hstep : Exploration.step g x = .ok (some y)) :
    y.Sound g start ∧ ∀ s ∈ x.seen, s ∈ y.seen := by
  rcases step_cases hstep with ⟨spot, rest, hstack, rfl⟩ | ⟨spot, e, later, rest, hstack, hlook⟩
  · exact ⟨h.pop hstack, fun s hs => hs⟩
  · exact h.look hstack hlook

lemma Sound.stops_of_step (h : x.Sound g start) (hg : g.WellFormed) {err : Error}
    (herr : Exploration.step g x = .error err) : Stops g start x.budget.start err := by
  obtain ⟨spot, e, later, rest, hstack, hlook⟩ := step_error_cases herr
  exact h.stops_of_look hg hstack hlook

/-- How an exploration ends: what holds in all of its states holds in the last one, in which nothing
is left on the stack unless the exploration was stopped. -/
theorem Sound.run (h : x.Sound g start) (hg : g.WellFormed) :
    (iterate (Exploration.step g) x).last.Sound g start ∧
      (∀ s ∈ x.seen, s ∈ (iterate (Exploration.step g) x).last.seen) ∧
      ((iterate (Exploration.step g) x).result = .ok () →
        (iterate (Exploration.step g) x).last.stack = []) ∧
      ∀ err, (iterate (Exploration.step g) x).result = .error err →
        Stops g start x.budget.start err := by
  obtain ⟨hlast, hseen⟩ := iterate_keeps (Exploration.step g)
    (P := fun y => y.Sound g start ∧ ∀ s ∈ x.seen, s ∈ y.seen)
    (fun y z hy hstep => ⟨(hy.1.step hstep).1, fun s hs => (hy.1.step hstep).2 s (hy.2 s hs)⟩)
    ⟨h, fun s hs => hs⟩
  refine ⟨hlast, hseen, fun hok => stack_of_step (step_last_of_ok hok), fun err herr => ?_⟩
  have hname := Except.ok.inj (hlast.named.symm.trans h.named)
  rw [← hname]
  exact hlast.stops_of_step hg (step_last_of_error herr)

end WorkflowLoops.Exploration

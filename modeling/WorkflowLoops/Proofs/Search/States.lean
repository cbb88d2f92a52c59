import WorkflowLoops.Proofs.Search.Trails

/-!
# What holds in every state of a search

A search with backtracking has one walk at a time: its path has the hops of that walk, its memory
holds the keys of the walk, and its stack has a frame for every edge of it, with edges that may be
taken next. `Tracks` says so, and every step of a guided search keeps it (`OnTrack.step`).

The main statement is that nothing stops a guided search but a limit that some trail from its start
exceeds (`Survey.stops_of_error`).

Walks come with the latest edge first here, as paths and stacks do.
-/

namespace WorkflowLoops

namespace Search

/-- What a search remembers of a walk. -/
def visits (G : Guide) (σ : Strategy) (w : List Edge) : List Visit := w.map G.key ++ σ.rootVisits

/-- The edges by which a search may go on at the end of a walk; without a walk, those it starts with. -/
def options (G : Guide) (σ : Strategy) (first : List Edge) : List Edge → List Edge
  | [] => first
  | e :: w => G.ahead (visits G σ (e :: w)) e

/-- The frames of a search along a walk. -/
inductive Framed (G : Guide) (σ : Strategy) (first : List Edge) : List Frame → List Edge → Prop
  /-- The search stands at its start. -/
  | root {pending : List Edge} (hpending : pending ⊆ first) : Framed G σ first [⟨σ.root, pending⟩] []
  /-- The search has entered a node by an edge that may be taken from the frame below. -/
  | enter {stack : List Frame} {w pending : List Edge} {e : Edge} (below : Framed G σ first stack w)
      (taken : e ∈ options G σ first w) (passes : G.ends e = false) (fresh : G.key e ∉ visits G σ w)
      (hpending : pending ⊆ options G σ first (e :: w)) :
      Framed G σ first (⟨G.key e, pending⟩ :: stack) (e :: w)

/-- A search is on its way along a walk. -/
structure Tracks (G : Guide) (σ : Strategy) (first : List Edge) (s : Search) (w : List Edge) :
    Prop where
  path : s.path.latestFirst = w.map Edge.hop
  onPath : s.onPath = visits G σ w
  frames : Framed G σ first s.stack w
  /-- Since a path was ended, there were no other steps than along the walk. -/
  paced : s.budget.sinceEnd ≤ w.length
  /-- A node is not left before a path was ended. -/
  idle : ∀ f ∈ s.stack.head?, f.pending = [] → s.budget.sinceEnd = 0

/-- A search has come back from all of its walks, and a path was ended after the last step. -/
structure IsBack (s : Search) : Prop where
  path : s.path = {}
  onPath : s.onPath = []
  idle : s.budget.sinceEnd = 0

/-- A search is on its way along some walk, or it is done. -/
def OnTrack (G : Guide) (σ : Strategy) (first : List Edge) (s : Search) : Prop :=
  (s.stack = [] ∧ s.IsBack) ∨ ∃ w, Tracks G σ first s w

variable {G : Guide} {σ : Strategy} {first edges later w : List Edge} {stack rest : List Frame}
  {s t : Search} {e : Edge} {visit : Visit}

/-! ## Frames -/

lemma Framed.pending_subset {pending : List Edge}
    (h : Framed G σ first (⟨visit, pending⟩ :: rest) w) : pending ⊆ options G σ first w := by
  cases h with
  | root hpending => exact hpending
  | enter _ _ _ _ hpending => exact hpending

/-- A frame stays one of the walk when fewer edges are still to be taken from it. -/
lemma Framed.drop (h : Framed G σ first (⟨visit, e :: later⟩ :: rest) w) :
    Framed G σ first (⟨visit, later⟩ :: rest) w := by
  cases h with
  | root hpending => exact .root (List.subset_of_cons_subset hpending)
  | enter below taken passes fresh hpending =>
    exact .enter below taken passes fresh (List.subset_of_cons_subset hpending)

lemma Framed.stack_ne_nil (h : Framed G σ first stack w) : stack ≠ [] := by
  cases h <;> exact List.cons_ne_nil _ _

lemma rootVisits_nodup (σ : Strategy) : σ.rootVisits.Nodup := by
  unfold Strategy.rootVisits
  split <;> simp

/-- No key is remembered twice. -/
lemma Framed.nodup_visits (h : Framed G σ first stack w) : (visits G σ w).Nodup := by
  induction h with
  | root => exact rootVisits_nodup σ
  | enter _ _ _ fresh _ ih => exact List.nodup_cons.2 ⟨fresh, ih⟩

lemma Framed.passes (h : Framed G σ first stack w) : ∀ d ∈ w, G.ends d = false := by
  induction h with
  | root => simp
  | enter _ _ passes _ _ ih => exact List.forall_mem_cons.2 ⟨passes, ih⟩

/-- Each edge is one that goes on after the edge before it. -/
lemma Framed.isChain (h : Framed G σ first stack w) (he : e ∈ options G σ first w) :
    (e :: w).IsChain fun f d => f ∈ G.next d := by
  induction h generalizing e with
  | root => exact .singleton e
  | enter _ taken _ _ _ ih =>
    have hnext := (Guide.mem_ahead.1 he).1
    exact List.isChain_cons_cons.2 ⟨hnext, ih taken⟩

/-- Edges that may be taken are edges of the graph. -/
lemma Framed.options_subset (hnext : ∀ e ∈ edges, ∀ f ∈ G.next e, f ∈ edges) (hfirst : first ⊆ edges)
    (h : Framed G σ first stack w) : options G σ first w ⊆ edges := by
  induction h with
  | root => exact hfirst
  | enter _ taken _ _ _ ih => exact fun f hf => hnext _ (ih taken) f (Guide.mem_ahead.1 hf).1

/-- The walk begins with one of the first edges. -/
lemma Framed.getLast?_mem (h : Framed G σ first stack w) (he : e ∈ options G σ first w) :
    ∃ f ∈ first, (e :: w).getLast? = some f := by
  induction h generalizing e with
  | root => exact ⟨e, he, rfl⟩
  | enter _ taken _ _ _ ih =>
    rw [List.getLast?_cons_cons]
    exact ih taken

/-- A walk and an edge that may be taken at its end are a trail. -/
theorem Framed.isTrail (h : Framed G σ first stack w) (he : e ∈ options G σ first w) :
    G.IsTrail σ.rootVisits (e :: w).reverse where
  goesOn := by
    rw [List.isChain_reverse]
    exact h.isChain he
  passes := by
    intro d hd
    rw [List.reverse_cons, List.dropLast_concat, List.mem_reverse] at hd
    exact h.passes d hd
  simple := by
    cases h with
    | root => exact .inl rfl
    | @enter stack w pending d below taken passes fresh hpending =>
      -- the edge is ahead of another one, so its key is new
      have hfresh := (Guide.mem_ahead.1 he).2
      have hnodup : (visits G σ (e :: d :: w)).Nodup :=
        List.nodup_cons.2 ⟨hfresh, (Framed.enter below taken passes fresh hpending).nodup_visits⟩
      rw [visits, List.nodup_append'] at hnodup
      obtain ⟨hkeys, -, hroot⟩ := hnodup
      refine .inr ⟨?_, fun x hx hback => ?_⟩
      · rw [List.map_reverse, List.nodup_reverse]
        exact hkeys
      · exact hroot (List.mem_map_of_mem (List.mem_reverse.1 hx)) hback

/-! ## Steps -/

/-- A search that starts over is at its start. -/
lemma IsBack.restart (h : s.IsBack) : OnTrack G σ first (s.restart σ first) := by
  refine .inr ⟨[], ?_, ?_, .root (List.Subset.refl first), ?_, fun _ _ _ => h.idle⟩
  · simp [Search.restart, h.path]
  · simp [Search.restart, h.onPath, visits, Strategy.rootVisits]
  · exact Nat.le_of_eq h.idle

/-- Leaving a node leads back along the walk. -/
lemma Tracks.leave (h : Tracks G σ first s w) (hstack : s.stack = ⟨visit, []⟩ :: rest) :
    OnTrack G σ first (s.leave visit rest) := by
  have hidle : s.budget.sinceEnd = 0 := h.idle ⟨visit, []⟩ (by rw [hstack]; rfl) rfl
  have hframes := h.frames
  rw [hstack] at hframes
  cases hframes with
  | root =>
    have hpath : s.path.latestFirst = [] := h.path
    have honPath : s.onPath = σ.rootVisits := h.onPath
    refine .inl ⟨rfl, congrArg Path.mk hpath, ?_, hidle⟩
    rw [Search.leave, honPath, Strategy.rootVisits]
    split <;> simp
  | @enter _ w _ e below taken passes fresh hpending =>
    have hne : rest.isEmpty = false := by cases below <;> rfl
    have honPath : s.onPath = G.key e :: visits G σ w := h.onPath
    refine .inr ⟨w, ?_, ?_, below, ?_, fun _ _ _ => hidle⟩
    · simp [Search.leave, hne, Path.pop, h.path]
    · simp [Search.leave, honPath]
    · have hleft : (s.leave (G.key e) rest).budget.sinceEnd = 0 := hidle
      omega

/-- Taking an edge leads on along the walk, or it ends a path and leaves the walk as it is. -/
lemma Tracks.proceed (hσ : σ.KeepsTo G edges) (hfirst : first ⊆ edges) (h : Tracks G σ first s w)
    (hstack : s.stack = ⟨visit, e :: later⟩ :: rest) {path : Path}
    (hpush : s.path.push? e.hop = some path) {move : Move} (hmove : σ.move s.onPath e = .ok move) :
    OnTrack G σ first (s.proceed visit later rest path move) := by
  have hframes := h.frames
  rw [hstack] at hframes
  have htaken : e ∈ options G σ first w := hframes.pending_subset (List.mem_cons_self ..)
  have hthere : e ∈ edges := hframes.options_subset hσ.next_subset hfirst htaken
  have hguided : G.move s.onPath e = move :=
    Except.ok.inj ((hσ.move_eq e hthere s.onPath).symm.trans hmove)
  cases move with
  | finish keep =>
    refine .inr ⟨w, ?_, h.onPath, hframes.drop, Nat.zero_le _, fun _ _ _ => rfl⟩
    simp only [Search.proceed, Path.pop_of_push? hpush]
    exact h.path
  | enter entered next =>
    have hgo : ¬ (G.ends e = true ∨ G.key e ∈ s.onPath ∨ G.ahead (G.key e :: s.onPath) e = []) :=
      fun hstop => by
        rw [Guide.move, if_pos hstop] at hguided
        cases hguided
    rw [not_or, not_or, Bool.not_eq_true] at hgo
    obtain ⟨hpasses, hfresh, hahead⟩ := hgo
    obtain ⟨rfl, rfl⟩ := Guide.enter_of_move hguided
    obtain ⟨-, rfl⟩ := Path.push?_eq_some_iff.1 hpush
    have honPath : G.key e :: s.onPath = visits G σ (e :: w) := by rw [h.onPath]; rfl
    refine .inr ⟨e :: w, congrArg (e.hop :: ·) h.path, honPath, ?_, ?_, ?_⟩
    · refine .enter hframes.drop htaken hpasses (h.onPath ▸ hfresh) ?_
      rw [honPath]
      exact List.Subset.refl _
    · exact Nat.succ_le_succ h.paced
    · -- a node is entered only where edges go on from it
      intro f hf hnone
      obtain rfl := Option.some.inj hf
      exact absurd hnone hahead

/-- Every step of a guided search keeps it on track. -/
theorem OnTrack.step (hσ : σ.KeepsTo G edges) (hfirst : first ⊆ edges) (h : OnTrack G σ first s)
    (hstep : s.step σ = .ok (some t)) : OnTrack G σ first t := by
  rcases h with ⟨hdone, -⟩ | ⟨w, htracks⟩
  · rw [step_eq_none_iff.2 hdone] at hstep
    cases hstep
  · rcases step_cases hstep with ⟨visit, rest, hstack, rfl⟩ |
      ⟨visit, e, later, rest, hstack, -, path, hpush, -, move, hmove, rfl⟩
    · exact htracks.leave hstack
    · exact htracks.proceed hσ hfirst hstack hpush hmove

/-- A step changes neither the limits nor the start that the budget names. -/
lemma budget_of_step (h : s.step σ = .ok (some t)) :
    t.budget.limits = s.budget.limits ∧ t.budget.start = s.budget.start := by
  rcases step_cases h with ⟨visit, rest, -, rfl⟩ | ⟨visit, e, later, rest, -, -, path, -, -, move, -, rfl⟩
  · exact ⟨rfl, rfl⟩
  · cases move <;> exact ⟨rfl, rfl⟩

/-! ## What stops a search -/

/-- What can stop a guided search: a trail from its start with more hops than there may be steps, or
than a path may have. -/
inductive Stops (G : Guide) (σ : Strategy) (first : List Edge) (name : String) (limits : Limits) :
    Error → Prop
  | steps {v : List Edge} (hhead : ∃ f ∈ first, v.head? = some f) (htrail : G.IsTrail σ.rootVisits v)
      (hmore : limits.maxSteps < v.length) :
      Stops G σ first name limits (.malformed (.stepLimitExceeded name limits.maxSteps))
  | length {v : List Edge} (hhead : ∃ f ∈ first, v.head? = some f) (htrail : G.IsTrail σ.rootVisits v)
      (hmore : limits.maxPathLength < v.length) :
      Stops G σ first name limits (.malformed (.pathTooLong name limits.maxPathLength))

/-- A step fails where it takes an edge: the steps are used up, the hop does not continue the path, the
path gets too long, or the strategy fails. -/
theorem step_error_cases {err : Error} (h : s.step σ = .error err) :
    ∃ visit e later rest, s.stack = ⟨visit, e :: later⟩ :: rest ∧
      (s.budget.spend.checkSteps = .error err ∨ s.path.push? e.hop = none ∨
        (∃ path, s.path.push? e.hop = some path ∧ s.budget.checkLength path.length = .error err) ∨
        σ.move s.onPath e = .error err) := by
  unfold step at h
  split at h
  · cases h
  · cases h
  · rename_i visit e later rest hstack
    refine ⟨visit, e, later, rest, hstack, ?_⟩
    cases htake : s.take σ visit e later rest with
    | ok u => simp [htake, Except.map] at h
    | error err' =>
      obtain rfl : err' = err := by simpa [htake, Except.map] using h
      unfold take at htake
      rcases bind_eq_error_iff.1 htake with hsteps | ⟨_, -, htake⟩
      · exact .inl hsteps
      rcases bind_eq_error_iff.1 htake with hfault | ⟨path, hpush, htake⟩
      · cases hpush : s.path.push? e.hop with
        | none => exact .inr (.inl rfl)
        | some path => simp [hpush] at hfault
      have hpushed := orFault_eq_ok_iff.1 hpush
      rcases bind_eq_error_iff.1 htake with hlength | ⟨_, -, htake⟩
      · exact .inr (.inr (.inl ⟨path, hpushed, hlength⟩))
      rcases bind_eq_error_iff.1 htake with hmove | ⟨move, -, hpure⟩
      · exact .inr (.inr (.inr hmove))
      · cases hpure

/-- The hop along an edge that may be taken continues the path. -/
lemma Tracks.exists_push? (hjoin : ∀ e f, f ∈ G.next e → f.source = e.target)
    (h : Tracks G σ first s w) (he : e ∈ options G σ first w) :
    ∃ path, s.path.push? e.hop = some path := by
  refine ⟨⟨e.hop :: s.path.latestFirst⟩, Path.push?_eq_some_iff.2 ⟨fun node hnode => ?_, rfl⟩⟩
  rw [Path.terminus?, Path.last?, h.path] at hnode
  cases w with
  | nil => simp at hnode
  | cons d w =>
    obtain rfl : d.target = node := by simpa [Edge.hop] using hnode
    exact (hjoin d e (Guide.mem_ahead.1 he).1).symm

/-- A step of a guided search fails only where a trail exceeds a limit. -/
theorem OnTrack.stops_of_step (hσ : σ.KeepsTo G edges) (hfirst : first ⊆ edges)
    (hjoin : ∀ e f, f ∈ G.next e → f.source = e.target) (h : OnTrack G σ first s) {err : Error}
    (hstep : s.step σ = .error err) : Stops G σ first s.budget.start s.budget.limits err := by
  obtain ⟨visit, e, later, rest, hstack, hcause⟩ := step_error_cases hstep
  rcases h with ⟨hdone, -⟩ | ⟨w, htracks⟩
  · rw [hdone] at hstack
    cases hstack
  have hframes := htracks.frames
  rw [hstack] at hframes
  have htaken : e ∈ options G σ first w := hframes.pending_subset (List.mem_cons_self ..)
  have hthere : e ∈ edges := hframes.options_subset hσ.next_subset hfirst htaken
  have hhead : ∃ f ∈ first, (e :: w).reverse.head? = some f := by
    rw [List.head?_reverse]
    exact hframes.getLast?_mem htaken
  have htrail := hframes.isTrail htaken
  have hlength : (e :: w).reverse.length = w.length + 1 := by simp
  obtain ⟨pushed, hpushed⟩ := htracks.exists_push? hjoin htaken
  rcases hcause with hsteps | hnone | ⟨path, hpush, htoolong⟩ | hmove
  · unfold Budget.checkSteps at hsteps
    split at hsteps
    · rename_i hmore
      obtain rfl := Except.error.inj hsteps
      refine .steps hhead htrail ?_
      have hpaced := htracks.paced
      simp only [Budget.spend] at hmore
      omega
    · cases hsteps
  · rw [hpushed] at hnone
    cases hnone
  · unfold Budget.checkLength at htoolong
    split at htoolong
    · rename_i hmore
      obtain rfl := Except.error.inj htoolong
      refine .length hhead htrail ?_
      have hpath : path.length = w.length + 1 := by
        rw [Path.length_of_push? hpush, Path.length, htracks.path, List.length_map]
      omega
    · cases htoolong
  · -- along the edges of the graph the strategy does not fail
    rw [hσ.move_eq e hthere] at hmove
    cases hmove

/-! ## Runs -/

/-- A search keeps its limits and the start that its budget names. -/
lemma budget_run (σ : Strategy) (s : Search) :
    (iterate (Search.step σ) s).last.budget.limits = s.budget.limits ∧
      (iterate (Search.step σ) s).last.budget.start = s.budget.start :=
  iterate_keeps (Search.step σ)
    (P := fun t => t.budget.limits = s.budget.limits ∧ t.budget.start = s.budget.start)
    (fun _ _ ht hstep =>
      ⟨(budget_of_step hstep).1.trans ht.1, (budget_of_step hstep).2.trans ht.2⟩) ⟨rfl, rfl⟩

/-- How a guided search ends: it is back from all of its walks, or it is stopped. -/
theorem OnTrack.run (hσ : σ.KeepsTo G edges) (hfirst : first ⊆ edges)
    (hjoin : ∀ e f, f ∈ G.next e → f.source = e.target) (h : OnTrack G σ first s) :
    ((iterate (Search.step σ) s).result = .ok () → (iterate (Search.step σ) s).last.IsBack) ∧
      ∀ err, (iterate (Search.step σ) s).result = .error err →
        Stops G σ first s.budget.start s.budget.limits err := by
  have hlast : OnTrack G σ first (iterate (Search.step σ) s).last :=
    iterate_keeps (Search.step σ) (fun _ _ ht hstep => ht.step hσ hfirst hstep) h
  refine ⟨fun hok => ?_, fun err herr => ?_⟩
  · rcases hlast with ⟨-, hback⟩ | ⟨w, htracks⟩
    · exact hback
    · exact absurd (stack_eq_nil_of_run hok) htracks.frames.stack_ne_nil
  · obtain ⟨hlimits, hstart⟩ := budget_run σ s
    rw [← hstart, ← hlimits]
    exact hlast.stops_of_step hσ hfirst hjoin (step_last_of_error herr)

end Search

namespace Survey

open Search

variable {G : Guide} {σ : Strategy} {edges : List Edge} {openings : List (String × List Edge)}
  {budget : Budget}

/-- A survey keeps its limits and the start that its budget names. -/
lemma budget_run (σ : Strategy) (budget : Budget) (openings : List (String × List Edge)) :
    (run σ budget openings).search.budget.limits = budget.limits ∧
      (run σ budget openings).search.budget.start = budget.start := by
  induction openings using List.reverseRecOn with
  | nil => exact ⟨rfl, rfl⟩
  | append_singleton before opening ih =>
    rw [run_concat]
    cases hbefore : (run σ budget before).result with
    | error err =>
      rw [advance_of_error hbefore]
      exact ih
    | ok _ =>
      rw [advance_of_ok hbefore]
      obtain ⟨hlimits, hstart⟩ :=
        Search.budget_run σ ((run σ budget before).search.restart σ opening.2)
      exact ⟨hlimits.trans ih.1, hstart.trans ih.2⟩

/-- A survey that was not stopped is back from all of its walks. -/
lemma isBack_of_run (hσ : σ.KeepsTo G edges) (hjoin : ∀ e f, f ∈ G.next e → f.source = e.target)
    (hthere : ∀ opening ∈ openings, opening.2 ⊆ edges) (hfresh : budget.sinceEnd = 0)
    (h : (run σ budget openings).result = .ok ()) : (run σ budget openings).search.IsBack := by
  induction openings using List.reverseRecOn with
  | nil => exact ⟨rfl, rfl, hfresh⟩
  | append_singleton before opening ih =>
    rw [List.forall_mem_append, List.forall_mem_singleton] at hthere
    rw [run_concat] at h ⊢
    cases hbefore : (run σ budget before).result with
    | error err =>
      rw [advance_of_error hbefore, hbefore] at h
      cases h
    | ok _ =>
      have htrack : OnTrack G σ opening.2 ((run σ budget before).search.restart σ opening.2) :=
        (ih hthere.1 hbefore).restart
      rw [advance_of_ok hbefore] at h ⊢
      exact (htrack.run hσ hthere.2 hjoin).1 h

/-- Nothing stops a survey but a limit that a trail from one of its openings exceeds. -/
theorem stops_of_error (hσ : σ.KeepsTo G edges)
    (hjoin : ∀ e f, f ∈ G.next e → f.source = e.target)
    (hthere : ∀ opening ∈ openings, opening.2 ⊆ edges) (hfresh : budget.sinceEnd = 0) {err : Error}
    (h : (run σ budget openings).result = .error err) :
    ∃ opening ∈ openings, Stops G σ opening.2 budget.start budget.limits err := by
  induction openings using List.reverseRecOn with
  | nil => cases h
  | append_singleton before opening ih =>
    rw [List.forall_mem_append, List.forall_mem_singleton] at hthere
    rw [run_concat] at h
    cases hbefore : (run σ budget before).result with
    | error err' =>
      -- the survey was stopped before
      rw [advance_of_error hbefore] at h
      obtain ⟨earlier, hmem, hstops⟩ := ih hthere.1 h
      exact ⟨earlier, List.mem_append_left _ hmem, hstops⟩
    | ok _ =>
      have htrack : OnTrack G σ opening.2 ((run σ budget before).search.restart σ opening.2) :=
        (isBack_of_run hσ hjoin hthere.1 hfresh hbefore).restart
      obtain ⟨hlimits, hstart⟩ := budget_run σ budget before
      rw [advance_of_ok hbefore] at h
      refine ⟨opening, List.mem_append_right _ (List.mem_singleton_self _), ?_⟩
      rw [← hlimits, ← hstart]
      exact (htrack.run hσ hthere.2 hjoin).2 err h

end Survey

end WorkflowLoops

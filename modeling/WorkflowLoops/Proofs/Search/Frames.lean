import WorkflowLoops.Proofs.Search.Pace

/-!
# Stack, path and memory belong together

A search with backtracking changes its stack, its path and its memory in different places: where it
enters a node, where a path ends, and where it leaves a node again. In all of its states the three say
the same (`Search.Aligned`): a hop lies between each two frames, and the nodes of the frames are what is
remembered, each of them once.

The searches keep to walks (`Search.OnTrack`), which frame the stack, so this is read off the frames of a
walk. The budget plays no part in it: whatever has been spent, a search goes through the same states as
one that starts with nothing spent (`Search.Eases`).
-/

namespace WorkflowLoops

/-- The frames whose visits a search remembers: all of them, or all but that of the start if it may be
come back to. -/
def Strategy.remembered (σ : Strategy) (stack : List Frame) : List Frame :=
  if σ.marksRoot then stack else stack.dropLast

namespace Search

/-- The stack, the path and the memory of a search belong together. Frames are counted from the start,
which is the last one on the stack. -/
structure Aligned (σ : Strategy) (visitOf : Edge → Except Error Visit) (s : Search) : Prop where
  /-- The search began at the start. -/
  root : s.stack.getLast?.map Frame.visit = some σ.root
  /-- Every other node was entered by an edge with the visit of its frame. -/
  entered : ∀ frame ∈ s.stack.dropLast, ∃ e, visitOf e = .ok frame.visit
  /-- There is a hop between each two frames. -/
  length : s.stack.length = s.path.length + 1
  /-- It leads from the node of the lower frame to the node of the upper one. -/
  hops : ∀ i hop, s.path.hops[i]? = some hop →
    ∃ lower upper, s.stack.reverse[i]? = some lower ∧ s.stack.reverse[i + 1]? = some upper ∧
      hop.source = lower.visit.node ∧ hop.target = upper.visit.node
  /-- What is remembered are the visits of the frames. -/
  onPath : s.onPath = (σ.remembered s.stack).map Frame.visit
  /-- No visit occurs in two frames. -/
  nodup : (s.stack.map Frame.visit).Nodup
  /-- An edge that is still to be taken leaves the node of its frame, and above the start it leads to a
  visit that is remembered neither from this frame nor from one below. -/
  pending : ∀ above frame below, s.stack = above ++ frame :: below → ∀ e ∈ frame.pending,
    e.source = frame.visit.node ∧
      ∃ visit, visitOf e = .ok visit ∧
        (below ≠ [] → visit ∉ (σ.remembered (frame :: below)).map Frame.visit)

/-- Whether a search has an empty path and remembers nothing, whatever it has spent. -/
structure IsClean (s : Search) : Prop where
  path : s.path = {}
  onPath : s.onPath = []

variable {G : Guide} {σ : Strategy} {visitOf : Edge → Except Error Visit} {first edges w : List Edge}
  {stack above below : List Frame} {frame : Frame} {s s' t : Search} {e : Edge} {visit : Visit}

/-! ## Frames of walks -/

/-- What the keys of a guide have to do with the nodes of a graph: they stand for the nodes that edges
enter, the next edges leave these, and the start is not entered if it may be come back to. -/
structure Stands (G : Guide) (σ : Strategy) (first : List Edge) : Prop where
  node : ∀ e, (G.key e).node = e.target
  next : ∀ e f, f ∈ G.next e → f.source = e.target
  first : ∀ e ∈ first, e.source = σ.root.node
  away : σ.marksRoot = false → ∀ e, G.ends e = false → G.key e ≠ σ.root

lemma Framed.map_visit (h : Framed G σ first stack w) :
    stack.map Frame.visit = w.map G.key ++ [σ.root] := by
  induction h with
  | root => rfl
  | enter _ _ _ _ _ ih => rw [List.map_cons, ih, List.map_cons, List.cons_append]

/-- What a search remembers of a walk are the visits of the frames. -/
lemma Framed.visits_eq (h : Framed G σ first stack w) :
    visits G σ w = (σ.remembered stack).map Frame.visit := by
  unfold visits Strategy.rootVisits Strategy.remembered
  split
  · exact h.map_visit.symm
  · rw [List.map_dropLast, h.map_visit, List.dropLast_concat, List.append_nil]

/-- The node that an edge leaves is on top where it may be taken. -/
lemma Framed.map_node (hG : Stands G σ first) (h : Framed G σ first stack w)
    (he : e ∈ options G σ first w) :
    stack.map (·.visit.node) = e.source :: w.map (·.source) := by
  induction h generalizing e with
  | root => exact congrArg ([·]) (hG.first e he).symm
  | @enter stack w pending d below taken passes fresh hpending ih =>
    have hjoin : e.source = d.target := hG.next d e (Guide.mem_ahead.1 he).1
    rw [List.map_cons, ih taken, hG.node, hjoin, List.map_cons]

/-- The edges of a walk leave the nodes of the frames below. -/
lemma Framed.map_source (hG : Stands G σ first) (h : Framed G σ first stack w) :
    w.map (·.source) = stack.tail.map (·.visit.node) := by
  cases h with
  | root => rfl
  | enter below taken _ _ _ => exact (below.map_node hG taken).symm

/-- They enter the nodes of the frames above the start. -/
lemma Framed.map_target (hG : Stands G σ first) (h : Framed G σ first stack w) :
    w.map (·.target) = stack.dropLast.map (·.visit.node) := by
  have hnodes : stack.map (·.visit.node) = w.map (·.target) ++ [σ.root.node] := by
    calc stack.map (·.visit.node) = (stack.map Frame.visit).map Visit.node := by rw [List.map_map]; rfl
      _ = (w.map G.key).map Visit.node ++ [σ.root.node] := by rw [h.map_visit, List.map_append]; rfl
      _ = w.map (·.target) ++ [σ.root.node] := by
          rw [List.map_map]
          exact congrArg (· ++ _) (List.map_congr_left fun e _ => hG.node e)
  rw [List.map_dropLast, hnodes, List.dropLast_concat]

/-- No visit occurs in two frames, also where the start is not remembered. -/
lemma Framed.nodup (hG : Stands G σ first) (h : Framed G σ first stack w) :
    (stack.map Frame.visit).Nodup := by
  have hnodup := h.nodup_visits
  rw [visits, Strategy.rootVisits] at hnodup
  rw [h.map_visit]
  cases hmarks : σ.marksRoot with
  | true =>
    rw [hmarks, if_pos rfl] at hnodup
    exact hnodup
  | false =>
    rw [hmarks, if_neg Bool.false_ne_true, List.append_nil] at hnodup
    refine List.nodup_append'.2 ⟨hnodup, List.nodup_singleton _, fun key hkey hroot => ?_⟩
    obtain ⟨e, he, rfl⟩ := List.mem_map.1 hkey
    exact hG.away hmarks e (h.passes e he) (List.mem_singleton.1 hroot)

/-- A frame and those below it are the frames of a beginning of the walk. -/
lemma Framed.exists_below (h : Framed G σ first (above ++ frame :: below) w) :
    ∃ v, Framed G σ first (frame :: below) v := by
  induction above generalizing w with
  | nil => exact ⟨w, h⟩
  | cons top above ih =>
    rw [List.cons_append] at h
    generalize hstack : above ++ frame :: below = lower at h ih
    cases h with
    | root => simp at hstack
    | enter lower _ _ _ _ => exact ih lower

/-- Edges that are still to be taken from a frame above the start lead to new visits. -/
lemma Framed.fresh (h : Framed G σ first (frame :: below) w) (hbelow : below ≠ [])
    (he : e ∈ frame.pending) : G.key e ∉ (σ.remembered (frame :: below)).map Frame.visit := by
  rw [← h.visits_eq]
  have htaken : e ∈ options G σ first w := h.pending_subset he
  cases h with
  | root => exact absurd rfl hbelow
  | enter => exact (Guide.mem_ahead.1 htaken).2

lemma exists_getElem?_of_map_eq {α β γ : Type} {f : α → γ} {h : β → γ} {xs : List α} {ys : List β}
    (hmap : xs.map f = ys.map h) {i : Nat} {a : α} (ha : xs[i]? = some a) :
    ∃ b, ys[i]? = some b ∧ f a = h b := by
  have hfa : (ys.map h)[i]? = some (f a) := by rw [← hmap, List.getElem?_map, ha]; rfl
  rw [List.getElem?_map, Option.map_eq_some_iff] at hfa
  obtain ⟨b, hb, hsame⟩ := hfa
  exact ⟨b, hb, hsame.symm⟩

/-- The edges of a walk are edges of the graph. -/
lemma Framed.walk_subset (hnext : ∀ e ∈ edges, ∀ f ∈ G.next e, f ∈ edges) (hfirst : first ⊆ edges)
    (h : Framed G σ first stack w) : w ⊆ edges := by
  induction h with
  | root => exact List.nil_subset _
  | enter below taken _ _ _ ih => exact List.cons_subset.2 ⟨below.options_subset hnext hfirst taken, ih⟩

/-- In a search that is on its way along a walk, stack, path and memory belong together. -/
theorem Tracks.aligned (hσ : σ.KeepsTo G edges) (hfirst : first ⊆ edges) (hG : Stands G σ first)
    (hvisit : ∀ e ∈ edges, visitOf e = .ok (G.key e)) (h : Tracks G σ first s w) :
    s.Aligned σ visitOf where
  root := by
    rw [← List.getLast?_map, h.frames.map_visit, List.getLast?_concat]
  entered frame hframe := by
    have hkeys : s.stack.dropLast.map Frame.visit = w.map G.key := by
      rw [List.map_dropLast, h.frames.map_visit, List.dropLast_concat]
    have hvisited : frame.visit ∈ w.map G.key := hkeys ▸ List.mem_map_of_mem hframe
    obtain ⟨e, he, hkey⟩ := List.mem_map.1 hvisited
    exact ⟨e, hkey ▸ hvisit e (h.frames.walk_subset hσ.next_subset hfirst he)⟩
  length := by
    have hlength := congrArg List.length h.frames.map_visit
    simp only [List.length_map, List.length_append, List.length_singleton] at hlength
    rw [hlength, Path.length, h.path, List.length_map]
  hops i hop hhop := by
    have hhops : s.path.hops = (w.map Edge.hop).reverse := by rw [Path.hops, h.path]
    have hsource : s.path.hops.map Hop.source = s.stack.reverse.dropLast.map (·.visit.node) := by
      rw [hhops, List.map_reverse, List.map_map, List.dropLast_reverse, List.map_reverse,
        ← h.frames.map_source hG]
      rfl
    have htarget : s.path.hops.map Hop.target = s.stack.reverse.tail.map (·.visit.node) := by
      rw [hhops, List.map_reverse, List.map_map, List.tail_reverse, List.map_reverse,
        ← h.frames.map_target hG]
      rfl
    obtain ⟨lower, hlower, hleaves⟩ := exists_getElem?_of_map_eq hsource hhop
    obtain ⟨upper, hupper, henters⟩ := exists_getElem?_of_map_eq htarget hhop
    rw [List.getElem?_dropLast, Option.ite_none_right_eq_some] at hlower
    rw [List.getElem?_tail] at hupper
    exact ⟨lower, upper, hlower.2, hupper, hleaves, henters⟩
  onPath := h.onPath.trans h.frames.visits_eq
  nodup := h.frames.nodup hG
  pending above frame below hstack e he := by
    have hframes := h.frames
    rw [hstack] at hframes
    obtain ⟨v, hv⟩ := hframes.exists_below
    have htaken : e ∈ options G σ first v := hv.pending_subset he
    have hnodes := hv.map_node hG htaken
    rw [List.map_cons] at hnodes
    exact ⟨(List.cons.inj hnodes).1.symm, G.key e,
      hvisit e (hv.options_subset hσ.next_subset hfirst htaken), fun hbelow => hv.fresh hbelow he⟩

/-! ## Budgets -/

/-- Whether a state differs from another one only in what is listed and what is spent, and no more steps are
counted in it since a path was ended. -/
structure Eases (s s' : Search) : Prop where
  stack : s'.stack = s.stack
  path : s'.path = s.path
  onPath : s'.onPath = s.onPath
  limits : s'.budget.limits = s.budget.limits
  fewer : s'.budget.sinceEnd ≤ s.budget.sinceEnd

/-- The same state, as if a path had just been ended. -/
def rested (s : Search) : Search := { s with budget := { s.budget with sinceEnd := 0 } }

/-- A step that is allowed is allowed too where no more steps are counted, and leads to the same. -/
lemma Eases.step (h : s.Eases s') (hstep : Steps σ s t) : ∃ t', Steps σ s' t' ∧ t.Eases t' := by
  have hfewer := h.fewer
  rcases step_cases hstep with ⟨visit, rest, hstack, rfl⟩ |
    ⟨visit, e, later, rest, hstack, hsteps, path, hpush, hlength, move, hmove, rfl⟩
  · refine ⟨s'.leave visit rest, ?_, rfl, ?_, ?_, h.limits, hfewer⟩
    · simp only [Steps, step, h.stack, hstack]
    · simp only [leave, h.path]
    · simp only [leave, h.onPath]
  · have htake : s'.take σ visit e later rest = .ok (s'.proceed visit later rest path move) := by
      rw [← h.path] at hpush
      rw [← h.onPath] at hmove
      rw [← h.limits] at hsteps hlength
      exact take_eq_ok_iff.2 ⟨Nat.lt_of_le_of_lt hfewer hsteps, path, hpush, hlength, move, hmove, rfl⟩
    refine ⟨s'.proceed visit later rest path move, ?_, ?_⟩
    · simp only [Steps, step, h.stack, hstack, htake]
      rfl
    · cases move with
      | finish keep => exact ⟨rfl, rfl, h.onPath, h.limits, Nat.le_refl 0⟩
      | enter entered next =>
        exact ⟨rfl, rfl, congrArg (entered :: ·) h.onPath, h.limits, Nat.succ_le_succ hfewer⟩

/-- And so is a run. -/
lemma Eases.reaches (h : s.Eases s') (hsteps : Relation.ReflTransGen (Steps σ) s t) :
    ∃ t', Relation.ReflTransGen (Steps σ) s' t' ∧ t.Eases t' := by
  induction hsteps with
  | refl => exact ⟨s', .refl, h⟩
  | tail _ hstep ih =>
    obtain ⟨u', hrun, hu⟩ := ih
    obtain ⟨t', hstep', ht⟩ := hu.step hstep
    exact ⟨t', hrun.tail hstep', ht⟩

lemma Eases.aligned (h : s.Eases s') (hs' : s'.Aligned σ visitOf) : s.Aligned σ visitOf := by
  obtain ⟨hroot, hentered, hlength, hhops, honPath, hnodup, hpending⟩ := hs'
  rw [h.stack] at hroot hlength honPath hnodup
  simp only [h.stack, h.path] at hentered hlength hhops hpending
  rw [h.onPath] at honPath
  exact ⟨hroot, hentered, hlength, hhops, honPath, hnodup, hpending⟩

/-- The stack has the start at its bottom. -/
lemma Aligned.exists_start (h : s.Aligned σ visitOf) :
    ∃ above start, s.stack = above ++ [start] ∧ start.visit = σ.root := by
  obtain ⟨start, hlast, hroot⟩ := Option.map_eq_some_iff.1 h.root
  obtain ⟨above, hstack⟩ := List.getLast?_eq_some_iff.1 hlast
  exact ⟨above, start, hstack, hroot⟩

/-- A start that may be come back to is not remembered. -/
lemma Aligned.root_not_mem_onPath (h : s.Aligned σ visitOf) (hmarks : σ.marksRoot = false) :
    σ.root ∉ s.onPath := by
  obtain ⟨above, start, hstack, hroot⟩ := h.exists_start
  have hnodup := h.nodup
  rw [hstack, List.map_append, List.map_singleton, hroot, List.nodup_append'] at hnodup
  rw [h.onPath, Strategy.remembered, hmarks, if_neg Bool.false_ne_true, hstack, List.dropLast_concat]
  exact fun hmem => hnodup.2.2 hmem (List.mem_singleton_self _)

/-! ## Runs -/

/-- In every state of a search that starts clean, stack, path and memory belong together until it is
done. -/
theorem IsClean.aligned (hσ : σ.KeepsTo G edges) (hfirst : first ⊆ edges) (hG : Stands G σ first)
    (hvisit : ∀ e ∈ edges, visitOf e = .ok (G.key e)) (hs : s.IsClean)
    (hsteps : Relation.ReflTransGen (Steps σ) (s.restart σ first) t) (hgoing : t.stack ≠ []) :
    t.Aligned σ visitOf := by
  have hback : s.rested.IsBack := ⟨hs.path, hs.onPath, rfl⟩
  have htrack : OnTrack G σ first (s.rested.restart σ first) := hback.restart
  have heases : (s.restart σ first).Eases (s.rested.restart σ first) :=
    ⟨rfl, rfl, rfl, rfl, Nat.zero_le _⟩
  -- the rested search goes through the same states, and those are on track
  obtain ⟨t', hsteps', ht⟩ := heases.reaches hsteps
  refine ht.aligned ?_
  rcases htrack.reaches hσ hfirst hsteps' with ⟨hdone, -⟩ | ⟨w, htracks⟩
  · exact absurd (ht.stack.symm.trans hdone) hgoing
  · exact htracks.aligned hσ hfirst hG hvisit

/-- A search that starts clean and is not stopped ends clean, with nothing on its stack. -/
theorem IsClean.of_run (hs : s.IsClean)
    (h : (iterate (Search.step σ) (s.restart σ first)).result = .ok ()) :
    (iterate (Search.step σ) (s.restart σ first)).last.stack = [] ∧
      (iterate (Search.step σ) (s.restart σ first)).last.IsClean := by
  obtain ⟨-, hpath, honPath⟩ := Survey.halt_of_restart hs.path hs.onPath h
  exact ⟨stack_eq_nil_of_run h, hpath, honPath⟩

end Search

/-! ## Searches of graphs -/

variable {g : Graph} {start : NodeId} {first : List Edge}

lemma Failure.stands_guide (hg : g.WellFormed) (hfirst : first ⊆ g.leaving start) (stop : StopRule) :
    Search.Stands (guide g stop) (strategy g stop start) first where
  node _ := rfl
  next _ _ hf := hg.source_eq_of_mem_onward hf
  first e he := (hg.mem_leaving_iff.1 (hfirst he)).2
  away h := by cases h

lemma Reset.stands_guide (hg : g.WellFormed) (hfirst : first ⊆ g.leaving start) :
    Search.Stands (guide g start) (strategy g start) first where
  node _ := rfl
  next _ _ hf := hg.source_eq_of_mem_onward hf
  first e he := (hg.mem_leaving_iff.1 (hfirst he)).2
  away _ e hends hroot := by
    have hback : e.target = start := congrArg Visit.node hroot
    simp [guide, hback] at hends

/-- How a reset remembers the node that an edge enters. -/
def Reset.visitOf (e : Edge) : Except Error Visit := .ok ⟨e.target, none⟩

/-- A search from a node with an empty path and an empty memory keeps its stack, its path and its memory
together until it is done, whatever it has spent before and whatever the limits are; and if nothing stops
it, path and memory are empty again. A reset remembers nodes alone, and all of them but its driver. -/
theorem frames_follow_path {source : Workflow} (hbuilt : Graph.ofWorkflow source = .ok g)
    (hfirst : first ⊆ g.leaving start) {s : Search} (hclean : s.IsClean) :
    (∀ stop,
      (∀ t, Relation.ReflTransGen (Search.Steps (Failure.strategy g stop start))
          (s.restart (Failure.strategy g stop start) first) t → t.stack ≠ [] →
        t.Aligned (Failure.strategy g stop start) (Failure.visitOf g stop)) ∧
      let halt := iterate (Search.step (Failure.strategy g stop start))
        (s.restart (Failure.strategy g stop start) first)
      halt.result = .ok () → halt.last.stack = [] ∧ halt.last.IsClean) ∧
    (∀ t, Relation.ReflTransGen (Search.Steps (Reset.strategy g start))
        (s.restart (Reset.strategy g start) first) t → t.stack ≠ [] →
      t.Aligned (Reset.strategy g start) Reset.visitOf ∧
        (∀ frame ∈ t.stack, frame.visit.via = none) ∧ ⟨start, none⟩ ∉ t.onPath) ∧
    let halt := iterate (Search.step (Reset.strategy g start))
      (s.restart (Reset.strategy g start) first)
    halt.result = .ok () → halt.last.stack = [] ∧ halt.last.IsClean := by
  have hg := Graph.wellFormed_ofWorkflow hbuilt
  have hedges : first ⊆ g.edges.toList := fun e he => (hg.mem_leaving_iff.1 (hfirst he)).1
  refine ⟨fun stop => ⟨fun t hsteps hgoing => ?_, hclean.of_run⟩, fun t hsteps hgoing => ?_,
    hclean.of_run⟩
  · exact hclean.aligned (Failure.keepsTo_guide hg start) hedges (Failure.stands_guide hg hfirst stop)
      (fun e he => Failure.visitOf_eq_ok hg he) hsteps hgoing
  · have haligned : t.Aligned (Reset.strategy g start) Reset.visitOf :=
      hclean.aligned (Reset.keepsTo_guide hg start) hedges (Reset.stands_guide hg hfirst)
        (fun e _ => rfl) hsteps hgoing
    refine ⟨haligned, fun frame hframe => ?_, haligned.root_not_mem_onPath rfl⟩
    obtain ⟨above, bottom, hstack, hroot⟩ := haligned.exists_start
    rw [hstack, List.mem_append, List.mem_singleton] at hframe
    rcases hframe with habove | rfl
    · obtain ⟨e, he⟩ := haligned.entered frame (by rw [hstack, List.dropLast_concat]; exact habove)
      rw [← Except.ok.inj he]
    · rw [hroot]
      rfl

/-- The search for the routes of a failure of the hub. -/
def Strategy.hub : Strategy := Failure.strategy .hub .governingDriver ⟨0⟩

/-- A search that has spent steps and starts over from the hub. -/
def Search.hub : Search :=
  ({ budget := { start := "hub", limits := ⟨20, 5⟩, used := 9, sinceEnd := 4 } } : Search).restart .hub
    (Graph.leaving .hub ⟨0⟩)

/-- The first step leads to two frames for the one node, which are told apart by the way they were entered;
and the search ends clean. -/
theorem frames_follow_path_hub :
    Graph.ofWorkflow .hub = .ok .hub ∧
      (∃ t, Search.Steps .hub .hub t ∧ t.stack.map Frame.visit = [⟨⟨0⟩, some .same⟩, ⟨⟨0⟩, none⟩] ∧
        t.Aligned .hub (Failure.visitOf .hub .governingDriver)) ∧
      (iterate (Search.step .hub) .hub).last.stack = [] ∧
      (iterate (Search.step .hub) .hub).last.IsClean := by
  obtain ⟨hruns, -, -⟩ := frames_follow_path Graph.ofWorkflow_hub
    (List.Subset.refl (Graph.leaving .hub ⟨0⟩))
    (s := { budget := { start := "hub", limits := ⟨20, 5⟩, used := 9, sinceEnd := 4 } }) ⟨rfl, rfl⟩
  obtain ⟨haligned, hdone⟩ := hruns .governingDriver
  have hrun : (iterate (Search.step .hub) .hub).result = .ok () := by
    cbv
  have hstep : (Search.hub.step .hub).map (·.map (·.stack.map Frame.visit))
      = .ok (some [⟨⟨0⟩, some .same⟩, ⟨⟨0⟩, none⟩]) := by
    cbv
  refine ⟨Graph.ofWorkflow_hub, ?_, hdone hrun⟩
  obtain ⟨next, hnext, hsome⟩ := map_eq_ok_iff.1 hstep
  obtain ⟨t, rfl, hvisits⟩ := Option.map_eq_some_iff.1 hsome
  refine ⟨t, hnext, hvisits, haligned t (.single hnext) fun hnone => ?_⟩
  rw [hnone] at hvisits
  cases hvisits

end WorkflowLoops

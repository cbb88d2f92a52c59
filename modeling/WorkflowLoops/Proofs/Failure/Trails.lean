import WorkflowLoops.Failure.Routes
import WorkflowLoops.Proofs.Search.Listings

/-!
# Walks, trails and routes of a failure

What a failure may do is said here without a search. A walk goes on along edges and ends where a
driver takes over, a trail is a walk that remembers where it went and does not come back there, and
a route is a trail that cannot be extended.

The search for routes keeps to a guide (`keepsTo_guide`), whose full trails are the routes
(`isRoute_iff`); and what a plan holds is what its survey lists (`exists_survey_of_plan`).
-/

namespace WorkflowLoops.Failure

/-- How a route remembers the node that an edge enters: by the node alone, and on the way to the
governing driver by the role of the input too if the node is a controller. -/
def keyOf (g : Graph) (stop : StopRule) (e : Edge) : Visit :=
  ⟨e.target, if stop = .governingDriver ∧ g.isController e.target = true then some e.targetRole
    else none⟩

/-- A walk of a failure out of an output: it goes on along the edges that the rules of walking
allow, but not beyond a driver that takes over. -/
structure IsWalk (g : Graph) (stop : StopRule) (start : NodeId) (output : PortIdx)
    (w : List Edge) : Prop where
  opens : ∃ e, w.head? = some e ∧ g.Opens stop.walk start output e
  goesOn : w.IsChain fun e f => g.GoesOn stop.walk (.after e) f
  passes : stop = .governingDriver → ∀ e ∈ w.dropLast, g.entersLoop e ≠ .ok true

/-- A walk that comes back neither to its start nor to a node entered before, where a controller
counts once for each role. Only a single hop may lead back to the start. -/
structure IsTrail (g : Graph) (stop : StopRule) (start : NodeId) (output : PortIdx)
    (w : List Edge) : Prop extends IsWalk g stop start output w where
  simple : w.length = 1 ∨ (⟨start, none⟩ :: w.map (keyOf g stop)).Nodup

/-- A trail that cannot be extended. -/
structure IsRoute (g : Graph) (stop : StopRule) (start : NodeId) (output : PortIdx)
    (w : List Edge) : Prop extends IsTrail g stop start output w where
  maximal : ∀ e, ¬ IsTrail g stop start output (w ++ [e])

/-! ## The guide of the search -/

/-- The rules of the search for routes. -/
def guide (g : Graph) (stop : StopRule) : Guide where
  key := keyOf g stop
  next e := g.onward stop.walk (.after e)
  ends e := stop == .governingDriver && g.isLoopEntry e
  lists _ := true

variable {g : Graph} {stop : StopRule} {start : NodeId} {output : PortIdx} {w : List Edge}

lemma ends_guide_eq_false_iff {e : Edge} :
    (guide g stop).ends e = false ↔ (stop = .governingDriver → g.entersLoop e ≠ .ok true) := by
  rw [← Bool.not_eq_true, guide, Bool.and_eq_true, beq_iff_eq, Graph.isLoopEntry_iff, not_and]

/-- The trails of a failure are those of the guide that open at the output. -/
lemma isTrail_iff :
    IsTrail g stop start output w ↔
      (∃ e, w.head? = some e ∧ g.Opens stop.walk start output e) ∧
        (guide g stop).IsTrail [⟨start, none⟩] w := by
  have hgoesOn : ∀ {e f : Edge},
      f ∈ (guide g stop).next e ↔ g.GoesOn stop.walk (.after e) f := Graph.mem_onward_iff
  have hsimple : (w.map (keyOf g stop)).Nodup ∧ (∀ e ∈ w, keyOf g stop e ∉ [⟨start, none⟩]) ↔
      (⟨start, none⟩ :: w.map (keyOf g stop)).Nodup := by
    rw [List.nodup_cons, List.mem_map, and_comm]
    simp
  constructor
  · rintro ⟨⟨hopens, hchain, hpasses⟩, hkeys⟩
    refine ⟨hopens, ?_, ?_, hkeys.imp_right hsimple.2⟩
    · exact hchain.imp fun _ _ => hgoesOn.2
    · exact fun e he => ends_guide_eq_false_iff.2 fun hstop => hpasses hstop e he
  · rintro ⟨hopens, hchain, hpasses, hkeys⟩
    refine ⟨⟨hopens, ?_, ?_⟩, hkeys.imp_right hsimple.1⟩
    · exact hchain.imp fun _ _ => hgoesOn.1
    · exact fun hstop e he => ends_guide_eq_false_iff.1 (hpasses e he) hstop

/-- The routes of a failure are the full trails of the guide that open at the output. -/
theorem isRoute_iff :
    IsRoute g stop start output w ↔
      (∃ e, w.head? = some e ∧ g.Opens stop.walk start output e) ∧
        (guide g stop).IsFullTrail [⟨start, none⟩] w := by
  constructor
  · rintro ⟨htrail, hmax⟩
    obtain ⟨hopens, htrail'⟩ := isTrail_iff.1 htrail
    refine ⟨hopens, htrail', fun e he => hmax e (isTrail_iff.2 ⟨?_, he⟩)⟩
    obtain ⟨f, hf, hopens'⟩ := hopens
    exact ⟨f, by rw [List.head?_append, hf]; rfl, hopens'⟩
  · rintro ⟨hopens, htrail, hmax⟩
    exact ⟨isTrail_iff.2 ⟨hopens, htrail⟩, fun e he => hmax e (isTrail_iff.1 he).2⟩

/-! ## The search keeps to the guide -/

lemma map_fst_filter_zip {α β : Type} (l : List α) (h : α → β) (p : β → Bool) :
    ((l.zip (l.map h)).filter fun t => p t.2).map Prod.fst = l.filter fun a => p (h a) := by
  induction l with
  | nil => rfl
  | cons a rest ih =>
    rw [List.map_cons, List.zip_cons_cons, List.filter_cons, List.filter_cons]
    split <;> simp [ih]

lemma visitOf_eq_ok (hg : g.WellFormed) {e : Edge} (he : e ∈ g.edges.toList) :
    visitOf g stop e = .ok (keyOf g stop e) := by
  obtain ⟨kind, hkind⟩ := hg.exists_kind_target he
  have hcontroller : g.isController e.target = true ↔ kind = .controller := by
    rw [Graph.isController_iff, hkind, Except.ok.injEq]
  refine bind_eq_ok_iff.2 ⟨kind, hkind, ?_⟩
  simp only [keyOf, hcontroller]
  rfl

lemma endsAt_eq_ok (hg : g.WellFormed) {e : Edge} (he : e ∈ g.edges.toList) :
    endsAt g stop e = .ok ((guide g stop).ends e) := by
  obtain ⟨enters, henters⟩ := hg.exists_entersLoop he
  refine bind_eq_ok_iff.2 ⟨enters, henters, ?_⟩
  simp only [guide, Graph.isLoopEntry, henters]
  rfl

lemma followable_eq_ok (hg : g.WellFormed) {e : Edge} (he : e ∈ g.edges.toList)
    (onPath : List Visit) :
    followable g stop onPath e = .ok ((guide g stop).ahead onPath e) := by
  have hvisits : (g.onward stop.walk (.after e)).mapM (visitOf g stop)
      = .ok ((g.onward stop.walk (.after e)).map (keyOf g stop)) := by
    refine mapM_eq_ok fun f hf => visitOf_eq_ok hg ?_
    exact (hg.goesOn_mem_edges (Graph.mem_onward_iff.1 hf)).1
  refine bind_eq_ok_iff.2 ⟨_, hg.nextEdges_after stop.walk he, bind_eq_ok_iff.2 ⟨_, hvisits, ?_⟩⟩
  exact congrArg Except.ok (map_fst_filter_zip _ (keyOf g stop) fun visit => visit ∉ onPath)

/-- Along the edges of a graph the search for routes does what the guide says. -/
theorem keepsTo_guide (hg : g.WellFormed) (start : NodeId) :
    (strategy g stop start).KeepsTo (guide g stop) g.edges.toList where
  move_eq e he onPath := by
    refine bind_eq_ok_iff.2 ⟨_, endsAt_eq_ok hg he,
      bind_eq_ok_iff.2 ⟨_, visitOf_eq_ok hg he, ?_⟩⟩
    by_cases hstop : (guide g stop).ends e = true ∨ keyOf g stop e ∈ onPath
    · rw [Guide.move_of_stop hstop, if_pos (by simpa using hstop)]
      rfl
    · rw [Guide.move_of_pass hstop, if_neg (by simpa using hstop)]
      refine bind_eq_ok_iff.2 ⟨_, followable_eq_ok hg he _, ?_⟩
      simp only [List.isEmpty_iff]
      rfl
  next_subset e _ f hf := (hg.goesOn_mem_edges (Graph.mem_onward_iff.1 hf)).1

/-! ## Plans -/

/-- What a plan makes of the survey of a node that is there. -/
lemma result_plan {limits : Limits} {dedup : Bool} {node : Node}
    {openings : List (String × List Edge)} (hnode : g.nodeAt start = .ok node)
    (hopenings : g.openings stop.walk start = .ok openings) :
    let survey := Survey.run (strategy g stop start) { start := node.exeId, limits } openings
    (plan g limits stop dedup start).result = survey.result.map fun _ =>
      .ofList (if dedup then dropRepeated survey.listings.toList else survey.listings.toList) := by
  simp only [plan, hnode, hopenings]
  generalize Survey.run (strategy g stop start) { start := node.exeId, limits } openings = survey
  cases survey.result <;> rfl

/-- A plan holds what its survey lists. -/
lemma exists_survey_of_plan {limits : Limits} {dedup : Bool} {listing : Listing Path}
    (h : (plan g limits stop dedup start).result = .ok listing) :
    ∃ node openings, g.nodeAt start = .ok node ∧ g.openings stop.walk start = .ok openings ∧
      (Survey.run (strategy g stop start) { start := node.exeId, limits } openings).result
        = .ok () ∧
      listing = .ofList
        (let all := (Survey.run (strategy g stop start)
          { start := node.exeId, limits } openings).listings.toList
        if dedup then dropRepeated all else all) := by
  cases hnode : g.nodeAt start with
  | error e => simp [plan, hnode, Report.quiet] at h
  | ok node =>
    obtain ⟨openings, hopenings⟩ := Graph.WellFormed.exists_openings stop.walk hnode
    rw [result_plan hnode hopenings] at h
    refine ⟨node, openings, rfl, hopenings, ?_⟩
    cases hrun : (Survey.run (strategy g stop start)
        { start := node.exeId, limits } openings).result with
    | error e => simp [hrun, Except.map] at h
    | ok _ => exact ⟨rfl, by simpa [hrun, Except.map] using h.symm⟩

end WorkflowLoops.Failure

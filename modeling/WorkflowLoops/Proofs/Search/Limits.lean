import Mathlib
import WorkflowLoops.Proofs.Search.Branches

/-!
# Limits refuse a query or leave its answer alone

The leaves of a failure are its routes. Those of a reset are its loops and the walks that die out. Limits
let a query go along its leaves up to the first one that does not fit, so they cannot cut its answer
short: the query has its full report, or an error and no answer (`Bounded`, `limits_refuse_or_keep`).
-/

namespace WorkflowLoops

/-! ## Bounded queries -/

/-- The event for a leaf, if the path to it is listed. -/
def Leaf.events (told : Path → Event) (leaf : Leaf) : List Event :=
  if leaf.listed = true then [told (Path.ofEdges leaf.walk)] else []

/-- Limits refuse a query, or they leave its full report alone. -/
structure Bounded {α : Type} (report : Limits → Report α) (name : String) (opening : Event)
    (told : Path → Event) (ls : List Leaf) (full : Report α) : Prop where
  answered : ∃ answer, full.result = .ok answer
  /-- The query has its full answer exactly if all leaves fit. -/
  answers : ∀ limits, (report limits).result = full.result ↔ ∀ leaf ∈ ls, leaf.Fits limits
  /-- It never has another one. -/
  untouched : ∀ limits answer, (report limits).result = .ok answer → report limits = full
  /-- If not all leaves fit, it is refused on the way to the first one that does not. -/
  refuses : ∀ limits before leaf after, ls = before ++ leaf :: after →
    (∀ l ∈ before, l.Fits limits) → ¬ leaf.Fits limits →
      ∃ err, leaf.Refused limits name err ∧ (report limits).result = .error err ∧
        (report limits).events = opening :: before.flatMap (Leaf.events told) ++ Event.ofError err
  /-- More steps and longer paths change no answer. -/
  keeps : ∀ limits limits' : Limits, limits.maxSteps ≤ limits'.maxSteps →
    limits.maxPathLength ≤ limits'.maxPathLength →
      ∀ answer, (report limits).result = .ok answer → report limits' = report limits

lemma Leaf.Fits.mono {leaf : Leaf} {limits limits' : Limits} (h : leaf.Fits limits)
    (hsteps : limits.maxSteps ≤ limits'.maxSteps)
    (hlength : limits.maxPathLength ≤ limits'.maxPathLength) : leaf.Fits limits' :=
  ⟨h.1.trans hlength, h.2.trans hsteps⟩

/-- A query is bounded if it follows the course of its leaves. -/
theorem bounded_of_course {α : Type} {report : Limits → Report α} {full : Report α} {name : String}
    {opening : Event} {told : Path → Event} {ls : List Leaf}
    (hown : ∀ leaf ∈ ls, leaf.common < leaf.walk.length) (hfull : ∃ answer, full.result = .ok answer)
    (hpass : ∀ limits, (limits.course name 0 0 ls).2 = none → report limits = full)
    (hstop : ∀ limits done err, limits.course name 0 0 ls = (done, some err) → report limits =
      { events := opening :: done.flatMap (fun t => if t.2 = true then [told (Path.ofEdges t.1)] else [])
          ++ Event.ofError err
        result := .error err }) :
    Bounded report name opening told ls full := by
  have hnone : ∀ limits answer, (report limits).result = .ok answer →
      (limits.course name 0 0 ls).2 = none := by
    intro limits answer hok
    cases hcourse : limits.course name 0 0 ls with
    | mk done end? =>
      cases end? with
      | none => rfl
      | some err =>
        rw [hstop limits done err hcourse] at hok
        cases hok
  refine ⟨hfull, fun limits => ?_, fun limits answer hok => hpass limits (hnone limits answer hok),
    ?_, ?_⟩
  · obtain ⟨answer, hanswer⟩ := hfull
    rw [← Limits.course_eq_none_iff name hown, hanswer]
    exact ⟨hnone limits answer, fun h => by rw [hpass limits h, hanswer]⟩
  · rintro limits before leaf after rfl hbefore hleaf
    obtain ⟨err, hrefused, hcourse⟩ := Limits.course_of_not_fits hown hbefore hleaf
    refine ⟨err, hrefused, ?_⟩
    rw [hstop limits _ err hcourse, List.flatMap_map]
    exact ⟨rfl, rfl⟩
  · intro limits limits' hsteps hlength answer hok
    have hcourse := hnone limits answer hok
    have hfits := (Limits.course_eq_none_iff name hown).1 hcourse
    have hcourse' : (limits'.course name 0 0 ls).2 = none :=
      (Limits.course_eq_none_iff name hown).2 fun leaf hleaf => (hfits leaf hleaf).mono hsteps hlength
    rw [hpass limits hcourse, hpass limits' hcourse']

/-- Every leaf of trees has a hop of its own. -/
lemma common_lt_of_mem_flatMap {branches : List (List (List Edge × Bool))}
    (htree : ∀ ends ∈ branches, IsTree ends) :
    ∀ leaf ∈ branches.flatMap leaves, leaf.common < leaf.walk.length := by
  intro leaf hleaf
  obtain ⟨ends, hends, hmem⟩ := List.mem_flatMap.1 hleaf
  exact (htree ends hends).common_lt leaf hmem

/-- The events for the paths of a listing are those for its ends. -/
lemma map_listed (told : Path → Event) (ends : List (List Edge × Bool)) :
    (Search.listed {} ends).map told
      = ends.flatMap fun t => if t.2 = true then [told (Path.ofEdges t.1)] else [] := by
  induction ends with
  | nil => rfl
  | cons t rest ih =>
    obtain ⟨w, keep⟩ := t
    rw [List.flatMap_cons, ← ih]
    cases keep <;> rfl

/-! ## Failures -/

namespace Failure

variable {g : Graph} {stop : StopRule} {start : NodeId} {dedup : Bool} {node : Node}

/-- The report of a plan that limits stop. -/
lemma plan_of_error {limits : Limits} {openings : List (String × List Edge)} {err : Error}
    (hnode : g.nodeAt start = .ok node) (hopenings : g.openings stop.walk start = .ok openings)
    (herr : (Survey.run (strategy g stop start) { start := node.exeId, limits } openings).result
      = .error err) :
    plan g limits stop dedup start =
      { events := .planningFailure node.exeId stop ::
          ((Survey.run (strategy g stop start)
            { start := node.exeId, limits } openings).listings.toList.flatMap Prod.snd).map .failurePath
          ++ Event.ofError err
        result := .error err } := by
  simp only [plan, hnode, hopenings, herr, List.map_flatMap]

/-- The report of a plan that limits do not stop. -/
lemma plan_of_ok {limits : Limits} {openings : List (String × List Edge)}
    (hnode : g.nodeAt start = .ok node) (hopenings : g.openings stop.walk start = .ok openings)
    (hok : (Survey.run (strategy g stop start) { start := node.exeId, limits } openings).result
      = .ok ()) :
    let survey := Survey.run (strategy g stop start) { start := node.exeId, limits } openings
    let all := survey.listings.toList
    let kept := if dedup then dropRepeated all else all
    plan g limits stop dedup start =
      { events := .planningFailure node.exeId stop :: (all.flatMap Prod.snd).map .failurePath
          ++ [.foundFailurePaths node.exeId (kept.flatMap Prod.snd).length survey.search.budget.used]
        result := .ok (.ofList kept) } := by
  simp only [plan, hnode, hopenings, hok, List.map_flatMap]

/-- The plan of a failure is bounded by its limits, and in its full report it has taken a step for every
beginning of a route. -/
theorem bounded_plan (hg : g.WellFormed) (hnode : g.nodeAt start = .ok node) :
    ∃ branches full, g.Branches node (IsRoute g stop start) (IsRoute g stop start) branches ∧
      Bounded (fun limits => plan g limits stop dedup start) node.exeId
        (.planningFailure node.exeId stop) .failurePath (branches.flatMap leaves) full ∧
      ∃ count, full.events.getLast? = some (.foundFailurePaths node.exeId count
        (Set.ncard {t : PortIdx × List Edge |
          t.2 ≠ [] ∧ ∃ w, IsRoute g stop start t.1 w ∧ t.2 <+: w})) := by
  obtain ⟨openings, hopenings⟩ := Graph.WellFormed.exists_openings stop.walk hnode
  have hlists : ∀ output w, IsRoute g stop start output w →
      (IsRoute g stop start output w ↔ ∃ e, w.getLast? = some e ∧ (guide g stop).lists e = true) := by
    intro output w hw
    obtain ⟨e, he, -⟩ := hw.opens
    obtain ⟨rest, rfl⟩ := List.head?_eq_some_iff.1 he
    exact iff_of_true hw ⟨_, List.getLast?_eq_some_getLast (List.cons_ne_nil e rest), rfl⟩
  obtain ⟨branches, hbranches, htree, hgoes⟩ := hg.exists_branches (keepsTo_guide hg start)
    (fun _ => rfl) hnode hopenings (fun _ _ => isRoute_iff) hlists
  have houtput : ∀ output w, IsRoute g stop start output w → output.index < node.outputs.size := by
    intro output w hw
    obtain ⟨e, -, hopens⟩ := hw.opens
    obtain ⟨port, hport⟩ := hg.exists_port_of_opens hnode hopens
    exact (Array.getElem?_eq_some_iff.1 hport).1
  rw [hbranches.ncard_beginnings houtput htree]
  let kept := if dedup then dropRepeated (Survey.fullListings openings branches)
    else Survey.fullListings openings branches
  refine ⟨branches,
    { events := .planningFailure node.exeId stop ::
        ((Survey.fullListings openings branches).flatMap Prod.snd).map .failurePath
        ++ [.foundFailurePaths node.exeId (kept.flatMap Prod.snd).length
          ((branches.flatMap leaves).map Leaf.own).sum]
      result := .ok (.ofList kept) }, hbranches, ?_, _, List.getLast?_concat⟩
  refine bounded_of_course (common_lt_of_mem_flatMap htree) ⟨_, rfl⟩ ?_ ?_
  · intro limits hnone
    obtain ⟨hok, hlistings, hsteps⟩ := (hgoes node.exeId limits).pass hnone
    rw [plan_of_ok hnode hopenings hok, hlistings, hsteps]
  · intro limits done err hcourse
    obtain ⟨herr, hlistings⟩ := (hgoes node.exeId limits).stop done err hcourse
    rw [plan_of_error hnode hopenings herr, hlistings, map_listed]

end Failure

/-! ## Resets -/

namespace Reset

/-- A walk of a reset out of an output of a driver, through no node twice, and not beyond the driver. -/
structure IsTrail (g : Graph) (driver : NodeId) (output : PortIdx) (w : List Edge) : Prop where
  opens : ∃ e, w.head? = some e ∧ e ∈ g.edges.toList ∧ e.source = driver ∧ e.output = output ∧
    e.sourceRole = .same
  goesOn : w.IsChain fun e f => g.GoesOn .reset (.after e) f
  passes : ∀ e ∈ w.dropLast, e.target ≠ driver
  simple : (w.map (·.target)).Nodup

/-- A trail that cannot be extended: it comes back to the driver, or it dies out. -/
structure IsBranch (g : Graph) (driver : NodeId) (output : PortIdx) (w : List Edge) : Prop
    extends IsTrail g driver output w where
  maximal : ∀ e, ¬ IsTrail g driver output (w ++ [e])

variable {g : Graph} {driver : NodeId} {output : PortIdx} {w : List Edge} {node : Node}

/-- The trails of a reset are those of its guide that open at the output. -/
lemma isTrail_iff (hkind : g.kind driver = .ok .driver) :
    IsTrail g driver output w ↔
      (∃ e, w.head? = some e ∧ g.Opens .reset driver output e) ∧ (guide g driver).IsTrail [] w := by
  have hends : ∀ e, (guide g driver).ends e = false ↔ e.target ≠ driver := by
    simp [guide]
  simp only [opens_iff hkind]
  constructor
  · rintro ⟨hopens, hchain, hpasses, hsimple⟩
    refine ⟨hopens, hchain.imp fun _ _ => Graph.mem_onward_iff.2,
      fun e he => (hends e).2 (hpasses e he), .inr ⟨nodup_map_key_iff.2 hsimple, by simp⟩⟩
  · rintro ⟨hopens, hchain, hpasses, hsimple⟩
    refine ⟨hopens, hchain.imp fun _ _ => Graph.mem_onward_iff.1,
      fun e he => (hends e).1 (hpasses e he), ?_⟩
    rcases hsimple with hone | ⟨hnodup, -⟩
    · obtain ⟨e, rfl⟩ := List.length_eq_one_iff.1 hone
      exact List.nodup_singleton _
    · exact nodup_map_key_iff.1 hnodup

/-- The branches of a reset are the full trails of its guide that open at the output. -/
lemma isBranch_iff (hkind : g.kind driver = .ok .driver) :
    IsBranch g driver output w ↔
      (∃ e, w.head? = some e ∧ g.Opens .reset driver output e) ∧
        (guide g driver).IsFullTrail [] w := by
  constructor
  · rintro ⟨htrail, hmax⟩
    obtain ⟨hopens, htrail'⟩ := (isTrail_iff hkind).1 htrail
    refine ⟨hopens, htrail', fun e he => hmax e ((isTrail_iff hkind).2 ⟨?_, he⟩)⟩
    obtain ⟨f, hf, hopens'⟩ := hopens
    exact ⟨f, by rw [List.head?_append, hf]; rfl, hopens'⟩
  · rintro ⟨hopens, htrail, hmax⟩
    exact ⟨(isTrail_iff hkind).2 ⟨hopens, htrail⟩, fun e he => hmax e ((isTrail_iff hkind).1 he).2⟩

/-- The report of a plan that limits stop. -/
lemma plan_of_error {limits : Limits} {openings : List (String × List Edge)} {err : Error}
    (hnode : g.nodeAt driver = .ok node) (hdriver : node.isDriver = true)
    (hopenings : g.openings .reset driver = .ok openings)
    (herr : (Survey.run (strategy g driver) { start := node.exeId, limits } openings).result
      = .error err) :
    plan g limits driver =
      { events := .planningReset node.exeId ::
          (((Survey.run (strategy g driver) { start := node.exeId, limits } openings).listings.toList.flatMap
            Prod.snd).filterMap Cycle.close?).map (fun c => .resetCycle c.path)
          ++ Event.ofError err
        result := .error err } := by
  simp only [plan, hnode, hopenings, hdriver, if_true, herr, List.flatMap_map, List.filterMap_flatMap,
    List.map_flatMap]

/-- The report of a plan that limits do not stop. -/
lemma plan_of_ok {limits : Limits} {openings : List (String × List Edge)}
    (hnode : g.nodeAt driver = .ok node) (hdriver : node.isDriver = true)
    (hopenings : g.openings .reset driver = .ok openings)
    (hok : (Survey.run (strategy g driver) { start := node.exeId, limits } openings).result = .ok ()) :
    let survey := Survey.run (strategy g driver) { start := node.exeId, limits } openings
    let all := survey.listings.toList.map fun (output, paths) => (output, paths.filterMap Cycle.close?)
    plan g limits driver =
      { events := .planningReset node.exeId ::
          (all.flatMap fun (_, cycles) => cycles.map fun c => .resetCycle c.path)
          ++ [.foundResetCycles node.exeId (all.flatMap Prod.snd).length survey.search.budget.used]
        result := .ok (.ofList all) } := by
  simp only [plan, hnode, hopenings, hdriver, if_true, hok]

/-- Where all paths close, the events for their cycles are those for the paths. -/
lemma map_filterMap_close? {paths : List Path} (h : ∀ p ∈ paths, Cycle.close? p = some ⟨p⟩) :
    (paths.filterMap Cycle.close?).map (fun c => Event.resetCycle c.path)
      = paths.map Event.resetCycle := by
  have hclose : paths.filterMap Cycle.close? = paths.map Cycle.mk := by
    rw [← List.filterMap_eq_map]
    exact List.filterMap_congr h
  rw [hclose, List.map_map]
  rfl

/-- The plan of a reset is bounded by its limits. -/
theorem bounded_plan (hg : g.WellFormed) (hnode : g.nodeAt driver = .ok node)
    (hdriver : node.isDriver = true) :
    ∃ branches full, g.Branches node (IsBranch g driver) (IsLoop g driver) branches ∧
      Bounded (fun limits => plan g limits driver) node.exeId (.planningReset node.exeId) .resetCycle
        (branches.flatMap leaves) full := by
  have hkind : g.kind driver = .ok .driver := (Graph.kind_eq_driver_iff hnode).2 hdriver
  obtain ⟨openings, hopenings⟩ := Graph.WellFormed.exists_openings .reset hnode
  have hlists : ∀ output w, IsBranch g driver output w →
      (IsLoop g driver output w ↔ ∃ e, w.getLast? = some e ∧ (guide g driver).lists e = true) := by
    intro output w hw
    obtain ⟨hopens, hfull⟩ := (isBranch_iff hkind).1 hw
    rw [isLoop_iff hkind, and_iff_right hopens, and_iff_right hfull]
  obtain ⟨branches, hbranches, htree, hgoes⟩ := hg.exists_branches (keepsTo_guide hg driver)
    (fun _ => rfl) hnode hopenings (fun _ _ => isBranch_iff hkind) hlists
  -- every path that is listed closes
  have hclose : ∀ done, done ⊆ (branches.flatMap leaves).map Leaf.ending →
      ∀ p ∈ Search.listed {} done, Cycle.close? p = some ⟨p⟩ := by
    intro done hdone p hp
    obtain ⟨⟨w, keep⟩, hmem, rfl⟩ := List.mem_map.1 hp
    obtain ⟨hmem, hkeep⟩ := List.mem_filter.1 hmem
    have hending := hdone hmem
    rw [List.map_flatMap, List.mem_flatMap] at hending
    obtain ⟨ends, hends, hw⟩ := hending
    rw [map_ending_leaves] at hw
    obtain ⟨i, hi⟩ := List.mem_iff_getElem?.1 hends
    have hloop := ((hbranches.mem_iff i ends hi w keep).1 hw).2.1 hkeep
    exact hloop.close?_eq_some hg
  let all := (Survey.fullListings openings branches).map fun (output, paths) =>
    (output, paths.filterMap Cycle.close?)
  refine ⟨branches,
    { events := .planningReset node.exeId ::
        (all.flatMap fun (_, cycles) => cycles.map fun c => .resetCycle c.path)
        ++ [.foundResetCycles node.exeId (all.flatMap Prod.snd).length
          ((branches.flatMap leaves).map Leaf.own).sum]
      result := .ok (.ofList all) }, hbranches, ?_⟩
  refine bounded_of_course (common_lt_of_mem_flatMap htree) ⟨_, rfl⟩ ?_ ?_
  · intro limits hnone
    obtain ⟨hok, hlistings, hsteps⟩ := (hgoes node.exeId limits).pass hnone
    rw [plan_of_ok hnode hdriver hopenings hok, hlistings, hsteps]
  · intro limits done err hcourse
    obtain ⟨herr, hlistings⟩ := (hgoes node.exeId limits).stop done err hcourse
    have hdone : done ⊆ (branches.flatMap leaves).map Leaf.ending := by
      have hsub : (limits.course node.exeId 0 0 (branches.flatMap leaves)).1 ⊆ _ :=
        Limits.fst_course_subset
      rwa [hcourse] at hsub
    rw [plan_of_error hnode hdriver hopenings herr, hlistings, map_filterMap_close? (hclose done hdone),
      map_listed]

end Reset

/-! ## Queries -/

/-- Limits refuse a query or leave its answer alone. Let the leaves of a query be the walks that it goes
along without limits, output by output and in the order of the positions of their edges: the routes of a
failure; the branches of a reset, of which the loops are listed. The query has its full report exactly if
no leaf is longer than a path may be, and none has more hops than there may be steps beyond those that it
has in common with the leaf before it out of the same output. Otherwise it is refused on the way to the
first leaf that does not fit, at the first hop that is too many, for the steps rather than for the
length. In the full report of a failure, a step was taken for every beginning of a route. -/
theorem limits_refuse_or_keep {source : Workflow} {g : Graph}
    (hbuilt : Graph.ofWorkflow source = .ok g) {exeId : String} {start : NodeId}
    (hid : g.nodeId exeId = .ok start) :
    ∃ node, g.nodeAt start = .ok node ∧
    (∀ stop dedup, ∃ branches full,
      g.Branches node (Failure.IsRoute g stop start) (Failure.IsRoute g stop start) branches ∧
      Bounded (fun limits => g.failureRoutes limits stop dedup exeId) exeId
        (.planningFailure exeId stop) .failurePath (branches.flatMap leaves) full ∧
      ∃ count, full.events.getLast? = some (.foundFailurePaths exeId count
        (Set.ncard {t : PortIdx × List Edge |
          t.2 ≠ [] ∧ ∃ w, Failure.IsRoute g stop start t.1 w ∧ t.2 <+: w}))) ∧
    (node.isDriver = true → ∃ branches full,
      g.Branches node (Reset.IsBranch g start) (Reset.IsLoop g start) branches ∧
      Bounded (fun limits => g.resetCycles limits exeId) exeId (.planningReset exeId) .resetCycle
        (branches.flatMap leaves) full) ∧
    (node.isDriver = false →
      ∀ limits, (g.resetCycles limits exeId).result = .error (.notALoopDriver exeId)) := by
  have hg := Graph.wellFormed_ofWorkflow hbuilt
  obtain ⟨node, hnode, rfl⟩ := hg.exists_nodeAt_of_exeIdAt (hg.nodeId_eq_ok_iff.1 hid)
  have hquery : ∀ {α : Type} (f : NodeId → Report α),
      (Report.quiet (g.nodeId node.exeId)).andThen f = f start := by
    intro α f
    rw [hid]
    rfl
  have hfailure : ∀ stop dedup, (fun limits => g.failureRoutes limits stop dedup node.exeId)
      = fun limits => Failure.plan g limits stop dedup start := fun stop dedup =>
    funext fun limits => hquery _
  have hreset : (fun limits => g.resetCycles limits node.exeId)
      = fun limits => Reset.plan g limits start := funext fun limits => hquery _
  refine ⟨node, hnode, fun stop dedup => ?_, fun hdriver => ?_, fun hdriver limits => ?_⟩
  · rw [hfailure]
    exact Failure.bounded_plan hg hnode
  · rw [hreset]
    exact Reset.bounded_plan hg hnode hdriver
  · rw [Graph.resetCycles, hquery]
    exact Reset.result_plan_of_not_isDriver hnode hdriver

/-- In the loop within a loop limits refuse the failure of the worker or leave its routes alone. -/
theorem limits_refuse_or_keep_nestedLoops :
    Graph.ofWorkflow .nestedLoops = .ok .nestedLoops ∧
    Graph.nodeId .nestedLoops "work" = .ok ⟨0⟩ ∧
    ∃ node branches full, Graph.nodeAt .nestedLoops ⟨0⟩ = .ok node ∧
      Graph.Branches .nestedLoops node (Failure.IsRoute .nestedLoops .sink ⟨0⟩)
        (Failure.IsRoute .nestedLoops .sink ⟨0⟩) branches ∧
      Bounded (fun limits => Graph.failureRoutes .nestedLoops limits .sink false "work") "work"
        (.planningFailure "work" .sink) .failurePath (branches.flatMap leaves) full := by
  have hid : Graph.nodeId .nestedLoops "work" = .ok ⟨0⟩ := by cbv
  obtain ⟨node, hnode, hroutes, -⟩ := limits_refuse_or_keep Graph.ofWorkflow_nestedLoops hid
  obtain ⟨branches, full, hbranches, hbounded, -⟩ := hroutes .sink false
  exact ⟨Graph.ofWorkflow_nestedLoops, hid, node, branches, full, hnode, hbranches, hbounded⟩

end WorkflowLoops

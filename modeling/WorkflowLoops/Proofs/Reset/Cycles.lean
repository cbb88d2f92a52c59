import Mathlib
import WorkflowLoops.Proofs.Path.Changes
import WorkflowLoops.Proofs.Search.Listings
import WorkflowLoops.Reset.Cycles

/-!
# The plan of a reset lists the loops of its driver

A loop leaves its driver on the level of its body and comes back to it on that level, through no node
twice. The search for cycles keeps to a guide (`keepsTo_guide`), and the loops are its full trails
that come back in the right way (`isLoop_iff`). So whenever the plan of a reset has a result, it holds
for every output of the driver exactly the loops out of that output. Where a walk dies out, or comes
back to the driver on another level, nothing is listed, and nothing else is lost by it.
-/

namespace WorkflowLoops.Reset

/-- A closed walk of a reset out of an output of a driver. -/
structure IsLoop (g : Graph) (driver : NodeId) (output : PortIdx) (w : List Edge) : Prop where
  opens : ∃ e, w.head? = some e ∧ e ∈ g.edges.toList ∧ e.source = driver ∧ e.output = output ∧
    e.sourceRole = .same
  goesOn : w.IsChain fun e f => g.GoesOn .reset (.after e) f
  simple : (driver :: w.dropLast.map (·.target)).Nodup
  closes : ∃ e, w.getLast? = some e ∧ e.target = driver ∧ e.targetRole = .same

/-! ## The guide of the search -/

/-- The rules of the search for cycles. -/
def guide (g : Graph) (driver : NodeId) : Guide where
  key e := ⟨e.target, none⟩
  next e := g.onward .reset (.after e)
  ends e := e.target == driver
  lists e := e.target == driver && e.targetRole == .same

variable {g : Graph} {driver : NodeId} {output : PortIdx} {w : List Edge}

/-- A reset leaves its driver where it leaves on the level of the body. -/
lemma opens_iff (hkind : g.kind driver = .ok .driver) {e : Edge} :
    g.Opens .reset driver output e ↔
      e ∈ g.edges.toList ∧ e.source = driver ∧ e.output = output ∧ e.sourceRole = .same := by
  have hfollows : Walk.follows .reset .driver .start e.sourceRole = true ↔
      e.sourceRole = .same := by
    cases e.sourceRole <;> simp [Walk.follows]
  rw [Graph.Opens, hkind]
  simp [hfollows]

lemma nodup_map_key_iff :
    (w.map (guide g driver).key).Nodup ↔ (w.map (·.target)).Nodup := by
  have hkey : w.map (guide g driver).key = (w.map (·.target)).map fun id => ⟨id, none⟩ := by
    rw [List.map_map]
    rfl
  rw [hkey]
  exact List.nodup_map_iff fun _ _ h => (Visit.mk.inj h).1

/-- The loops of a driver are the full trails of the guide that open at the output and come back to
the driver on the level of its body. -/
theorem isLoop_iff (hkind : g.kind driver = .ok .driver) :
    IsLoop g driver output w ↔
      (∃ e, w.head? = some e ∧ g.Opens .reset driver output e) ∧
        (guide g driver).IsFullTrail [] w ∧
        ∃ e, w.getLast? = some e ∧ (guide g driver).lists e = true := by
  have hlists : ∀ e, (guide g driver).lists e = true ↔ e.target = driver ∧ e.targetRole = .same := by
    simp [guide]
  have hends : ∀ e, (guide g driver).ends e = false ↔ e.target ≠ driver := by
    simp [guide]
  simp only [opens_iff hkind, hlists]
  constructor
  · rintro ⟨hopens, hchain, hsimple, e, hlast, htarget, hrole⟩
    obtain ⟨init, rfl⟩ := List.getLast?_eq_some_iff.1 hlast
    rw [List.dropLast_concat, List.nodup_cons] at hsimple
    obtain ⟨hfresh, hnodup⟩ := hsimple
    -- the driver comes last, so no edge before it leads there
    have hbefore : ∀ x ∈ init, x.target ≠ driver := fun x hx heq =>
      hfresh (List.mem_map.2 ⟨x, hx, heq⟩)
    refine ⟨hopens, ⟨⟨?_, ?_, .inr ⟨?_, by simp⟩⟩, fun f hf => ?_⟩, e, hlast, htarget, hrole⟩
    · exact hchain.imp fun _ _ => Graph.mem_onward_iff.2
    · rw [List.dropLast_concat]
      exact fun x hx => (hends x).2 (hbefore x hx)
    · rw [nodup_map_key_iff, List.map_append, List.nodup_append]
      refine ⟨hnodup, List.nodup_singleton _, ?_⟩
      intro a ha b hb hab
      obtain ⟨x, hx, rfl⟩ := List.mem_map.1 ha
      obtain rfl : b = e.target := by simpa using hb
      exact hbefore x hx (hab.trans htarget)
    · -- beyond the driver no trail goes on
      have hpass := hf.passes e (by rw [List.dropLast_concat]; simp)
      exact (hends e).1 hpass htarget
  · rintro ⟨hopens, ⟨⟨hchain, hpasses, hsimple⟩, -⟩, e, hlast, htarget, hrole⟩
    refine ⟨hopens, hchain.imp fun _ _ => Graph.mem_onward_iff.1, ?_, e, hlast, htarget, hrole⟩
    rw [List.nodup_cons]
    constructor
    · intro hback
      obtain ⟨x, hx, heq⟩ := List.mem_map.1 hback
      exact (hends x).1 (hpasses x hx) heq
    · rcases hsimple with hone | ⟨hnodup, -⟩
      · obtain ⟨f, rfl⟩ := List.length_eq_one_iff.1 hone
        simp
      · rw [nodup_map_key_iff] at hnodup
        exact hnodup.sublist ((List.dropLast_sublist w).map _)

/-! ## The search keeps to the guide -/

lemma followable_eq_ok (hg : g.WellFormed) (driver : NodeId) {e : Edge}
    (he : e ∈ g.edges.toList) (onPath : List Visit) :
    followable g onPath e = .ok ((guide g driver).ahead onPath e) :=
  bind_eq_ok_iff.2 ⟨_, hg.nextEdges_after .reset he, rfl⟩

/-- Along the edges of a graph the search for cycles does what the guide says. -/
theorem keepsTo_guide (hg : g.WellFormed) (driver : NodeId) :
    (strategy g driver).KeepsTo (guide g driver) g.edges.toList where
  move_eq e he onPath := by
    have hmove : (strategy g driver).move onPath e = move g driver onPath e := rfl
    rw [hmove, move]
    by_cases hback : e.target = driver
    · have hends : (guide g driver).ends e = true := by simpa [guide] using hback
      rw [if_pos hback, Guide.move_of_stop (.inl hends)]
      simp [guide, hback]
    · have hends : (guide g driver).ends e = false := by simpa [guide] using hback
      have hlists : (guide g driver).lists e = false := by simp [guide, hback]
      rw [if_neg hback]
      by_cases hvisited : ⟨e.target, none⟩ ∈ onPath
      · rw [if_pos hvisited, Guide.move_of_stop (.inr hvisited), hlists]
      · have hpass : ¬ ((guide g driver).ends e = true ∨ (guide g driver).key e ∈ onPath) := by
          rw [hends, not_or]
          exact ⟨Bool.false_ne_true, hvisited⟩
        rw [if_neg hvisited, Guide.move_of_pass hpass, hlists]
        refine bind_eq_ok_iff.2 ⟨_, followable_eq_ok hg driver he _, ?_⟩
        simp only [List.isEmpty_iff]
        rfl
  next_subset e _ f hf := (hg.goesOn_mem_edges (Graph.mem_onward_iff.1 hf)).1

/-! ## Loops are cycles -/

/-- The path along a loop is continuous and closed. -/
theorem IsLoop.close?_eq_some (hg : g.WellFormed) (h : IsLoop g driver output w) :
    Cycle.close? (Path.ofEdges w) = some ⟨Path.ofEdges w⟩ := by
  obtain ⟨⟨first, hfirst, -, hsource, -⟩, hchain, -, last, hlast, htarget, -⟩ := h
  have hcontinuous : (Path.ofEdges w).isContinuous = true := by
    rw [Path.isContinuous_iff, Path.hops_ofEdges, List.isChain_map]
    exact hchain.imp fun e f hgo => (hg.goesOn_mem_edges hgo).2.symm
  refine (Path.close?_eq_some_iff hcontinuous).2 ⟨⟨first.hop, last.hop, ?_, ?_, ?_⟩, rfl⟩
  · rw [Path.hops_ofEdges, List.head?_map, hfirst]
    rfl
  · rw [Path.hops_ofEdges, List.getLast?_map, hlast]
    rfl
  · exact htarget.trans hsource.symm

/-! ## Plans -/

/-- What a plan makes of the survey of a driver. -/
lemma result_plan {limits : Limits} {node : Node} {openings : List (String × List Edge)}
    (hnode : g.nodeAt driver = .ok node) (hdriver : node.isDriver = true)
    (hopenings : g.openings .reset driver = .ok openings) :
    let survey := Survey.run (strategy g driver) { start := node.exeId, limits } openings
    (plan g limits driver).result = survey.result.map fun _ =>
      .ofList (survey.listings.toList.map fun (name, paths) =>
        (name, paths.filterMap Cycle.close?)) := by
  simp only [plan, hnode, hopenings, hdriver, if_true]
  generalize Survey.run (strategy g driver) { start := node.exeId, limits } openings = survey
  cases survey.result <;> rfl

/-- A node that is no driver has no plan. -/
lemma result_plan_of_not_isDriver {limits : Limits} {node : Node}
    (hnode : g.nodeAt driver = .ok node) (hdriver : node.isDriver = false) :
    (plan g limits driver).result = .error (.notALoopDriver node.exeId) := by
  obtain ⟨openings, hopenings⟩ := Graph.WellFormed.exists_openings .reset hnode
  simp [plan, hnode, hopenings, hdriver, Report.quiet]

/-- A plan holds the cycles among what its survey lists. -/
lemma exists_survey_of_plan {limits : Limits} {listing : Listing Cycle}
    (h : (plan g limits driver).result = .ok listing) :
    ∃ node openings, g.nodeAt driver = .ok node ∧ node.isDriver = true ∧
      g.openings .reset driver = .ok openings ∧
      (Survey.run (strategy g driver) { start := node.exeId, limits } openings).result = .ok () ∧
      listing = .ofList ((Survey.run (strategy g driver)
        { start := node.exeId, limits } openings).listings.toList.map
          fun (name, paths) => (name, paths.filterMap Cycle.close?)) := by
  cases hnode : g.nodeAt driver with
  | error e => simp [plan, hnode, Report.quiet] at h
  | ok node =>
    cases hdriver : node.isDriver with
    | false => simp [result_plan_of_not_isDriver hnode hdriver] at h
    | true =>
      obtain ⟨openings, hopenings⟩ := Graph.WellFormed.exists_openings .reset hnode
      rw [result_plan hnode hdriver hopenings] at h
      refine ⟨node, openings, rfl, hdriver, hopenings, ?_⟩
      cases hrun : (Survey.run (strategy g driver) { start := node.exeId, limits } openings).result with
      | error e => simp [hrun, Except.map] at h
      | ok _ => exact ⟨rfl, by simpa [hrun, Except.map] using h.symm⟩

lemma IsLoop.mem_edges (hg : g.WellFormed) (h : IsLoop g driver output w) :
    ∀ e ∈ w, e ∈ g.edges.toList := by
  obtain ⟨⟨first, hfirst, hthere, -⟩, hchain, -⟩ := h
  have hguided : w.IsChain fun e f => f ∈ (guide g driver).next e :=
    hchain.imp fun _ _ => Graph.mem_onward_iff.2
  exact Guide.mem_of_isChain (keepsTo_guide hg driver).next_subset hguided hfirst hthere

/-- A path that closes is the path of its cycle. -/
lemma path_eq_of_close? {path : Path} {cycle : Cycle} (h : Cycle.close? path = some cycle) :
    path = cycle.path := by
  unfold Cycle.close? at h
  split at h
  · exact congrArg Cycle.path (Option.some.inj h)
  · cases h

/-- Every cycle that is listed runs along a loop of the driver. -/
theorem exists_loop_of_holds (hg : g.WellFormed) {limits : Limits} {listing : Listing Cycle}
    (h : (plan g limits driver).result = .ok listing) {cycle : Cycle} (hcycle : listing.Holds cycle) :
    g.kind driver = .ok .driver ∧
      ∃ output w, IsLoop g driver output w ∧ Path.ofEdges w = cycle.path := by
  obtain ⟨node, openings, hnode, hdriver, hopenings, hrun, rfl⟩ := exists_survey_of_plan h
  have hkind : g.kind driver = .ok .driver := (Graph.kind_eq_driver_iff hnode).2 hdriver
  have hnodup := (hg.portsFit_of_nodeAt hnode).outputNames_nodup
  rw [← Survey.map_fst_listings hnode hopenings hrun] at hnodup
  obtain ⟨entry, hentry, hin⟩ := (Listing.holds_ofList_iff (by rwa [List.map_map])).1 hcycle
  obtain ⟨listing, hlisting, rfl⟩ := List.mem_map.1 hentry
  obtain ⟨path, hpath, hclose⟩ := List.mem_filterMap.1 hin
  have hsame := path_eq_of_close? hclose
  obtain ⟨opening, hmem, w, ⟨f, hf, hhead⟩, hfull, hlast, rfl⟩ :=
    Survey.exists_trail_of_mem_listings (keepsTo_guide hg driver)
      (hg.openings_subset hnode hopenings) hrun hlisting hpath
  obtain ⟨output, hopens⟩ := hg.exists_output_of_mem_openings hnode hopenings hmem
  exact ⟨hkind, output, w, (isLoop_iff hkind).2 ⟨⟨f, hhead, hopens f hf⟩, hfull, hlast⟩, hsame⟩

/-- A plan in a well-formed graph is that of a driver, and lists its loops. -/
theorem enumerates_of_plan (hg : g.WellFormed) {limits : Limits} {listing : Listing Cycle}
    (h : (plan g limits driver).result = .ok listing) :
    ∃ node, g.nodeAt driver = .ok node ∧ node.isDriver = true ∧
      listing.Enumerates g node (fun w => ⟨Path.ofEdges w⟩) (IsLoop g driver) := by
  obtain ⟨node, openings, hnode, hdriver, hopenings, hrun, rfl⟩ := exists_survey_of_plan h
  have hkind : g.kind driver = .ok .driver := (Graph.kind_eq_driver_iff hnode).2 hdriver
  refine ⟨node, hnode, hdriver, Listing.enumerates_ofList hg hnode ?_ ?_ fun i port hport => ?_⟩
  · rw [List.map_map]
    exact Survey.map_fst_listings hnode hopenings hrun
  · intro output v w hv hw heq
    have hhops := congrArg (fun c : Cycle => c.path.hops) heq
    simp only [Path.hops_ofEdges] at hhops
    exact hg.eq_of_map_hop (hv.mem_edges hg) (hw.mem_edges hg) hhops
  · have hrank : ∀ e ∈ g.edges.toList,
        ((guide g driver).next e).Pairwise fun f f' => g.position f < g.position f' :=
      fun e _ => hg.pairwise_onward (.after e)
    obtain ⟨trails, hmem, htrails, hordered⟩ :=
      Survey.exists_listing hg (keepsTo_guide hg driver) hrank hnode hopenings hrun hport
    have hloops : ∀ w, w ∈ trails ↔ IsLoop g driver ⟨i⟩ w := fun w =>
      (htrails w).trans (isLoop_iff hkind).symm
    refine ⟨trails, List.mem_map.2 ⟨_, hmem, Prod.ext rfl ?_⟩, hloops, hordered⟩
    -- every path listed closes
    have hclose : ∀ w ∈ trails, Cycle.close? (Path.ofEdges w) = some ⟨Path.ofEdges w⟩ :=
      fun w hw => ((hloops w).1 hw).close?_eq_some hg
    show (trails.map Path.ofEdges).filterMap Cycle.close? = _
    rw [List.filterMap_map, ← List.filterMap_eq_map]
    exact List.filterMap_congr hclose

/-- Whenever the plan of a reset has a result, its node is a driver, it has one entry for each output
of the driver, and the entry of an output lists exactly the loops out of it: none twice, and in the
lexicographic order of the positions of their edges. -/
theorem plan_lists_loops {source : Workflow} (hbuilt : Graph.ofWorkflow source = .ok g)
    {limits : Limits} {listing : Listing Cycle}
    (hplan : (plan g limits driver).result = .ok listing) :
    ∃ node, g.nodeAt driver = .ok node ∧ node.isDriver = true ∧
      listing.Enumerates g node (fun w => ⟨Path.ofEdges w⟩) (IsLoop g driver) :=
  enumerates_of_plan (Graph.wellFormed_ofWorkflow hbuilt) hplan

/-- The outer driver goes around the inner loop. -/
theorem plan_lists_loops_nestedLoops :
    Graph.ofWorkflow .nestedLoops = .ok .nestedLoops ∧
      ∃ listing node,
        (plan .nestedLoops (.ofGraph .nestedLoops) ⟨2⟩).result = .ok listing ∧
        Graph.nodeAt .nestedLoops ⟨2⟩ = .ok node ∧ node.isDriver = true ∧
        listing.Enumerates .nestedLoops node (fun w => ⟨Path.ofEdges w⟩)
          (IsLoop .nestedLoops ⟨2⟩) := by
  have hok : (plan .nestedLoops (.ofGraph .nestedLoops) ⟨2⟩).result.isOk = true := by
    cbv
  obtain ⟨listing, hplan⟩ := exists_ok_of_isOk hok
  obtain ⟨node, hnode, hdriver, hlists⟩ := plan_lists_loops Graph.ofWorkflow_nestedLoops hplan
  exact ⟨Graph.ofWorkflow_nestedLoops, listing, node, hplan, hnode, hdriver, hlists⟩

end WorkflowLoops.Reset

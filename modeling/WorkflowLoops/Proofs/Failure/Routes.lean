import Mathlib
import WorkflowLoops.Proofs.Failure.Trails

/-!
# The plan of a failure lists the routes

Whenever the plan of a failure has a result, it holds for every output of the node exactly the
routes out of that output.
-/

namespace WorkflowLoops.Failure

variable {g : Graph} {stop : StopRule} {start : NodeId} {output : PortIdx}

/-- A walk takes edges of its graph. -/
lemma IsWalk.mem_edges (hg : g.WellFormed) {w : List Edge} (h : IsWalk g stop start output w) :
    ∀ e ∈ w, e ∈ g.edges.toList := by
  obtain ⟨⟨first, hfirst, hopens⟩, hchain, -⟩ := h
  have hguided : w.IsChain fun e f => f ∈ (guide g stop).next e :=
    hchain.imp fun _ _ => Graph.mem_onward_iff.2
  exact Guide.mem_of_isChain (keepsTo_guide hg start).next_subset hguided hfirst hopens.1

/-- A plan in a well-formed graph lists the routes. -/
theorem enumerates_of_plan (hg : g.WellFormed) {limits : Limits} {listing : Listing Path}
    (h : (plan g limits stop false start).result = .ok listing) :
    ∃ node, g.nodeAt start = .ok node ∧
      listing.Enumerates g node Path.ofEdges (IsRoute g stop start) := by
  obtain ⟨node, openings, hnode, hopenings, hrun, rfl⟩ := exists_survey_of_plan h
  rw [if_neg Bool.false_ne_true]
  refine ⟨node, hnode, Listing.enumerates_ofList hg hnode
    (Survey.map_fst_listings hnode hopenings hrun) ?_ fun i port hport => ?_⟩
  · intro output v w hv hw heq
    have hhops := congrArg Path.hops heq
    rw [Path.hops_ofEdges, Path.hops_ofEdges] at hhops
    exact hg.eq_of_map_hop (hv.mem_edges hg) (hw.mem_edges hg) hhops
  · have hrank : ∀ e ∈ g.edges.toList,
        ((guide g stop).next e).Pairwise fun f f' => g.position f < g.position f' :=
      fun e _ => hg.pairwise_onward (.after e)
    obtain ⟨trails, hmem, htrails, hordered⟩ :=
      Survey.exists_listing hg (keepsTo_guide hg start) hrank hnode hopenings hrun hport
    refine ⟨trails, hmem, fun w => (htrails w).trans ?_, hordered⟩
    -- every full trail is listed
    rw [isRoute_iff]
    refine and_congr_right fun hopens => and_iff_left ?_
    obtain ⟨e, he, -⟩ := hopens
    obtain ⟨rest, rfl⟩ := List.head?_eq_some_iff.1 he
    exact ⟨_, List.getLast?_eq_some_getLast (List.cons_ne_nil e rest), rfl⟩

/-- Whenever the plan of a failure has a result, it has one entry for each output of the node, and
the entry of an output lists exactly the routes out of it: none twice, and in the lexicographic order
of the positions of their edges. -/
theorem plan_lists_routes {w : Workflow} (hbuilt : Graph.ofWorkflow w = .ok g) {limits : Limits}
    {listing : Listing Path} (hplan : (plan g limits stop false start).result = .ok listing) :
    ∃ node, g.nodeAt start = .ok node ∧
      listing.Enumerates g node Path.ofEdges (IsRoute g stop start) :=
  enumerates_of_plan (Graph.wellFormed_ofWorkflow hbuilt) hplan

/-- From the worker of the inner loop the routes go through both drivers. -/
theorem plan_lists_routes_nestedLoops :
    Graph.ofWorkflow .nestedLoops = .ok .nestedLoops ∧
      ∃ listing node,
        (plan .nestedLoops (.ofGraph .nestedLoops) .sink false ⟨0⟩).result = .ok listing ∧
        Graph.nodeAt .nestedLoops ⟨0⟩ = .ok node ∧
        listing.Enumerates .nestedLoops node Path.ofEdges (IsRoute .nestedLoops .sink ⟨0⟩) := by
  have hok : (plan .nestedLoops (.ofGraph .nestedLoops) .sink false ⟨0⟩).result.isOk = true := by
    cbv
  obtain ⟨listing, hplan⟩ := exists_ok_of_isOk hok
  obtain ⟨node, hnode, hlists⟩ := plan_lists_routes Graph.ofWorkflow_nestedLoops hplan
  exact ⟨Graph.ofWorkflow_nestedLoops, listing, node, hplan, hnode, hlists⟩

/-! ## Listed routes -/

/-- Keeping only the routes that end on a new input leaves out some routes. -/
lemma exists_sublist_of_foldl_keepNew (paths : List Path) :
    ∀ reached kept, ∃ rest, rest.Sublist paths ∧
      (paths.foldl keepNew (reached, kept)).2.toList = kept.toList ++ rest := by
  induction paths with
  | nil => exact fun _ _ => ⟨[], .slnil, by simp⟩
  | cons path paths ih =>
    intro reached kept
    have hstep : keepNew (reached, kept) path = (reached, kept) ∨
        ∃ reached', keepNew (reached, kept) path = (reached', kept.push path) := by
      simp only [keepNew]
      cases path.last? with
      | none => exact .inr ⟨reached, rfl⟩
      | some hop =>
        by_cases hold : (hop.target, hop.input) ∈ reached
        · exact .inl (if_pos hold)
        · exact .inr ⟨_, if_neg hold⟩
    rw [List.foldl_cons]
    rcases hstep with heq | ⟨reached', heq⟩
    · obtain ⟨rest, hrest, hall⟩ := ih reached kept
      exact ⟨rest, hrest.cons path, by rw [heq, hall]⟩
    · obtain ⟨rest, hrest, hall⟩ := ih reached' (kept.push path)
      exact ⟨path :: rest, hrest.cons_cons path, by rw [heq, hall]; simp⟩

/-- Without repeated ends a listing has the same outputs, with some of their routes. -/
lemma forall₂_dropRepeated (listings : List (String × List Path)) :
    List.Forall₂ (fun kept all => kept.1 = all.1 ∧ kept.2.Sublist all.2) (dropRepeated listings)
      listings := by
  have hfold : ∀ reached done, ∃ rest,
      List.Forall₂ (fun kept all => kept.1 = all.1 ∧ kept.2.Sublist all.2) rest listings ∧
      (listings.foldl dropRepeated.perOutput (reached, done)).2.toList = done.toList ++ rest := by
    induction listings with
    | nil => exact fun _ _ => ⟨[], .nil, by simp⟩
    | cons listing listings ih =>
      intro reached done
      obtain ⟨name, paths⟩ := listing
      obtain ⟨kept, hkept, heq⟩ := exists_sublist_of_foldl_keepNew paths reached #[]
      obtain ⟨rest, hrest, hall⟩ := ih (paths.foldl keepNew (reached, #[])).1
        (done.push (name, (paths.foldl keepNew (reached, #[])).2.toList))
      refine ⟨(name, kept) :: rest, .cons ⟨rfl, hkept⟩ hrest, ?_⟩
      rw [List.foldl_cons, dropRepeated.perOutput, hall, heq]
      simp
  obtain ⟨rest, hrest, hall⟩ := hfold [] #[]
  rw [dropRepeated, hall]
  simpa using hrest

/-- Every path that is listed runs along a route, whether repeated ends are dropped or not. -/
theorem exists_route_of_holds (hg : g.WellFormed) {limits : Limits} {dedup : Bool}
    {listing : Listing Path} (h : (plan g limits stop dedup start).result = .ok listing) {path : Path}
    (hpath : listing.Holds path) :
    ∃ output w, IsRoute g stop start output w ∧ Path.ofEdges w = path := by
  obtain ⟨node, openings, hnode, hopenings, hrun, rfl⟩ := exists_survey_of_plan h
  have hnames := Survey.map_fst_listings hnode hopenings hrun
  have hnodup := (hg.portsFit_of_nodeAt hnode).outputNames_nodup
  rw [← hnames] at hnodup
  -- a path that was kept is one of all
  have hall : ∃ entry ∈ (Survey.run (strategy g stop start) { start := node.exeId, limits }
      openings).listings.toList, path ∈ entry.2 := by
    cases dedup with
    | false => exact (Listing.holds_ofList_iff hnodup).1 hpath
    | true =>
      have hkept := forall₂_dropRepeated (Survey.run (strategy g stop start)
        { start := node.exeId, limits } openings).listings.toList
      have hsame := (List.forall₂_map_left_iff.2 (List.forall₂_map_right_iff.2
        (hkept.imp fun _ _ h => h.1)))
      rw [List.forall₂_eq_eq_eq] at hsame
      obtain ⟨entry, hentry, hin⟩ := (Listing.holds_ofList_iff (hsame ▸ hnodup)).1 hpath
      obtain ⟨i, hi, rfl⟩ := List.getElem_of_mem hentry
      have hi' := hkept.length_eq ▸ hi
      exact ⟨_, List.getElem_mem hi', (hkept.get hi hi').2.subset hin⟩
  obtain ⟨entry, hentry, hin⟩ := hall
  obtain ⟨opening, hmem, w, ⟨f, hf, hhead⟩, hfull, -, rfl⟩ :=
    Survey.exists_trail_of_mem_listings (keepsTo_guide hg start)
      (hg.openings_subset hnode hopenings) hrun hentry hin
  obtain ⟨output, hopens⟩ := hg.exists_output_of_mem_openings hnode hopenings hmem
  exact ⟨output, w, isRoute_iff.2 ⟨⟨f, hhead, hopens f hf⟩, hfull⟩, rfl⟩

end WorkflowLoops.Failure

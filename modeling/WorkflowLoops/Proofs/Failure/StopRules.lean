import Mathlib
import WorkflowLoops.Proofs.Reset.Governance
import WorkflowLoops.Proofs.Search.Limits

/-!
# The governing driver cuts routes short

A failure that is reported up to the governing driver goes along edges that it also goes along on its
way to the sinks, as the rules of the way out are the stricter ones. Without controllers it remembers
nodes in the same way, so a trail to the driver is one towards the sinks (`IsTrail.sink`), and it can be
extended to a route there (`IsRoute.exists_append`).

Without drivers either, the two stop rules make the same search (`strategy_of_plain`). So the paths to the
governing driver begin those to the sinks, and where there is no driver they are the same
(`failureRoutes_begin`).
-/

namespace WorkflowLoops

namespace Failure

variable {g : Graph} {start : NodeId} {output : PortIdx} {w : List Edge} {e f : Edge}

/-! ## Routes to the driver and to the sinks -/

/-- Out of a loop a walk goes on only where data flows. -/
lemma goesOn_flow {spot : Spot} (h : g.GoesOn .exit spot e) : g.GoesOn .flow spot e := by
  obtain ⟨kind, hkind, hleaving, hfollows⟩ := Graph.goesOn_iff.1 h
  refine Graph.goesOn_iff.2 ⟨kind, hkind, hleaving, ?_⟩
  cases harrival : spot.arrival with
  | start =>
    rw [harrival, Walk.follows_start_iff] at hfollows
    exact Walk.follows_start_iff.2 ⟨hfollows.1, nofun, nofun⟩
  | via entered =>
    rw [harrival, Walk.follows_via_iff] at hfollows
    exact Walk.follows_via_iff.2 ⟨hfollows.1, hfollows.2.1, by simp, nofun⟩

/-- Without controllers every stop rule remembers a node by itself. -/
lemma keyOf_eq (hcontrollers : ∀ id, g.kind id ≠ .ok .controller) (stop : StopRule) (e : Edge) :
    keyOf g stop e = ⟨e.target, none⟩ := by
  rw [keyOf, if_neg]
  rintro ⟨-, hcontroller⟩
  exact hcontrollers _ (Graph.isController_iff.1 hcontroller)

/-- A trail towards the governing driver is a trail towards the sinks. -/
theorem IsTrail.sink (hcontrollers : ∀ id, g.kind id ≠ .ok .controller)
    (h : IsTrail g .governingDriver start output w) : IsTrail g .sink start output w := by
  obtain ⟨⟨⟨first, hfirst, hthere, hsource, houtput, kind, hkind, hfollows⟩, hchain, -⟩, hsimple⟩ := h
  refine ⟨⟨⟨first, hfirst, hthere, hsource, houtput, kind, hkind, ?_⟩, ?_, nofun⟩, ?_⟩
  · exact Walk.follows_start_iff.2 ⟨(Walk.follows_start_iff.1 hfollows).1, nofun, nofun⟩
  · exact hchain.imp fun _ _ => goesOn_flow
  · rwa [funext (keyOf_eq hcontrollers _)] at hsimple ⊢

/-- A route to the governing driver begins a route to the sinks. -/
theorem IsRoute.exists_append (hg : g.WellFormed) (hcontrollers : ∀ id, g.kind id ≠ .ok .controller)
    (h : IsRoute g .governingDriver start output w) :
    ∃ rest, IsRoute g .sink start output (w ++ rest) := by
  obtain ⟨⟨first, hfirst, hopens⟩, htrail⟩ := isTrail_iff.1 (h.toIsTrail.sink hcontrollers)
  obtain ⟨rest, hrest⟩ :=
    Guide.exists_isFullTrail (keepsTo_guide hg start).next_subset hfirst hopens.1 htrail
  refine ⟨rest, isRoute_iff.2 ⟨⟨first, ?_, hopens⟩, hrest⟩⟩
  rw [List.head?_append, hfirst]
  rfl

/-- The limits that let a plan come to its end do not change what it lists. -/
lemma eq_of_plan (hg : g.WellFormed) {node : Node} (hnode : g.nodeAt start = .ok node) {stop : StopRule}
    {dedup : Bool} {limits limits' : Limits} {listing listing' : Listing Path}
    (h : (plan g limits stop dedup start).result = .ok listing)
    (h' : (plan g limits' stop dedup start).result = .ok listing') : listing = listing' := by
  obtain ⟨branches, full, -, hbounded, -⟩ := @bounded_plan g stop start dedup node hg hnode
  have hfull : plan g limits stop dedup start = full := hbounded.untouched limits listing h
  have hfull' : plan g limits' stop dedup start = full := hbounded.untouched limits' listing' h'
  rw [hfull] at h
  rw [hfull', h] at h'
  exact Except.ok.inj h'

/-! ## Graphs without drivers -/

/-- At a node that is neither driver nor controller all walks go on in the same way. -/
lemma follows_plain : Walk.exit.follows .plain = Walk.flow.follows .plain := by
  funext arrival role
  cases arrival with
  | start => cases role <;> rfl
  | via entered => cases entered <;> cases role <;> rfl

section Plain

variable (hplain : ∀ id kind, g.kind id = .ok kind → kind = .plain)

include hplain

lemma nextEdges_of_plain (spot : Spot) : g.nextEdges .exit spot = g.nextEdges .flow spot := by
  unfold Graph.nextEdges
  cases hkind : g.kind spot.node with
  | error err => rfl
  | ok kind =>
    obtain rfl := hplain _ _ hkind
    simp only [bind, Except.bind, follows_plain]

lemma openings_of_plain (start : NodeId) : g.openings .exit start = g.openings .flow start := by
  unfold Graph.openings
  cases hkind : g.kind start with
  | error err => rfl
  | ok kind =>
    obtain rfl := hplain _ _ hkind
    simp only [bind, Except.bind, follows_plain]

lemma visitOf_of_plain (e : Edge) : visitOf g .governingDriver e = visitOf g .sink e := by
  unfold visitOf
  cases hkind : g.kind e.target with
  | error err => rfl
  | ok kind =>
    obtain rfl := hplain _ _ hkind
    rfl

lemma endsAt_of_plain (e : Edge) : endsAt g .governingDriver e = endsAt g .sink e := by
  unfold endsAt
  cases henters : g.entersLoop e with
  | error err => rfl
  | ok enters =>
    cases enters with
    | false => rfl
    | true => cases hplain _ _ (Graph.entersLoop_eq_true_iff.1 henters).1

lemma followable_of_plain (onPath : List Visit) (e : Edge) :
    followable g .governingDriver onPath e = followable g .sink onPath e := by
  unfold followable
  simp only [StopRule.walk, nextEdges_of_plain hplain, funext (visitOf_of_plain hplain)]

/-- Where all nodes are plain the stop rules make the same search. -/
theorem strategy_of_plain (start : NodeId) :
    strategy g .governingDriver start = strategy g .sink start := by
  have hmove : move g .governingDriver = move g .sink := by
    funext onPath e
    unfold move
    simp only [endsAt_of_plain hplain, visitOf_of_plain hplain, followable_of_plain hplain]
  rw [strategy, strategy, hmove]

/-- Where all nodes are plain the stop rules have the same result. -/
theorem result_plan_of_plain (limits : Limits) (dedup : Bool) {node : Node}
    (hnode : g.nodeAt start = .ok node) :
    (plan g limits .governingDriver dedup start).result = (plan g limits .sink dedup start).result := by
  obtain ⟨openings, hflow⟩ := Graph.WellFormed.exists_openings .flow hnode
  have hexit : g.openings .exit start = .ok openings := (openings_of_plain hplain start).trans hflow
  have hdriver : (plan g limits .governingDriver dedup start).result = _ := result_plan hnode hexit
  have hsink : (plan g limits .sink dedup start).result = _ := result_plan hnode hflow
  rw [hdriver, hsink, strategy_of_plain hplain]

end Plain

end Failure

/-! ## Queries -/

variable {g : Graph}

/-- In a graph without controllers every path to the governing driver begins a path from the same output
to the sinks. If there are no drivers either, the paths are the same, in the same order. -/
theorem failureRoutes_begin {source : Workflow} (hbuilt : Graph.ofWorkflow source = .ok g)
    (hcontrollers : ∀ id, g.kind id ≠ .ok .controller) {limits limits' : Limits} {exeId : String}
    {listing listing' : Listing Path}
    (hdriver : (g.failureRoutes limits .governingDriver false exeId).result = .ok listing)
    (hsink : (g.failureRoutes limits' .sink false exeId).result = .ok listing') :
    (∀ (name : String) (paths : List Path), listing[name]? = some paths →
      ∃ paths', listing'[name]? = some paths' ∧
        ∀ path ∈ paths, ∃ path' ∈ paths', path.hops <+: path'.hops) ∧
    ((∀ node ∈ g.nodes.toList, node.isDriver = false) → listing = listing') := by
  have hg := Graph.wellFormed_ofWorkflow hbuilt
  obtain ⟨start, hstart, hplan⟩ := Report.result_andThen_eq_ok_iff.1 hdriver
  obtain ⟨start', hstart', hplan'⟩ := Report.result_andThen_eq_ok_iff.1 hsink
  obtain rfl : start = start' := Except.ok.inj (hstart.symm.trans hstart')
  obtain ⟨node, hnode, hlists⟩ := Failure.enumerates_of_plan hg hplan
  obtain ⟨node', hnode', hlists'⟩ := Failure.enumerates_of_plan hg hplan'
  obtain rfl : node = node' := Except.ok.inj (hnode.symm.trans hnode')
  constructor
  · intro name paths hpaths
    obtain ⟨i, port, hport, rfl⟩ := hlists.exists_output hpaths
    obtain ⟨walks, hentry, hwalks, -⟩ := hlists.entry i port hport
    obtain ⟨walks', hentry', hwalks', -⟩ := hlists'.entry i port hport
    obtain rfl := Option.some.inj (hpaths.symm.trans hentry)
    refine ⟨_, hentry', fun path hpath => ?_⟩
    obtain ⟨w, hw, rfl⟩ := List.mem_map.1 hpath
    obtain ⟨rest, hroute⟩ := ((hwalks w).1 hw).exists_append hg hcontrollers
    refine ⟨_, List.mem_map_of_mem ((hwalks' _).2 hroute), ?_⟩
    rw [Path.hops_ofEdges, Path.hops_ofEdges, List.map_append]
    exact List.prefix_append _ _
  · intro hdrivers
    have hplain : ∀ id kind, g.kind id = .ok kind → kind = .plain := by
      intro id kind hkind
      cases kind with
      | plain => rfl
      | controller => exact absurd hkind (hcontrollers id)
      | driver =>
        obtain ⟨n, hn, -⟩ := bind_eq_ok_iff.1 hkind
        have hthere := List.mem_of_getElem? (Graph.nodeAt_eq_ok_iff.1 hn)
        rw [Graph.kind_eq_driver_iff hn, hdrivers n hthere] at hkind
        cases hkind
    rw [Failure.result_plan_of_plain hplain limits false hnode] at hplan
    exact Failure.eq_of_plan hg hnode hplan hplan'

/-- In the loop within a loop the inner driver handles what goes on to the outer one otherwise. -/
theorem failureRoutes_begin_nestedLoops :
    Graph.ofWorkflow .nestedLoops = .ok .nestedLoops ∧
      (∀ id, Graph.kind .nestedLoops id ≠ .ok .controller) ∧ ∃ listing listing' paths paths',
        (Graph.failureRoutes .nestedLoops (.ofGraph .nestedLoops) .governingDriver false "work").result
          = .ok listing ∧
        (Graph.failureRoutes .nestedLoops (.ofGraph .nestedLoops) .sink false "work").result
          = .ok listing' ∧
        listing["out"]? = some paths ∧ paths.map Path.length = [1] ∧
        listing'["out"]? = some paths' ∧ paths'.map Path.length = [2] ∧
        ∀ path ∈ paths, ∃ path' ∈ paths', path.hops <+: path'.hops := by
  have hone : (Graph.failureRoutes .nestedLoops (.ofGraph .nestedLoops) .governingDriver false
      "work").result.map (·["out"]?.map (·.map Path.length)) = .ok (some [1]) := by
    cbv
  have htwo : (Graph.failureRoutes .nestedLoops (.ofGraph .nestedLoops) .sink false
      "work").result.map (·["out"]?.map (·.map Path.length)) = .ok (some [2]) := by
    cbv
  obtain ⟨listing, hlisting, hentry⟩ := map_eq_ok_iff.1 hone
  obtain ⟨listing', hlisting', hentry'⟩ := map_eq_ok_iff.1 htwo
  obtain ⟨paths, hpaths, hlengths⟩ := Option.map_eq_some_iff.1 hentry
  obtain ⟨paths', hpaths', hlengths'⟩ := Option.map_eq_some_iff.1 hentry'
  obtain ⟨later, hlater, hbegin⟩ := (failureRoutes_begin Graph.ofWorkflow_nestedLoops
    kind_nestedLoops_ne_controller hlisting hlisting').1 "out" paths hpaths
  obtain rfl := Option.some.inj (hpaths'.symm.trans hlater)
  exact ⟨Graph.ofWorkflow_nestedLoops, kind_nestedLoops_ne_controller, listing, listing', paths, paths',
    hlisting, hlisting', hpaths, hlengths, hpaths', hlengths', hbegin⟩

end WorkflowLoops

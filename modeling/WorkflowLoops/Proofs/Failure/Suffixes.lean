import Mathlib
import WorkflowLoops.Proofs.Failure.Consumers
import WorkflowLoops.Proofs.Reset.Governance

/-!
# Ends of routes

What a route does after a hop, it does as a route of the node that the hop leads to. That node may be
left as if a failure happened there (`opens_of_continues`), and it is remembered as a start is, or else
a start does not count for it (`keyOf_of_target`). So the rest of a route is a trail from there
(`IsTrail.rest`), and a route from there begins with it. If a driver takes over at its end, it is
itself such a route.
-/

namespace WorkflowLoops

lemma Path.last?_ofEdges (w : List Edge) : (ofEdges w).last? = w.getLast?.map Edge.hop := by
  simp [last?, ofEdges, along]

namespace Failure

variable {g : Graph} {stop : StopRule} {start : NodeId} {output : PortIdx} {e f : Edge}
  {w before after : List Edge}

/-- Where a node is remembered as a start is, every edge to it is remembered so. -/
lemma keyOf_of_target (h : keyOf g stop f = ⟨e.target, none⟩) :
    keyOf g stop e = keyOf g stop f := by
  obtain ⟨htarget, hvia⟩ := Visit.mk.inj h
  rw [h, keyOf]
  rw [htarget] at hvia
  split at hvia
  · cases hvia
  · rename_i hplain
    rw [if_neg hplain]

/-- The rest of a trail is a trail from where it starts. -/
theorem IsTrail.rest (hg : g.WellFormed) (h : IsTrail g stop start output (before ++ e :: f :: after)) :
    IsTrail g stop e.target f.output (f :: after) := by
  have hchain := (isWalk_iff.1 h.toIsWalk).2
  obtain ⟨-, hcontinues, hrest⟩ := List.isChain_append_cons_cons.1 hchain
  have hlong : (before ++ e :: f :: after).length ≠ 1 := by
    rw [List.length_append, List.length_cons, List.length_cons]
    omega
  have hkeys := (List.nodup_cons.1 (h.simple.resolve_left hlong)).2
  rw [List.map_append, List.map_cons] at hkeys
  obtain ⟨hnew, hnodup⟩ := List.nodup_cons.1 hkeys.of_append_right
  refine ⟨isWalk_iff.2 ⟨⟨f, rfl, opens_of_continues hg hcontinues⟩, hrest⟩, .inr ?_⟩
  refine List.nodup_cons.2 ⟨fun hback => ?_, hnodup⟩
  -- an edge that is remembered as the new start would be remembered as the edge that led there
  obtain ⟨x, hx, hkey⟩ := List.mem_map.1 hback
  exact hnew (List.mem_map.2 ⟨x, hx, (keyOf_of_target hkey).symm⟩)

/-- No trail goes on from where a driver takes over. -/
lemma IsTrail.not_entersLoop (h : IsTrail g .governingDriver start output (w ++ [f])) (he : e ∈ w) :
    g.entersLoop e ≠ .ok true :=
  h.passes rfl e (by rwa [List.dropLast_concat])

/-- The rest of a route begins a route from where it starts, and is one itself if a driver takes over at
its end. -/
theorem IsRoute.exists_rest (hg : g.WellFormed)
    (h : IsRoute g stop start output (before ++ e :: f :: after)) :
    (∃ more, IsRoute g stop e.target f.output (f :: after ++ more)) ∧
      ∀ last, stop = .governingDriver → (f :: after).getLast? = some last →
        g.entersLoop last = .ok true → IsRoute g stop e.target f.output (f :: after) := by
  have hrest := h.toIsTrail.rest hg
  constructor
  · obtain ⟨⟨first, hfirst, hopens⟩, htrail⟩ := isTrail_iff.1 hrest
    obtain ⟨more, hfull⟩ :=
      Guide.exists_isFullTrail (keepsTo_guide hg e.target).next_subset hfirst hopens.1 htrail
    exact ⟨more, isRoute_iff.2 ⟨⟨first, hfirst, hopens⟩, hfull⟩⟩
  · rintro last rfl hlast henters
    exact ⟨hrest, fun x hx => hx.not_entersLoop (List.mem_of_getLast? hlast) henters⟩

end Failure

/-! ## Queries -/

variable {g : Graph}

/-- After any of its hops a path of a failure goes on as a path of the node that the hop leads to begins,
out of the same output. If it ends where the governing driver takes over, then what is left of it is
such a path itself. -/
theorem failureRoutes_suffix {source : Workflow} (hbuilt : Graph.ofWorkflow source = .ok g)
    {limits limits' : Limits} {stop : StopRule} {exeId : String} {listing listing' : Listing Path}
    {path : Path} (hroutes : (g.failureRoutes limits stop false exeId).result = .ok listing)
    (hpath : listing.Holds path) {before after : List Hop} {into out : Hop}
    (hhops : path.hops = before ++ into :: out :: after) {node : Node}
    (hnode : g.nodeAt into.target = .ok node)
    (hroutes' : (g.failureRoutes limits' stop false node.exeId).result = .ok listing') :
    (∃ longer, listing'.HoldsAt node out.output longer ∧ out :: after <+: longer.hops) ∧
      ∀ last, stop = .governingDriver → path.last? = some last → last.EntersLoop g →
        ∃ rest, listing'.HoldsAt node out.output rest ∧ rest.hops = out :: after := by
  have hg := Graph.wellFormed_ofWorkflow hbuilt
  obtain ⟨start, -, hplan⟩ := Report.result_andThen_eq_ok_iff.1 hroutes
  obtain ⟨output, w, hroute, rfl⟩ := Failure.exists_route_of_holds hg hplan hpath
  -- the hops go along edges
  rw [Path.hops_ofEdges] at hhops
  obtain ⟨begins, rest, rfl, rfl, hrest⟩ := List.map_eq_append_iff.1 hhops
  obtain ⟨e, rest', rfl, rfl, hrest'⟩ := List.map_eq_cons_iff.1 hrest
  obtain ⟨f, ends, rfl, rfl, rfl⟩ := List.map_eq_cons_iff.1 hrest'
  obtain ⟨⟨more, hlonger⟩, hsame⟩ := hroute.exists_rest hg
  -- the node that the hop leads to lists its routes
  rw [Graph.failureRoutes, andThen_nodeId hg hnode] at hroutes'
  obtain ⟨node', hnode', hlists⟩ := Failure.enumerates_of_plan hg hroutes'
  obtain rfl : node' = node := Except.ok.inj (hnode'.symm.trans hnode)
  obtain ⟨first, hfirst, hopens⟩ := hlonger.opens
  obtain rfl : f = first := Option.some.inj hfirst
  obtain ⟨port, hport⟩ := hg.exists_port_of_opens hnode' hopens
  constructor
  · refine ⟨_, hlists.holdsAt hport hlonger, ?_⟩
    rw [Path.hops_ofEdges, List.map_append]
    exact List.prefix_append _ _
  · rintro last hstop hlast henters
    rw [Path.last?_ofEdges, List.getLast?_append_of_ne_nil _ (by simp), List.getLast?_cons_cons]
      at hlast
    obtain ⟨d, hd, rfl⟩ := Option.map_eq_some_iff.1 hlast
    have hthere := hroute.toIsWalk.mem_edges hg d
      (List.mem_append_right _ (List.mem_cons_of_mem _ (List.mem_of_getLast? hd)))
    have hrest := hsame d hstop hd ((entersLoop_hop_iff hg hthere).1 henters)
    exact ⟨_, hlists.holdsAt hport hrest, by simp⟩

/-- From the first worker of the loop of two drivers a failure goes over the other worker to the second
driver, and from the other worker it goes there too. -/
theorem failureRoutes_suffix_sharedLoop :
    Graph.ofWorkflow .sharedLoop = .ok .sharedLoop ∧
      ∃ listing listing' path node rest,
        (Graph.failureRoutes .sharedLoop (.ofGraph .sharedLoop) .governingDriver false "work").result
          = .ok listing ∧
        listing.Holds path ∧
        path.hops = [⟨⟨1⟩, ⟨0⟩, ⟨2⟩, ⟨0⟩, ⟨1⟩⟩, ⟨⟨2⟩, ⟨0⟩, ⟨3⟩, ⟨0⟩, ⟨2⟩⟩] ∧
        Graph.nodeAt .sharedLoop ⟨2⟩ = .ok node ∧
        (Graph.failureRoutes .sharedLoop (.ofGraph .sharedLoop) .governingDriver false
          node.exeId).result = .ok listing' ∧
        listing'.HoldsAt node ⟨0⟩ rest ∧ rest.hops = [⟨⟨2⟩, ⟨0⟩, ⟨3⟩, ⟨0⟩, ⟨2⟩⟩] := by
  obtain ⟨listing, hroutes, hpath⟩ : ∃ listing,
      (Graph.failureRoutes .sharedLoop (.ofGraph .sharedLoop) .governingDriver false "work").result
        = .ok listing ∧
      listing.Holds ⟨[⟨⟨2⟩, ⟨0⟩, ⟨3⟩, ⟨0⟩, ⟨2⟩⟩, ⟨⟨1⟩, ⟨0⟩, ⟨2⟩, ⟨0⟩, ⟨1⟩⟩]⟩ :=
    exists_listing_of_entry "out" (by cbv)
  obtain ⟨node, hnode, hname⟩ := map_eq_ok_iff.1
    (show (Graph.nodeAt .sharedLoop ⟨2⟩).map Node.exeId = .ok "check" by decide +kernel)
  obtain ⟨listing', hroutes'⟩ := exists_ok_of_isOk (x := (Graph.failureRoutes .sharedLoop
    (.ofGraph .sharedLoop) .governingDriver false "check").result) (by cbv)
  rw [← hname] at hroutes'
  have hhops : (Path.mk [⟨⟨2⟩, ⟨0⟩, ⟨3⟩, ⟨0⟩, ⟨2⟩⟩, ⟨⟨1⟩, ⟨0⟩, ⟨2⟩, ⟨0⟩, ⟨1⟩⟩]).hops
      = [] ++ ⟨⟨1⟩, ⟨0⟩, ⟨2⟩, ⟨0⟩, ⟨1⟩⟩ :: ⟨⟨2⟩, ⟨0⟩, ⟨3⟩, ⟨0⟩, ⟨2⟩⟩ :: [] := rfl
  obtain ⟨rest, hholds, hrest⟩ := (failureRoutes_suffix Graph.ofWorkflow_sharedLoop hroutes hpath
    hhops hnode hroutes').2 _ rfl rfl (by decide +kernel)
  exact ⟨Graph.ofWorkflow_sharedLoop, listing, listing', _, node, rest, hroutes, hpath, hhops, hnode,
    hroutes', hholds, hrest⟩

end WorkflowLoops

import WorkflowLoops.Proofs.Failure.Routes
import WorkflowLoops.Proofs.Search.Shortcuts
import WorkflowLoops.Proofs.Walk.Rules

/-!
# No consumer of a failure is left out

Routes never come back to where they were, walks may. Still the routes of a failure lead to every
node that a walk leads to (`exists_route_of_reaches`): where a walk comes back, its way around can be
left out, since what goes on after an edge is told by how a route remembers it (`keysDecide_guide`). A
driver is passed only from outside of its loop, a controller is remembered with its level, and for any
other node the level does not count.
-/

namespace WorkflowLoops.Failure

/-- Whether a failure of a node comes to another node along some walk. -/
def Reaches (g : Graph) (stop : StopRule) (start t : NodeId) : Prop :=
  ∃ output w e, IsWalk g stop start output w ∧ w.getLast? = some e ∧ e.target = t

/-- Whether a listing has a path through a node, or to it. -/
def Touches (listing : Listing Path) (t : NodeId) : Prop :=
  ∃ (name : String) (paths : List Path), listing[name]? = some paths ∧
    ∃ path ∈ paths, ∃ hop ∈ path.hops, hop.target = t

variable {g : Graph} {stop : StopRule} {start t : NodeId} {output : PortIdx} {w : List Edge}

/-! ## Walks as chains -/

/-- Whether a failure goes on along an edge after another one. -/
lemma continues_guide_iff {e f : Edge} :
    (guide g stop).Continues e f ↔
      (stop = .governingDriver → g.entersLoop e ≠ .ok true) ∧
        g.GoesOn stop.walk (.after e) f := by
  rw [Guide.Continues, ends_guide_eq_false_iff]
  exact and_congr_right fun _ => Graph.mem_onward_iff

lemma isWalk_iff :
    IsWalk g stop start output w ↔
      (∃ e, w.head? = some e ∧ g.Opens stop.walk start output e) ∧
        w.IsChain (guide g stop).Continues := by
  have hgoesOn : (w.IsChain fun e f => f ∈ (guide g stop).next e) ↔
      w.IsChain fun e f => g.GoesOn stop.walk (.after e) f :=
    ⟨fun h => h.imp fun _ _ => Graph.mem_onward_iff.1,
      fun h => h.imp fun _ _ => Graph.mem_onward_iff.2⟩
  rw [Guide.isChain_continues_iff, hgoesOn]
  simp only [ends_guide_eq_false_iff]
  constructor
  · rintro ⟨hopens, hchain, hpasses⟩
    exact ⟨hopens, hchain, fun e he hstop => hpasses hstop e he⟩
  · rintro ⟨hopens, hchain, hpasses⟩
    exact ⟨hopens, hchain, fun hstop e he => hpasses e he hstop⟩

/-- A walk leads to every node that it goes through. -/
lemma IsWalk.reaches (h : IsWalk g stop start output w) {e : Edge} (he : e ∈ w) :
    Reaches g stop start e.target := by
  obtain ⟨before, after, rfl⟩ := List.append_of_mem he
  have hsplit : before ++ e :: after = (before ++ [e]) ++ after := by simp
  rw [hsplit, isWalk_iff] at h
  obtain ⟨⟨first, hfirst, hopens⟩, hchain⟩ := h
  rw [List.head?_append_of_ne_nil _ (by simp)] at hfirst
  refine ⟨output, before ++ [e], e, isWalk_iff.2 ⟨⟨first, hfirst, hopens⟩, ?_⟩, by simp, rfl⟩
  exact hchain.left_of_append

/-! ## Keys decide what goes on -/

lemma walk_ne_flow_iff : stop.walk ≠ .flow ↔ stop = .governingDriver := by
  cases stop <;> simp [StopRule.walk]

lemma walk_eq_exit_iff : stop.walk = .exit ↔ stop = .governingDriver := by
  cases stop <;> simp [StopRule.walk]

/-- A driver is passed only from outside of its loop. -/
lemma eq_outer_of_ne {role : LoopRole} (hsame : role ≠ .same) (hinner : role ≠ .inner) :
    role = .outer := by
  cases role with
  | same => exact absurd rfl hsame
  | inner => exact absurd rfl hinner
  | outer => rfl

/-- What goes on from a node does not depend on the role with which it was entered, so long as drivers
are not entered on the level of their body and controllers are entered with the same role. -/
lemma follows_of_follows {kind : NodeKind} {entered entered' role role' : LoopRole}
    (hdriver : stop = .governingDriver → kind = .driver → entered ≠ .same ∧ entered' ≠ .same)
    (hcontroller : stop = .governingDriver → kind = .controller → entered = entered')
    (h : stop.walk.follows kind (.via entered) role = true)
    (h' : stop.walk.follows kind (.via entered') role' = true) :
    stop.walk.follows kind (.via entered') role = true := by
  rw [Walk.follows_via_iff, walk_ne_flow_iff, walk_eq_exit_iff] at h h' ⊢
  obtain ⟨hentered, hrole, hlevel, hother⟩ := h
  have hentered' := h'.1
  refine ⟨hentered', hrole, fun hstop hkind => ?_, fun hstop hkind => ?_⟩
  · obtain ⟨hsame, hsame'⟩ := hdriver hstop hkind
    rw [hlevel hstop hkind, eq_outer_of_ne hsame hentered, eq_outer_of_ne hsame' hentered']
  · rw [← hcontroller hstop hkind]
    exact hother hstop hkind

/-- Where a failure goes on from a node, it could also start there. -/
lemma opens_of_continues (hg : g.WellFormed) {e f : Edge} (h : (guide g stop).Continues e f) :
    g.Opens stop.walk e.target f.output f := by
  rw [continues_guide_iff, Graph.goesOn_iff] at h
  obtain ⟨hpass, kind, hkind, hleaving, hfollows⟩ := h
  obtain ⟨hf, hsource⟩ := hg.mem_leaving_iff.1 hleaving
  refine ⟨hf, hsource, rfl, kind, hkind, ?_⟩
  rw [Spot.after, Walk.follows_via_iff, walk_ne_flow_iff] at hfollows
  obtain ⟨hentered, hrole, hlevel, -⟩ := hfollows
  rw [Walk.follows_start_iff, walk_eq_exit_iff]
  refine ⟨hrole, fun hdriver hstop => ?_, fun _ hwalk => ?_⟩
  · -- a driver that is entered from outside is left as if the walk started there
    have hsame : e.targetRole ≠ .same := fun hrole => by
      refine hpass hstop (Graph.entersLoop_eq_true_iff.2 ⟨?_, hrole⟩)
      rw [← hdriver]
      exact hkind
    rw [hlevel hstop hdriver]
    exact eq_outer_of_ne hsame hentered
  · cases stop <;> cases hwalk

/-- What goes on after an edge is told by its key. -/
theorem keysDecide_guide (hg : g.WellFormed) (start : NodeId) :
    (guide g stop).KeysDecide ⟨start, none⟩ fun e =>
      ∃ output, g.Opens stop.walk start output e where
  along {e e' f f'} hkey h h' := by
    rw [continues_guide_iff, Graph.goesOn_iff] at h h' ⊢
    obtain ⟨hpass, kind, hkind, hleaving, hfollows⟩ := h
    obtain ⟨hpass', kind', hkind', -, hfollows'⟩ := h'
    obtain ⟨htarget, hvia⟩ := Visit.mk.inj hkey
    have hsame : (Spot.after e').node = (Spot.after e).node := htarget.symm
    rw [hsame, hkind] at hkind'
    obtain rfl := Except.ok.inj hkind'
    refine ⟨hpass', kind, by rw [hsame, hkind], by rwa [hsame], ?_⟩
    refine follows_of_follows ?_ ?_ hfollows hfollows'
    · rintro hstop rfl
      constructor
      · exact fun hrole => hpass hstop (Graph.entersLoop_eq_true_iff.2 ⟨hkind, hrole⟩)
      · intro hrole
        refine hpass' hstop (Graph.entersLoop_eq_true_iff.2 ⟨?_, hrole⟩)
        rwa [← htarget]
    · rintro hstop rfl
      have hcontroller : g.isController e.target = true := Graph.isController_iff.2 hkind
      rw [← htarget, if_pos ⟨hstop, hcontroller⟩, if_pos ⟨hstop, hcontroller⟩] at hvia
      exact Option.some.inj hvia
  back {e f} hkey h := by
    obtain ⟨htarget, -⟩ := Visit.mk.inj hkey
    exact ⟨f.output, htarget ▸ opens_of_continues hg h⟩

/-! ## The routes reach what the walks reach -/

/-- Every node that a walk leads to is on a route. -/
theorem exists_route_of_reaches (hg : g.WellFormed) (h : Reaches g stop start t) (ht : t ≠ start) :
    ∃ output w e, IsRoute g stop start output w ∧ e ∈ w ∧ e.target = t := by
  obtain ⟨output, w, e, hwalk, hlast, rfl⟩ := h
  obtain ⟨⟨first, hfirst, hopens⟩, hchain⟩ := isWalk_iff.1 hwalk
  have hroot : (guide g stop).key e ≠ ⟨start, none⟩ := fun hkey => ht (Visit.mk.inj hkey).1
  obtain ⟨v, hv⟩ := Guide.exists_leadsTo_of_isChain (keysDecide_guide hg start) hchain
    (fun x hx => ⟨output, by rw [hfirst] at hx; exact Option.some.inj hx ▸ hopens⟩) e hlast hroot
  obtain ⟨x, hhead, output', hopens'⟩ := hv.starts
  obtain ⟨e', hlast', hkey, -⟩ := hv.last
  have he' : e' ∈ v := List.mem_of_getLast? hlast'
  -- the trail goes on as far as it can
  obtain ⟨rest, hfull⟩ := Guide.exists_isFullTrail (keepsTo_guide hg start).next_subset hhead
    hopens'.1 hv.isTrail
  refine ⟨output', v ++ rest, e', isRoute_iff.2 ⟨⟨x, ?_, hopens'⟩, hfull⟩, ?_, ?_⟩
  · rw [List.head?_append, hhead]
    rfl
  · exact List.mem_append_left rest he'
  · exact (Visit.mk.inj hkey).1

/-- The routes of a failure of a node touch the same other nodes as its walks lead to: no consumer is
left out for the sake of not coming back. -/
theorem failureRoutes_reach {source : Workflow} (hbuilt : Graph.ofWorkflow source = .ok g)
    {limits : Limits} {exeId : String} {listing : Listing Path}
    (hroutes : (g.failureRoutes limits stop false exeId).result = .ok listing) :
    ∃ start, g.nodeId exeId = .ok start ∧
      ∀ t, t ≠ start → (Touches listing t ↔ Reaches g stop start t) := by
  have hg := Graph.wellFormed_ofWorkflow hbuilt
  obtain ⟨start, hstart, hplan⟩ := Report.result_andThen_eq_ok_iff.1 hroutes
  obtain ⟨node, hnode, hlists⟩ := enumerates_of_plan hg hplan
  refine ⟨start, hstart, fun t ht => ?_⟩
  constructor
  · rintro ⟨name, paths, hget, path, hpath, hop, hhop, rfl⟩
    obtain ⟨i, port, -, w, hroute, rfl⟩ := hlists.mem_iff.1 ⟨name, paths, hget, hpath⟩
    rw [Path.hops_ofEdges] at hhop
    obtain ⟨e, he, rfl⟩ := List.mem_map.1 hhop
    exact hroute.toIsWalk.reaches he
  · intro hreaches
    obtain ⟨output, w, e, hroute, he, rfl⟩ := exists_route_of_reaches hg hreaches ht
    obtain ⟨first, -, hthere, hsource, houtput, -⟩ := hroute.opens
    -- the output of the first edge is one of the node
    obtain ⟨node', hnode', hindex⟩ := hg.exists_source hthere
    rw [hsource, hnode] at hnode'
    obtain rfl := Except.ok.inj hnode'
    rw [houtput] at hindex
    have hlisted := hlists.mem_iff.2
      ⟨output.index, _, Array.getElem?_eq_getElem hindex, w, hroute, rfl⟩
    obtain ⟨name, paths, hget, hpath⟩ := hlisted
    refine ⟨name, paths, hget, Path.ofEdges w, hpath, e.hop, ?_, rfl⟩
    rw [Path.hops_ofEdges]
    exact List.mem_map_of_mem he

/-- In the loop within a loop the failure of the worker is looked at. -/
theorem failureRoutes_reach_nestedLoops :
    Graph.ofWorkflow .nestedLoops = .ok .nestedLoops ∧
      ∃ listing start,
        (Graph.failureRoutes .nestedLoops (.ofGraph .nestedLoops) .sink false "work").result
          = .ok listing ∧
        Graph.nodeId .nestedLoops "work" = .ok start ∧
        ∀ t, t ≠ start → (Touches listing t ↔ Reaches .nestedLoops .sink start t) := by
  have hok : (Graph.failureRoutes .nestedLoops (.ofGraph .nestedLoops) .sink false
      "work").result.isOk = true := by
    cbv
  obtain ⟨listing, hroutes⟩ := exists_ok_of_isOk hok
  obtain ⟨start, hstart, hreach⟩ := failureRoutes_reach Graph.ofWorkflow_nestedLoops hroutes
  exact ⟨Graph.ofWorkflow_nestedLoops, listing, start, hroutes, hstart, hreach⟩

end WorkflowLoops.Failure

import Mathlib
import WorkflowLoops.Proofs.Driver.Resolution
import WorkflowLoops.Proofs.Failure.Consumers

/-!
# The driver of a node and the routes of its failure

The search for the driver of a node explores no spot twice; the search for the routes of its failure
lists every path that does not come back. Still both are about the same walks out of the loop: a walk
of the failure passes where the exploration comes to (`exists_spot_of_isChain`,
`exists_isWalk_of_reaches`), so a driver is hit exactly if a failure enters its loop (`hits_iff`). From
this the two answers are compatible (`loopDriverOf_agrees`).
-/

namespace WorkflowLoops

/-- Whether a hop enters the loop of a driver. -/
def Hop.EntersLoop (g : Graph) (hop : Hop) : Prop :=
  ∃ e, g.edgeAt hop.edge = .ok e ∧ g.entersLoop e = .ok true

/-- What the answer to the question for the driver of a node says about the routes of a failure of the
node on the way to that driver. -/
structure Agrees (g : Graph) (start : NodeId) (listing : Listing Path) (answer : Except Error Node) :
    Prop where
  /-- Routes that end by entering the loop of a driver all end at the driver that is the answer, and
  some route goes there. -/
  driver : ∀ driver, answer = .ok driver →
    (∀ path, listing.Holds path → ∀ hop, path.last? = some hop → hop.EntersLoop g →
      hop.target = driver.id) ∧
    (driver.id ≠ start → Failure.Touches listing driver.id)
  /-- No route enters the loop of a driver if there is none. -/
  noDriver : (∃ name, answer = .error (.noGoverningDriver name)) ∨
      (∃ name, answer = .error (.malformed (.driverlessCycle name))) →
    ∀ path, listing.Holds path → ∀ hop ∈ path.hops, ¬ hop.EntersLoop g
  /-- Routes go to both of the drivers that are in conflict. -/
  conflict : ∀ name first second,
    answer = .error (.malformed (.conflictingDrivers name first second)) →
      ∃ d d', g.nodeId first = .ok d ∧ g.nodeId second = .ok d' ∧
        (d ≠ start → Failure.Touches listing d) ∧ (d' ≠ start → Failure.Touches listing d')

variable {g : Graph} {start d : NodeId} {node : Node} {listing : Listing Path}

/-! ## Both searches are about the same walks -/

namespace Failure

variable {stop : StopRule} {output : PortIdx} {e f : Edge} {w : List Edge}

lemma isWalk_singleton_iff :
    IsWalk g stop start output [e] ↔ g.Opens stop.walk start output e := by
  rw [isWalk_iff]
  simp

/-- A walk goes on where its last edge lets it. -/
lemma IsWalk.continue (h : IsWalk g stop start output (w ++ [e]))
    (hef : (guide g stop).Continues e f) : IsWalk g stop start output (w ++ [e] ++ [f]) := by
  rw [isWalk_iff] at h ⊢
  obtain ⟨⟨first, hfirst, hopens⟩, hchain⟩ := h
  refine ⟨⟨first, ?_, hopens⟩, ?_⟩
  · rw [List.head?_append_of_ne_nil _ (by simp), hfirst]
  · refine hchain.append (.singleton f) fun a ha b hb => ?_
    obtain rfl : e = a := by simpa using ha
    obtain rfl : f = b := by simpa using hb
    exact hef

end Failure

namespace Exploration

/-- A walk that sets out from a spot of an exploration takes edges that go on from such spots. -/
lemma exists_spot_of_isChain (hg : g.WellFormed) {w : List Edge}
    (hchain : w.IsChain (Failure.guide g .governingDriver).Continues)
    (hhead : ∀ e ∈ w.head?, ∃ spot, Reaches g start spot ∧ g.GoesOn .exit spot e) :
    ∀ e ∈ w, ∃ spot, Reaches g start spot ∧ g.GoesOn .exit spot e := by
  induction w with
  | nil => simp
  | cons e rest ih =>
    have hfirst := hhead e rfl
    rw [List.forall_mem_cons]
    refine ⟨hfirst, ih hchain.tail fun f hf => ?_⟩
    -- the walk does not end with the first edge, so the exploration goes along it
    obtain ⟨spot, hreach, hgoes⟩ := hfirst
    rw [List.isChain_cons] at hchain
    obtain ⟨hpass, hnext⟩ := Failure.continues_guide_iff.1 (hchain.1 f hf)
    obtain ⟨enters, henters⟩ := hg.exists_entersLoop (hg.goesOn_mem_edges hgoes).1
    have hleads : Leads g spot (.after e) := by
      refine ⟨e, hgoes, ?_, rfl⟩
      cases enters with
      | true => exact absurd henters (hpass rfl)
      | false => exact henters
    exact ⟨.after e, hreach.tail hleads, hnext⟩

/-- A failure can walk to every spot of an exploration, and on from there. -/
lemma exists_isWalk_of_reaches (hg : g.WellFormed) {spot : Spot} (h : Reaches g start spot) :
    ∀ e, g.GoesOn .exit spot e →
      ∃ output w, Failure.IsWalk g .governingDriver start output (w ++ [e]) := by
  induction h with
  | refl =>
    intro e hgoes
    obtain ⟨output, hopens⟩ := hg.goesOn_start_iff.1 hgoes
    exact ⟨output, [], Failure.isWalk_singleton_iff.2 hopens⟩
  | tail _ hstep ih =>
    intro e hgoes
    obtain ⟨f, hf, hpass, rfl⟩ := hstep
    obtain ⟨output, w, hwalk⟩ := ih f hf
    have hcontinues : (Failure.guide g .governingDriver).Continues f e := by
      refine Failure.continues_guide_iff.2 ⟨fun _ henters => ?_, hgoes⟩
      rw [hpass] at henters
      cases henters
    exact ⟨output, w ++ [f], hwalk.continue hcontinues⟩

/-- A driver is hit exactly if a failure enters its loop. -/
theorem hits_iff (hg : g.WellFormed) :
    Hits g start d ↔ ∃ output w e, Failure.IsWalk g .governingDriver start output w ∧ e ∈ w ∧
      g.entersLoop e = .ok true ∧ e.target = d := by
  constructor
  · rintro ⟨spot, e, hreach, hgoes, henters, htarget⟩
    obtain ⟨output, w, hwalk⟩ := exists_isWalk_of_reaches hg hreach e hgoes
    exact ⟨output, w ++ [e], e, hwalk, by simp, henters, htarget⟩
  · rintro ⟨output, w, e, hwalk, he, henters, htarget⟩
    obtain ⟨⟨first, hfirst, hopens⟩, hchain⟩ := Failure.isWalk_iff.1 hwalk
    have hhead : ∀ f ∈ w.head?, ∃ spot, Reaches g start spot ∧ g.GoesOn .exit spot f := by
      intro f hf
      obtain rfl : first = f := Option.some.inj (hfirst.symm.trans hf)
      exact ⟨⟨start, .start⟩, .refl, hg.goesOn_start_iff.2 ⟨output, hopens⟩⟩
    obtain ⟨spot, hreach, hgoes⟩ := exists_spot_of_isChain hg hchain hhead e he
    exact ⟨spot, e, hreach, hgoes, henters, htarget⟩

/-- The answer of a resolution is what the walks say, or it ran out of steps. -/
theorem answers_or_stepLimit (hg : g.WellFormed) (hnode : g.nodeAt start = .ok node)
    (limits : Limits) :
    Answers g start node.exeId (g.resolveDriver limits start).result ∨
      ∃ limit, (g.resolveDriver limits start).result
        = .error (.malformed (.stepLimitExceeded node.exeId limit)) := by
  rcases stops_or_finished hg hnode limits with ⟨err, herr, hstops⟩ | ⟨x, hfinished, hverdict⟩
  · rw [herr]
    cases hstops with
    | steps limit => exact .inr ⟨limit, rfl⟩
    | conflict hd hd' hne hfirst hsecond =>
      exact .inl (answers_of_conflict hd hd' hne hfirst hsecond)
  · have hname : x.budget.start = node.exeId :=
      Except.ok.inj (hfinished.named.symm.trans (hg.exeIdAt_of_nodeAt hnode))
    rw [hverdict]
    exact .inl (hfinished.answers hname)

end Exploration

/-! ## Listed routes and drivers that are hit -/

lemma Path.mem_hops_of_last? {path : Path} {hop : Hop} (h : path.last? = some hop) :
    hop ∈ path.hops := by
  rw [hops, List.mem_reverse]
  exact List.mem_of_mem_head? h

/-- A driver whose loop is entered by a route that is listed is hit. -/
lemma hits_of_holds (hg : g.WellFormed)
    (hlists : listing.Enumerates g node Path.ofEdges (Failure.IsRoute g .governingDriver start))
    {path : Path} (hpath : listing.Holds path) {hop : Hop} (hhop : hop ∈ path.hops)
    (henters : hop.EntersLoop g) : Exploration.Hits g start hop.target := by
  obtain ⟨i, port, -, w, hroute, rfl⟩ := hlists.mem_iff.1 hpath
  rw [Path.hops_ofEdges] at hhop
  obtain ⟨e, he, rfl⟩ := List.mem_map.1 hhop
  obtain ⟨e', hat, henters⟩ := henters
  -- the edge that the hop goes along is found again
  have hthere : e ∈ g.edges.toList := hroute.mem_edges hg e he
  obtain rfl : e = e' := Except.ok.inj ((hg.edgeAt_eq_ok hthere).symm.trans hat)
  exact (Exploration.hits_iff hg).2 ⟨⟨i⟩, w, e, hroute.toIsWalk, he, henters, rfl⟩

/-- A route goes to every driver that is hit, unless the failure comes from the driver itself. -/
lemma touches_of_hits (hg : g.WellFormed) (hnode : g.nodeAt start = .ok node)
    (hlists : listing.Enumerates g node Path.ofEdges (Failure.IsRoute g .governingDriver start))
    (h : Exploration.Hits g start d) (hd : d ≠ start) : Failure.Touches listing d := by
  obtain ⟨output, w, e, hwalk, he, -, rfl⟩ := (Exploration.hits_iff hg).1 h
  obtain ⟨output, w, f, hroute, hf, htarget⟩ :=
    Failure.exists_route_of_reaches hg (hwalk.reaches he) hd
  obtain ⟨first, -, hopens⟩ := hroute.opens
  obtain ⟨port, hport⟩ := hg.exists_port_of_opens hnode hopens
  obtain ⟨name, paths, hget, hpath⟩ := hlists.mem_iff.2 ⟨output.index, port, hport, w, hroute, rfl⟩
  refine ⟨name, paths, hget, Path.ofEdges w, hpath, f.hop, ?_, htarget⟩
  rw [Path.hops_ofEdges]
  exact List.mem_map_of_mem hf

/-! ## Queries -/

lemma loopDriverOf_eq_ok_iff {limits : Limits} {exeId : String} {driver : Node}
    (hstart : g.nodeId exeId = .ok start) :
    (g.loopDriverOf limits exeId).result = .ok driver ↔
      ∃ d, (g.resolveDriver limits start).result = .ok d ∧ g.nodeAt d = .ok driver := by
  rw [Graph.loopDriverOf, Report.result_andThen_eq_ok_iff]
  simp [Report.result_andThen_eq_ok_iff, Report.quiet, hstart]

/-- The query fails where the resolution does, other than by a fault. -/
lemma resolveDriver_eq_error {limits : Limits} {exeId : String} {err : Error}
    (hstart : g.nodeId exeId = .ok start)
    (hfault : ∀ fault, err ≠ .fault fault)
    (h : (g.loopDriverOf limits exeId).result = .error err) :
    (g.resolveDriver limits start).result = .error err := by
  rw [Graph.loopDriverOf, Report.result_andThen_eq_error_iff] at h
  rcases h with h | ⟨d, -, hnode⟩
  · simpa [Report.result_andThen_eq_error_iff, Report.quiet, hstart] using h
  · exact absurd (Graph.eq_fault_of_nodeAt hnode) (hfault _)

/-- Whenever the routes of a failure to the governing driver are all listed, they are compatible with
the answer to the question for that driver. -/
theorem loopDriverOf_agrees {source : Workflow} (hbuilt : Graph.ofWorkflow source = .ok g)
    {limits limits' : Limits} {exeId : String}
    (hroutes : (g.failureRoutes limits .governingDriver false exeId).result = .ok listing) :
    ∃ start, g.nodeId exeId = .ok start ∧
      Agrees g start listing (g.loopDriverOf limits' exeId).result := by
  have hg := Graph.wellFormed_ofWorkflow hbuilt
  obtain ⟨start, hstart, hplan⟩ := Report.result_andThen_eq_ok_iff.1 hroutes
  obtain ⟨node, hnode, hlists⟩ := Failure.enumerates_of_plan hg hplan
  have htouches : ∀ d, Exploration.Hits g start d → d ≠ start → Failure.Touches listing d :=
    fun d h hd => touches_of_hits hg hnode hlists h hd
  refine ⟨start, hstart, ?_⟩
  rcases Exploration.answers_or_stepLimit hg hnode limits' with hanswers | ⟨limit, hsteps⟩
  · refine { driver := ?_, noDriver := ?_, conflict := ?_ }
    · intro driver hdriver
      obtain ⟨d, hresolved, hat⟩ := (loopDriverOf_eq_ok_iff hstart).1 hdriver
      have hone := (hanswers.driver d).1 hresolved
      obtain rfl : driver.id = d := hg.id_of_nodeAt hat
      refine ⟨fun path hpath hop hlast henters => ?_, htouches _ ((hone _).2 rfl)⟩
      exact (hone _).1 (hits_of_holds hg hlists hpath (Path.mem_hops_of_last? hlast) henters)
    · intro hnone path hpath hop hhop henters
      have hhit := hits_of_holds hg hlists hpath hhop henters
      rcases hnone with ⟨name, herr⟩ | ⟨name, herr⟩
      · have hresolved := resolveDriver_eq_error hstart (by simp) herr
        exact ((hanswers.noLoop name).1 hresolved).2.1 _ hhit
      · have hresolved := resolveDriver_eq_error hstart (by simp) herr
        exact ((hanswers.driverless name).1 hresolved).2.1 _ hhit
    · intro name first second herr
      have hresolved := resolveDriver_eq_error hstart (by simp) herr
      obtain ⟨-, d, d', hd, hd', -, hfirst, hsecond⟩ := hanswers.conflict_names _ _ _ hresolved
      exact ⟨d, d', hg.nodeId_eq_ok_iff.2 hfirst, hg.nodeId_eq_ok_iff.2 hsecond, htouches d hd,
        htouches d' hd'⟩
  · -- out of steps, the answer says nothing
    have hanswer : (g.loopDriverOf limits' exeId).result
        = .error (.malformed (.stepLimitExceeded node.exeId limit)) := by
      rw [Graph.loopDriverOf, Report.result_andThen_eq_error_iff, Report.result_andThen_eq_error_iff]
      exact .inl (.inr ⟨start, hstart, hsteps⟩)
    rw [hanswer]
    exact { driver := by simp, noDriver := by simp, conflict := by simp }

/-- In the loop within a loop the routes of the worker go to its driver. -/
theorem loopDriverOf_agrees_nestedLoops :
    Graph.ofWorkflow .nestedLoops = .ok .nestedLoops ∧
      ∃ listing start,
        (Graph.failureRoutes .nestedLoops (.ofGraph .nestedLoops) .governingDriver false
          "work").result = .ok listing ∧
        Graph.nodeId .nestedLoops "work" = .ok start ∧
        Agrees .nestedLoops start listing
          (Graph.loopDriverOf .nestedLoops (.ofGraph .nestedLoops) "work").result := by
  have hok : (Graph.failureRoutes .nestedLoops (.ofGraph .nestedLoops) .governingDriver false
      "work").result.isOk = true := by
    cbv
  obtain ⟨listing, hroutes⟩ := exists_ok_of_isOk hok
  obtain ⟨start, hstart, hagrees⟩ := loopDriverOf_agrees Graph.ofWorkflow_nestedLoops hroutes
  exact ⟨Graph.ofWorkflow_nestedLoops, listing, start, hroutes, hstart, hagrees⟩

end WorkflowLoops

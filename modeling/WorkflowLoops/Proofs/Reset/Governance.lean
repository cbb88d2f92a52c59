import Mathlib
import WorkflowLoops.Proofs.Driver.Agreement
import WorkflowLoops.Proofs.Driver.Directory
import WorkflowLoops.Proofs.Reset.Cycles
import WorkflowLoops.Proofs.Search.Pace

/-!
# The driver that resets a node governs it

A cycle of a reset goes back to its driver, so from each of its nodes the rest of the cycle leads into
the loop of the driver. The rules of a reset and those on the way out of a loop differ at controllers
only, and at drivers entered on the level of their body. Where the rest of a cycle has neither, it is a
way out of the loop (`IsLoop.hits`), and the driver of the cycle is the answer for the node, unless the
node is led to another driver as well (`loopDriverOf_of_cycle`).

In a graph where no node is led to two drivers, the cycles of two drivers therefore have no edge in
common (`cycles_share_no_edge`).
-/

namespace WorkflowLoops

/-- Whether a hop enters a loop can be looked up. -/
instance (g : Graph) (hop : Hop) : Decidable (hop.EntersLoop g) :=
  decidable_of_iff ((g.edgeAt hop.edge >>= g.entersLoop) = .ok true) bind_eq_ok_iff

/-- Whether a controller, if a hop enters one, is left by the next hop on its other level. -/
def Hop.HandsOver (g : Graph) (into out : Hop) : Prop :=
  g.kind into.target = .ok .controller →
    ∃ e f, g.edgeAt into.edge = .ok e ∧ g.edgeAt out.edge = .ok f ∧
      (e.targetRole = .same ∧ f.sourceRole = .outer ∨ e.targetRole = .outer ∧ f.sourceRole = .same)

namespace Reset

variable {g : Graph} {driver : NodeId} {output : PortIdx} {e f : Edge}

/-! ## The way back as a way out -/

/-- On the way, a reset goes on as a walk out of a loop does, except where it stays on one level of a
controller. -/
lemma goesOn_exit (h : g.GoesOn .reset (.after e) f)
    (hover : g.kind e.target = .ok .controller → f.sourceRole ≠ e.targetRole) :
    g.GoesOn .exit (.after e) f := by
  obtain ⟨kind, hkind, hleaving, hfollows⟩ := Graph.goesOn_iff.1 h
  obtain ⟨hentered, hrole, hdriver, -⟩ := Walk.follows_via_iff.1 hfollows
  refine Graph.goesOn_iff.2 ⟨kind, hkind, hleaving, Walk.follows_via_iff.2 ⟨hentered, hrole, ?_, ?_⟩⟩
  · exact fun _ => hdriver (by decide)
  · rintro - rfl
    exact hover hkind

/-- A node on the way may also be where a walk out of a loop starts. -/
lemma goesOn_exit_start (h : g.GoesOn .reset (.after e) f) (hpass : g.entersLoop e ≠ .ok true) :
    g.GoesOn .exit ⟨e.target, .start⟩ f := by
  obtain ⟨kind, hkind, hleaving, hfollows⟩ := Graph.goesOn_iff.1 h
  obtain ⟨hentered, hrole, hdriver, -⟩ := Walk.follows_via_iff.1 hfollows
  refine Graph.goesOn_iff.2 ⟨kind, hkind, hleaving, Walk.follows_start_iff.2 ⟨hrole, ?_, nofun⟩⟩
  rintro rfl -
  -- a driver is entered from outside of its loop, and left to there
  have hsame : e.targetRole ≠ .same := fun hsame =>
    hpass (Graph.entersLoop_eq_true_iff.2 ⟨hkind, hsame⟩)
  rw [hdriver (by decide) rfl]
  cases hin : e.targetRole with
  | same => exact absurd hin hsame
  | outer => rfl
  | inner => exact absurd hin hentered

/-- What goes on as a reset does goes on as a walk out of a loop, if it enters no loop before its end
and every controller on it hands over. -/
lemma isChain_continues {w : List Edge} (hchain : w.IsChain fun e f => g.GoesOn .reset (.after e) f)
    (hpass : ∀ e ∈ w.dropLast, g.entersLoop e ≠ .ok true)
    (hover : w.IsChain fun e f => g.kind e.target = .ok .controller → f.sourceRole ≠ e.targetRole) :
    w.IsChain (Failure.guide g .governingDriver).Continues := by
  induction w with
  | nil => exact .nil
  | cons e rest ih =>
    cases rest with
    | nil => exact .singleton e
    | cons f rest =>
      rw [List.isChain_cons_cons] at hchain hover ⊢
      rw [List.dropLast_cons_cons, List.forall_mem_cons] at hpass
      refine ⟨Failure.continues_guide_iff.2 ⟨fun _ => hpass.1, ?_⟩, ih hchain.2 hpass.2 hover.2⟩
      exact goesOn_exit hchain.1 hover.1

/-- From a node on a loop the rest of the loop leads to its driver. -/
theorem IsLoop.hits (hg : g.WellFormed) (hkind : g.kind driver = .ok .driver)
    {before after : List Edge} (h : IsLoop g driver output (before ++ e :: after))
    (hafter : after ≠ []) (hpass : ∀ d ∈ (e :: after).dropLast, g.entersLoop d ≠ .ok true)
    (hover : after.IsChain fun d d' =>
      g.kind d.target = .ok .controller → d'.sourceRole ≠ d.targetRole) :
    Exploration.Hits g e.target driver := by
  obtain ⟨-, hchain, -, last, hlast, htarget, hrole⟩ := h
  have hrest := (List.isChain_append.1 hchain).2.1
  obtain ⟨f, rest, rfl⟩ := List.exists_cons_of_ne_nil hafter
  rw [List.isChain_cons_cons] at hrest
  rw [List.dropLast_cons_cons, List.forall_mem_cons] at hpass
  have hcontinues := isChain_continues hrest.2 hpass.2 hover
  have hhead : ∀ d ∈ (f :: rest).head?,
      ∃ spot, Exploration.Reaches g e.target spot ∧ g.GoesOn .exit spot d := by
    intro d hd
    obtain rfl : f = d := Option.some.inj hd
    exact ⟨⟨e.target, .start⟩, .refl, goesOn_exit_start hrest.1 hpass.1⟩
  have hmem : last ∈ f :: rest := by
    rw [List.getLast?_append_of_ne_nil _ (by simp), List.getLast?_cons_cons] at hlast
    exact List.mem_of_getLast? hlast
  obtain ⟨spot, hreach, hgoes⟩ := Exploration.exists_spot_of_isChain hg hcontinues hhead last hmem
  refine ⟨spot, last, hreach, hgoes, Graph.entersLoop_eq_true_iff.2 ⟨?_, hrole⟩, htarget⟩
  rwa [htarget]

/-- An edge of a loop enters the loop of the driver, and then it comes last, or else the driver governs
where it leads. -/
lemma IsLoop.enters_or_hits (hg : g.WellFormed) (hkind : g.kind driver = .ok .driver) {w : List Edge}
    (h : IsLoop g driver output w) (hcontrollers : ∀ id, g.kind id ≠ .ok .controller)
    (hpass : ∀ d ∈ w.dropLast, g.entersLoop d ≠ .ok true) (he : e ∈ w) :
    (g.entersLoop e = .ok true ∧ e.target = driver) ∨
      e ∈ w.dropLast ∧ Exploration.Hits g e.target driver := by
  obtain ⟨before, after, rfl⟩ := List.append_of_mem he
  rw [List.dropLast_append_cons] at hpass ⊢
  by_cases hafter : after = []
  · obtain ⟨-, -, -, last, hlast, htarget, hrole⟩ := h
    obtain rfl : e = last := by simpa [hafter] using hlast
    exact .inl ⟨Graph.entersLoop_eq_true_iff.2 ⟨by rwa [htarget], hrole⟩, htarget⟩
  · refine .inr ⟨?_, h.hits hg hkind hafter (fun d hd => hpass d (List.mem_append_right _ hd)) ?_⟩
    · obtain ⟨f, rest, rfl⟩ := List.exists_cons_of_ne_nil hafter
      simp
    · exact List.Pairwise.isChain (List.pairwise_of_forall fun d _ hd => absurd hd (hcontrollers _))

/-- Where no node is led to two drivers, loops with a common edge belong to one driver. -/
theorem IsLoop.driver_eq_of_mem (hg : g.WellFormed) {driver' : NodeId} {output' : PortIdx}
    {w w' : List Edge} (hkind : g.kind driver = .ok .driver) (hkind' : g.kind driver' = .ok .driver)
    (h : IsLoop g driver output w) (h' : IsLoop g driver' output' w')
    (hcontrollers : ∀ id, g.kind id ≠ .ok .controller)
    (hpass : ∀ d ∈ w.dropLast, g.entersLoop d ≠ .ok true)
    (hpass' : ∀ d ∈ w'.dropLast, g.entersLoop d ≠ .ok true)
    (hone : Exploration.Hits g e.target driver → Exploration.Hits g e.target driver' →
      driver = driver')
    (he : e ∈ w) (he' : e ∈ w') : driver = driver' := by
  rcases h.enters_or_hits hg hkind hcontrollers hpass he with ⟨henters, htarget⟩ | ⟨hin, hhit⟩
  · rcases h'.enters_or_hits hg hkind' hcontrollers hpass' he' with ⟨-, htarget'⟩ | ⟨hin', -⟩
    · exact htarget.symm.trans htarget'
    · exact absurd henters (hpass' e hin')
  · rcases h'.enters_or_hits hg hkind' hcontrollers hpass' he' with ⟨henters', -⟩ | ⟨-, hhit'⟩
    · exact absurd henters' (hpass e hin)
    · exact hone hhit hhit'

end Reset

/-- In a graph that has a directory of drivers no resolution runs out of steps. -/
lemma Directory.answers_of_ofGraph {g : Graph} (hg : g.WellFormed) {limits : Limits}
    {directory : Directory} (h : (ofGraph g limits).result = .ok directory) {start : NodeId}
    {node : Node} (hnode : g.nodeAt start = .ok node) :
    Exploration.Answers g start node.exeId (g.resolveDriver limits start).result := by
  obtain ⟨driver?, -, hentry⟩ := exists_entry_of_ofGraph hg h hnode
  rcases Exploration.answers_or_stepLimit hg hnode limits with hanswers | ⟨limit, hsteps⟩
  · exact hanswers
  · rw [hsteps] at hentry
    cases hentry

/-- In a graph that has a directory of drivers no node is led to two of them. -/
lemma Directory.hits_unique {g : Graph} (hg : g.WellFormed) {limits : Limits} {directory : Directory}
    (h : (ofGraph g limits).result = .ok directory) {start d d' : NodeId} {node : Node}
    (hnode : g.nodeAt start = .ok node) (hd : Exploration.Hits g start d)
    (hd' : Exploration.Hits g start d') : d = d' := by
  obtain ⟨driver?, -, hentry⟩ := exists_entry_of_ofGraph hg h hnode
  by_contra hne
  obtain ⟨n, first, second, hconflict⟩ :=
    (answers_of_ofGraph hg h hnode).conflict.2 ⟨d, d', hd, hd', hne⟩
  rw [hconflict] at hentry
  cases hentry

/-! ## Queries -/

variable {g : Graph} {limits : Limits} {exeId : String} {listing : Listing Cycle} {cycle : Cycle}

/-- A query for a node that is there is put to that node. -/
lemma andThen_nodeId (hg : g.WellFormed) {id : NodeId} {node : Node} (hnode : g.nodeAt id = .ok node)
    {α : Type} (f : NodeId → Report α) : (Report.quiet (g.nodeId node.exeId)).andThen f = f id := by
  rw [hg.nodeId_eq_ok_iff.2 (hg.exeIdAt_of_nodeAt hnode)]
  rfl

/-- A cycle that a query lists runs along a loop of the driver that was asked for. -/
lemma exists_loop_of_resetCycles (hg : g.WellFormed)
    (hcycles : (g.resetCycles limits exeId).result = .ok listing) (hcycle : listing.Holds cycle) :
    ∃ driver output w, g.nodeId exeId = .ok driver ∧ g.kind driver = .ok .driver ∧
      Reset.IsLoop g driver output w ∧ cycle.path.hops = w.map Edge.hop := by
  obtain ⟨driver, hdriver, hplan⟩ := Report.result_andThen_eq_ok_iff.1 hcycles
  obtain ⟨hkind, output, w, hloop, hpath⟩ := Reset.exists_loop_of_holds hg hplan hcycle
  exact ⟨driver, output, w, hdriver, hkind, hloop, by rw [← hpath, Path.hops_ofEdges]⟩

lemma entersLoop_hop_iff (hg : g.WellFormed) {e : Edge} (he : e ∈ g.edges.toList) :
    e.hop.EntersLoop g ↔ g.entersLoop e = .ok true := by
  simp [Hop.EntersLoop, Edge.hop, hg.edgeAt_eq_ok he]

/-- Where no hop but the last enters a loop, no edge but the last does. -/
lemma not_entersLoop_of_hops (hg : g.WellFormed) {w : List Edge}
    (hthere : ∀ e ∈ w, e ∈ g.edges.toList)
    (h : ∀ hop ∈ (w.map Edge.hop).dropLast, ¬ hop.EntersLoop g) :
    ∀ e ∈ w.dropLast, g.entersLoop e ≠ .ok true := by
  intro e he henters
  rw [← List.map_dropLast] at h
  exact h e.hop (List.mem_map_of_mem he)
    ((entersLoop_hop_iff hg (hthere e (List.mem_of_mem_dropLast he))).2 henters)

/-- Controllers that hand over between hops do so between their edges. -/
lemma isChain_of_handsOver (hg : g.WellFormed) {w : List Edge} (hthere : ∀ e ∈ w, e ∈ g.edges.toList)
    (h : (w.map Edge.hop).IsChain (Hop.HandsOver g)) :
    w.IsChain fun e f => g.kind e.target = .ok .controller → f.sourceRole ≠ e.targetRole := by
  rw [List.isChain_map] at h
  refine List.IsChain.imp_of_mem_imp (fun e f he hf hhands hkind => ?_) h
  obtain ⟨e', f', hat, hat', hroles⟩ := hhands hkind
  obtain rfl : e = e' := Except.ok.inj ((hg.edgeAt_eq_ok (hthere e he)).symm.trans hat)
  obtain rfl : f = f' := Except.ok.inj ((hg.edgeAt_eq_ok (hthere f hf)).symm.trans hat')
  rcases hroles with ⟨hin, hout⟩ | ⟨hin, hout⟩
  · rw [hin, hout]
    decide
  · rw [hin, hout]
    decide

/-- The query fails where the resolution does. -/
lemma loopDriverOf_eq_error {start : NodeId} {name : String} {err : Error}
    (hstart : g.nodeId name = .ok start) (h : (g.resolveDriver limits start).result = .error err) :
    (g.loopDriverOf limits name).result = .error err := by
  rw [Graph.loopDriverOf, Report.result_andThen_eq_error_iff, Report.result_andThen_eq_error_iff]
  exact .inl (.inr ⟨start, hstart, h⟩)

/-- What a query lists under a name is told by the entry alone. -/
lemma exists_listing_of_entry {α : Type} {result : Except Error (Listing α)} (name : String) {x : α}
    (h : result.map (·[name]?) = .ok (some [x])) :
    ∃ listing, result = .ok listing ∧ listing.Holds x := by
  cases result with
  | error err => cases h
  | ok listing => exact ⟨listing, rfl, name, [x], Except.ok.inj h, List.mem_singleton_self x⟩

/-- The cycle of the inner driver over its worker. -/
def innerCycle : Cycle :=
  ⟨⟨[⟨⟨0⟩, ⟨0⟩, ⟨1⟩, ⟨0⟩, ⟨0⟩⟩, ⟨⟨1⟩, ⟨0⟩, ⟨0⟩, ⟨0⟩, ⟨1⟩⟩]⟩⟩

/-- The cycle of the outer driver around the inner loop. -/
def outerCycle : Cycle :=
  ⟨⟨[⟨⟨1⟩, ⟨0⟩, ⟨2⟩, ⟨0⟩, ⟨2⟩⟩, ⟨⟨2⟩, ⟨0⟩, ⟨1⟩, ⟨0⟩, ⟨3⟩⟩]⟩⟩

lemma exists_listing_innerCycle : ∃ listing,
    (Graph.resetCycles .nestedLoops (.ofGraph .nestedLoops) "inner").result = .ok listing ∧
      listing.Holds innerCycle :=
  exists_listing_of_entry "out" (by cbv)

lemma exists_listing_outerCycle : ∃ listing,
    (Graph.resetCycles .nestedLoops (.ofGraph .nestedLoops) "outer").result = .ok listing ∧
      listing.Holds outerCycle :=
  exists_listing_of_entry "out" (by cbv)

/-- Every node on a cycle of a reset resolves to the driver of the cycle, or it is in conflict, if from
there on the cycle enters no loop before its end and every controller on it is left on the other
level. -/
theorem loopDriverOf_of_cycle {source : Workflow} (hbuilt : Graph.ofWorkflow source = .ok g)
    (hcycles : (g.resetCycles limits exeId).result = .ok listing) (hcycle : listing.Holds cycle)
    {before after : List Hop} {into : Hop} (hhops : cycle.path.hops = before ++ into :: after)
    (hafter : after ≠ []) (hpass : ∀ hop ∈ (into :: after).dropLast, ¬ hop.EntersLoop g)
    (hover : after.IsChain (Hop.HandsOver g)) :
    ∃ driver node, g.node exeId = .ok driver ∧ g.nodeAt into.target = .ok node ∧
      ((g.loopDriverOf (.ofGraph g) node.exeId).result = .ok driver ∨
        ∃ first second, (g.loopDriverOf (.ofGraph g) node.exeId).result
          = .error (.malformed (.conflictingDrivers node.exeId first second))) := by
  have hg := Graph.wellFormed_ofWorkflow hbuilt
  obtain ⟨start, output, w, hstart, hkind, hloop, hw⟩ := exists_loop_of_resetCycles hg hcycles hcycle
  have hthere := hloop.mem_edges hg
  -- the hops from the node on go along the edges from the node on
  rw [hhops] at hw
  obtain ⟨begins, rest, rfl, rfl, hrest⟩ := List.map_eq_append_iff.1 hw.symm
  obtain ⟨e, ends, rfl, rfl, rfl⟩ := List.map_eq_cons_iff.1 hrest
  rw [List.forall_mem_append] at hthere
  have hhit := hloop.hits hg hkind (by simpa using hafter)
    (not_entersLoop_of_hops hg hthere.2 hpass)
    (isChain_of_handsOver hg (fun d hd => hthere.2 d (List.mem_cons_of_mem _ hd)) hover)
  obtain ⟨node, hnode, -⟩ := hg.exists_target (hthere.2 e (List.mem_cons_self ..))
  obtain ⟨driver, hdriver, -⟩ := hg.exists_nodeAt_of_nodeId hstart
  refine ⟨driver, node, bind_eq_ok_iff.2 ⟨start, hstart, hdriver⟩, hnode, ?_⟩
  have hid : g.nodeId node.exeId = .ok e.target :=
    hg.nodeId_eq_ok_iff.2 (hg.exeIdAt_of_nodeAt hnode)
  rcases Exploration.answers_or_stepLimit hg hnode (.ofGraph g) with hanswers | ⟨limit, hsteps⟩
  · rcases hanswers.cases with ⟨d, hresult, hone⟩ | ⟨first, second, hresult, -⟩ |
      ⟨-, hnone, -⟩ | ⟨-, hnone, -⟩
    · obtain rfl := (hone start).1 hhit
      exact .inl ((loopDriverOf_eq_ok_iff hid).2 ⟨_, hresult, hdriver⟩)
    · exact .inr ⟨first, second, loopDriverOf_eq_error hid hresult⟩
    · exact absurd hhit (hnone start)
    · exact absurd hhit (hnone start)
  · exact absurd hsteps (Exploration.resolveDriver_ne_stepLimit hg (Limits.edgeCount_lt g))

/-- The outer driver resets the inner one, and governs it. -/
theorem loopDriverOf_of_cycle_nestedLoops :
    Graph.ofWorkflow .nestedLoops = .ok .nestedLoops ∧
      ∃ listing driver node,
        (Graph.resetCycles .nestedLoops (.ofGraph .nestedLoops) "outer").result = .ok listing ∧
        listing.Holds outerCycle ∧ Graph.node .nestedLoops "outer" = .ok driver ∧
        Graph.nodeAt .nestedLoops ⟨1⟩ = .ok node ∧
        ((Graph.loopDriverOf .nestedLoops (.ofGraph .nestedLoops) node.exeId).result = .ok driver ∨
          ∃ first second,
            (Graph.loopDriverOf .nestedLoops (.ofGraph .nestedLoops) node.exeId).result
              = .error (.malformed (.conflictingDrivers node.exeId first second))) := by
  obtain ⟨listing, hcycles, hcycle⟩ := exists_listing_outerCycle
  have hhops : outerCycle.path.hops
      = [] ++ ⟨⟨2⟩, ⟨0⟩, ⟨1⟩, ⟨0⟩, ⟨3⟩⟩ :: [⟨⟨1⟩, ⟨0⟩, ⟨2⟩, ⟨0⟩, ⟨2⟩⟩] := rfl
  obtain ⟨driver, node, hdriver, hnode, hresult⟩ :=
    loopDriverOf_of_cycle Graph.ofWorkflow_nestedLoops hcycles hcycle hhops (by simp)
      (by decide +kernel) (.singleton _)
  exact ⟨Graph.ofWorkflow_nestedLoops, listing, driver, node, hcycles, hcycle, hdriver, hnode,
    hresult⟩

/-- In a graph without controllers in which every node has at most one driver, the cycles of two drivers
have no edge in common, if they enter no loop before their ends. -/
theorem cycles_share_no_edge {source : Workflow} (hbuilt : Graph.ofWorkflow source = .ok g)
    (hcontrollers : ∀ id, g.kind id ≠ .ok .controller) {directory : Directory}
    (hdirectory : (Directory.ofGraph g (.ofGraph g)).result = .ok directory)
    {limits' : Limits} {exeId' : String} {listing' : Listing Cycle} {cycle' : Cycle}
    (hcycles : (g.resetCycles limits exeId).result = .ok listing) (hcycle : listing.Holds cycle)
    (hcycles' : (g.resetCycles limits' exeId').result = .ok listing') (hcycle' : listing'.Holds cycle')
    (hne : exeId ≠ exeId') (hpass : ∀ hop ∈ cycle.path.hops.dropLast, ¬ hop.EntersLoop g)
    (hpass' : ∀ hop ∈ cycle'.path.hops.dropLast, ¬ hop.EntersLoop g) :
    ∀ hop ∈ cycle.path.hops, ∀ hop' ∈ cycle'.path.hops, hop.edge ≠ hop'.edge := by
  have hg := Graph.wellFormed_ofWorkflow hbuilt
  obtain ⟨d, output, w, hd, hkind, hloop, hhops⟩ := exists_loop_of_resetCycles hg hcycles hcycle
  obtain ⟨d', output', w', hd', hkind', hloop', hhops'⟩ :=
    exists_loop_of_resetCycles hg hcycles' hcycle'
  rw [hhops] at hpass ⊢
  rw [hhops'] at hpass' ⊢
  intro hop hhop hop' hhop' hsame
  obtain ⟨e, he, rfl⟩ := List.mem_map.1 hhop
  obtain ⟨e', he', rfl⟩ := List.mem_map.1 hhop'
  -- one number, one edge
  have hthere := hloop.mem_edges hg e he
  have hedge := hg.edgeAt_eq_ok (hloop'.mem_edges hg e' he')
  have hsame : e.id = e'.id := hsame
  rw [← hsame, hg.edgeAt_eq_ok hthere] at hedge
  obtain rfl : e = e' := Except.ok.inj hedge
  obtain ⟨node, hnode, -⟩ := hg.exists_target hthere
  have heq : d = d' := hloop.driver_eq_of_mem hg hkind hkind' hloop' hcontrollers
    (not_entersLoop_of_hops hg (hloop.mem_edges hg) hpass)
    (not_entersLoop_of_hops hg (hloop'.mem_edges hg) hpass')
    (Directory.hits_unique hg hdirectory hnode) he he'
  rw [heq] at hd
  have hname := hg.nodeId_eq_ok_iff.1 hd
  rw [hg.nodeId_eq_ok_iff.1 hd'] at hname
  exact hne (Except.ok.inj hname).symm

lemma kind_nestedLoops_ne_controller (id : NodeId) : Graph.kind .nestedLoops id ≠ .ok .controller := by
  intro hkind
  obtain ⟨node, hnode, -⟩ := bind_eq_ok_iff.1 hkind
  obtain ⟨hi, -⟩ := List.getElem?_eq_some_iff.1 (Graph.nodeAt_eq_ok_iff.1 hnode)
  have hlength : Graph.nestedLoops.nodes.toList.length = 3 := by decide +kernel
  have hkinds : ∀ i < 3, Graph.kind .nestedLoops ⟨i⟩ ≠ .ok .controller := by decide +kernel
  exact hkinds id.index (hlength ▸ hi) hkind

/-- The inner and the outer driver reset different edges. -/
theorem cycles_share_no_edge_nestedLoops :
    Graph.ofWorkflow .nestedLoops = .ok .nestedLoops ∧
      ∃ directory listing listing',
        (Directory.ofGraph .nestedLoops (.ofGraph .nestedLoops)).result = .ok directory ∧
        (Graph.resetCycles .nestedLoops (.ofGraph .nestedLoops) "inner").result = .ok listing ∧
        (Graph.resetCycles .nestedLoops (.ofGraph .nestedLoops) "outer").result = .ok listing' ∧
        listing.Holds innerCycle ∧ listing'.Holds outerCycle ∧
        ∀ hop ∈ innerCycle.path.hops, ∀ hop' ∈ outerCycle.path.hops, hop.edge ≠ hop'.edge := by
  obtain ⟨listing, hcycles, hcycle⟩ := exists_listing_innerCycle
  obtain ⟨listing', hcycles', hcycle'⟩ := exists_listing_outerCycle
  have hok : (Directory.ofGraph .nestedLoops (.ofGraph .nestedLoops)).result.isOk = true := by
    cbv
  obtain ⟨directory, hdirectory⟩ := exists_ok_of_isOk hok
  exact ⟨Graph.ofWorkflow_nestedLoops, directory, listing, listing', hdirectory, hcycles, hcycles',
    hcycle, hcycle',
    cycles_share_no_edge Graph.ofWorkflow_nestedLoops kind_nestedLoops_ne_controller hdirectory
      hcycles hcycle hcycles' hcycle' (by decide) (by decide +kernel) (by decide +kernel)⟩

end WorkflowLoops

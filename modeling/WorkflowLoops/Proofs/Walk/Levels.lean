import Mathlib
import WorkflowLoops.Proofs.Driver.Agreement
import WorkflowLoops.Proofs.Reset.Cycles

/-!
# Walks stay on their level

In a workflow of nested loops every node has a level, and an edge joins its two nodes on one level: a
driver stands with its body on the level of its loop, and with its outside on the one around it
(`Leveled`). A walk that leaves its start on a level then stays on it: so does each step
(`Leveled.runsOn_of_goesOn`), and so the whole walk (`Leveled.runsOn_of_isChain`). This is the law of
the nearest driver: neither the search for a driver nor the routes towards it nor the cycles of a reset
come into an enclosing or a nested loop (`walks_stay_on_level`).
-/

namespace WorkflowLoops

/-- The level on which a node takes part in an edge that plays a role for it. Broadcasts have none. -/
def levelOf (level : NodeId → ℤ) (node : NodeId) : LoopRole → Option ℤ
  | .same => some (level node)
  | .outer => some (level node - 1)
  | .inner => none

/-- Whether levels of the nodes are those of nested loops: only drivers take part in the level around
their own, and apart from broadcasts an edge joins its nodes on one level. -/
structure Leveled (g : Graph) (level : NodeId → ℤ) : Prop where
  source_driver : ∀ e ∈ g.edges.toList, e.sourceRole = .outer → g.kind e.source = .ok .driver
  target_driver : ∀ e ∈ g.edges.toList, e.targetRole = .outer → g.kind e.target = .ok .driver
  joins : ∀ e ∈ g.edges.toList, e.sourceRole ≠ .inner → e.targetRole ≠ .inner →
    levelOf level e.source e.sourceRole = levelOf level e.target e.targetRole

/-- Whether an edge leaves its source on a level, and enters its target on it unless it is a broadcast. -/
structure Edge.RunsOn (level : NodeId → ℤ) (here : ℤ) (e : Edge) : Prop where
  leaves : levelOf level e.source e.sourceRole = some here
  arrives : e.targetRole ≠ .inner → levelOf level e.target e.targetRole = some here

/-- The level on which a node is governed: its own, and for a driver the one around its loop. -/
def governedLevel (level : NodeId → ℤ) (node : Node) : ℤ :=
  if node.isDriver then level node.id - 1 else level node.id

/-- A node that is no driver takes part on its own level only. -/
lemma LoopRole.eq_same_of_ne {role : LoopRole} (houter : role ≠ .outer) (hinner : role ≠ .inner) :
    role = .same := by
  cases role with
  | same => rfl
  | outer => exact absurd rfl houter
  | inner => exact absurd rfl hinner

namespace Leveled

variable {g : Graph} {level : NodeId → ℤ} {here : ℤ} {e f : Edge}

/-- An edge that leaves on a level runs on it. -/
lemma runsOn (hlevel : Leveled g level) (he : e ∈ g.edges.toList)
    (hleaves : levelOf level e.source e.sourceRole = some here) : e.RunsOn level here where
  leaves := hleaves
  arrives hrole := by
    have hsource : e.sourceRole ≠ .inner := by
      intro hinner
      rw [hinner] at hleaves
      cases hleaves
    rw [← hlevel.joins e he hsource hrole]
    exact hleaves

/-- A walk goes on along edges on the same level. -/
theorem runsOn_of_goesOn (hg : g.WellFormed) (hlevel : Leveled g level) {walk : Walk}
    (hwalk : walk ≠ .flow) (hthere : e ∈ g.edges.toList) (he : e.RunsOn level here)
    (h : g.GoesOn walk (.after e) f) : f.RunsOn level here := by
  obtain ⟨hf, hjoin⟩ := hg.goesOn_mem_edges h
  obtain ⟨kind, hkind, -, hfollows⟩ := Graph.goesOn_iff.1 h
  obtain ⟨hentered, hrole, hpassed, -⟩ := Walk.follows_via_iff.1 hfollows
  have hsource : f.source = e.target := hjoin
  have htarget : g.kind e.target = .ok kind := hkind
  -- a driver is left on the level it was entered on, another node has only one
  have hsame : f.sourceRole = e.targetRole := by
    by_cases hdriver : kind = .driver
    · exact hpassed hwalk hdriver
    · have hplain : g.kind e.target ≠ .ok .driver := by simpa [htarget] using hdriver
      have hin : e.targetRole ≠ .outer := fun houter => hplain (hlevel.target_driver e hthere houter)
      have hout : f.sourceRole ≠ .outer := by
        intro houter
        have hkind' := hlevel.source_driver f hf houter
        rw [hsource] at hkind'
        exact hplain hkind'
      rw [LoopRole.eq_same_of_ne hout hrole, LoopRole.eq_same_of_ne hin hentered]
  refine hlevel.runsOn hf ?_
  rw [hsource, hsame]
  exact he.arrives hentered

/-- A walk that begins on a level stays on it. -/
theorem runsOn_of_isChain (hg : g.WellFormed) (hlevel : Leveled g level) {walk : Walk}
    (hwalk : walk ≠ .flow) {w : List Edge} (hchain : w.IsChain fun e f => g.GoesOn walk (.after e) f)
    (hhead : ∀ e ∈ w.head?, e ∈ g.edges.toList ∧ e.RunsOn level here) :
    ∀ e ∈ w, e ∈ g.edges.toList ∧ e.RunsOn level here := by
  induction w with
  | nil => simp
  | cons e rest ih =>
    have hfirst := hhead e rfl
    rw [List.isChain_cons] at hchain
    rw [List.forall_mem_cons]
    refine ⟨hfirst, ih hchain.2 fun f hf => ?_⟩
    have hgoes := hchain.1 f hf
    exact ⟨(hg.goesOn_mem_edges hgoes).1,
      runsOn_of_goesOn hg hlevel hwalk hfirst.1 hfirst.2 hgoes⟩

variable {start : NodeId} {node : Node} {output : PortIdx} {w : List Edge}

/-- The way out of a loop begins on the level on which its start is governed. -/
lemma runsOn_of_opens (hlevel : Leveled g level) (hnode : g.nodeAt start = .ok node)
    (hid : node.id = start) (h : g.Opens .exit start output e) :
    e.RunsOn level (governedLevel level node) := by
  obtain ⟨he, hsource, -, kind, hkind, hfollows⟩ := h
  obtain ⟨hinner, hdriver, -⟩ := Walk.follows_start_iff.1 hfollows
  refine hlevel.runsOn he ?_
  rw [hsource, governedLevel, hid]
  by_cases hdriven : node.isDriver = true
  · have hkind' := (Graph.kind_eq_driver_iff hnode).2 hdriven
    rw [hkind, Except.ok.injEq] at hkind'
    rw [if_pos hdriven, hdriver hkind' rfl]
    rfl
  · have houter : e.sourceRole ≠ .outer := by
      intro houter
      have hkind' := hlevel.source_driver e he houter
      rw [hsource] at hkind'
      exact hdriven ((Graph.kind_eq_driver_iff hnode).1 hkind')
    rw [if_neg hdriven, LoopRole.eq_same_of_ne houter hinner]
    rfl

/-- On its way to the governing driver a failure stays on the level on which its node is governed. -/
theorem runsOn_of_isWalk (hg : g.WellFormed) (hlevel : Leveled g level)
    (hnode : g.nodeAt start = .ok node)
    (h : Failure.IsWalk g .governingDriver start output w) :
    ∀ e ∈ w, e ∈ g.edges.toList ∧ e.RunsOn level (governedLevel level node) := by
  obtain ⟨⟨first, hfirst, hopens⟩, hchain, -⟩ := h
  refine runsOn_of_isChain hg hlevel (by decide) hchain fun e he => ?_
  obtain rfl : first = e := Option.some.inj (hfirst.symm.trans he)
  exact ⟨hopens.1, hlevel.runsOn_of_opens hnode (hg.id_of_nodeAt hnode) hopens⟩

/-- A driver that is hit stands on the level on which the start is governed. -/
theorem level_of_hits (hg : g.WellFormed) (hlevel : Leveled g level)
    (hnode : g.nodeAt start = .ok node) {d : NodeId} (h : Exploration.Hits g start d) :
    level d = governedLevel level node := by
  obtain ⟨output, w, e, hwalk, he, henters, rfl⟩ := (Exploration.hits_iff hg).1 h
  have hruns := (hlevel.runsOn_of_isWalk hg hnode hwalk e he).2
  -- the loop is entered on its own level
  have hsame := (Graph.entersLoop_eq_true_iff.1 henters).2
  have harrives := hruns.arrives (by simp [hsame])
  rw [hsame] at harrives
  exact Option.some.inj harrives

/-- A loop of a driver stays on the level of the driver, and no edge of it is a broadcast. -/
theorem runsOn_of_isLoop (hg : g.WellFormed) (hlevel : Leveled g level) {driver : NodeId}
    (h : Reset.IsLoop g driver output w) :
    ∀ e ∈ w, e.RunsOn level (level driver) ∧ e.targetRole ≠ .inner := by
  obtain ⟨⟨first, hfirst, hthere, hsource, -, hrole⟩, hchain, -, last, hlast, -, hback⟩ := h
  have hruns : ∀ e ∈ w, e ∈ g.edges.toList ∧ e.RunsOn level (level driver) := by
    refine runsOn_of_isChain hg hlevel (by decide) hchain fun e he => ?_
    obtain rfl : first = e := Option.some.inj (hfirst.symm.trans he)
    refine ⟨hthere, hlevel.runsOn hthere ?_⟩
    rw [hrole, hsource]
    rfl
  intro e he
  refine ⟨(hruns e he).2, ?_⟩
  obtain ⟨init, rfl⟩ := List.getLast?_eq_some_iff.1 hlast
  rcases List.mem_append.1 he with hinit | hend
  · refine Graph.targetRole_ne_inner_of_isChain hchain e ?_
    rwa [List.dropLast_concat]
  · obtain rfl : e = last := by simpa using hend
    simp [hback]

end Leveled

/-- In nested loops a node is governed by a driver on its level, on the level around it if it is a
driver itself; the routes of its failure to that driver stay on that level; and the cycles of a reset
stay on the level of their driver. -/
theorem walks_stay_on_level {source : Workflow} {g : Graph}
    (hbuilt : Graph.ofWorkflow source = .ok g) {level : NodeId → ℤ} (hlevel : Leveled g level)
    {exeId : String} {node : Node} (hnode : g.node exeId = .ok node) :
    (∀ limits driver, (g.loopDriverOf limits exeId).result = .ok driver →
      level driver.id = governedLevel level node) ∧
    (∀ limits dedup listing,
      (g.failureRoutes limits .governingDriver dedup exeId).result = .ok listing →
        ∀ path, listing.Holds path → ∀ hop ∈ path.hops,
          ∃ e, g.edgeAt hop.edge = .ok e ∧ e.hop = hop ∧
            e.RunsOn level (governedLevel level node)) ∧
    (∀ limits listing, (g.resetCycles limits exeId).result = .ok listing →
      ∀ cycle, listing.Holds cycle → ∀ hop ∈ cycle.path.hops,
        ∃ e, g.edgeAt hop.edge = .ok e ∧ e.hop = hop ∧
          e.RunsOn level (level node.id) ∧ e.targetRole ≠ .inner) := by
  have hg := Graph.wellFormed_ofWorkflow hbuilt
  obtain ⟨start, hstart, hat⟩ := bind_eq_ok_iff.1 hnode
  have hid : node.id = start := hg.id_of_nodeAt hat
  -- every hop goes along an edge of the walk
  have hhop : ∀ {w : List Edge}, (∀ e ∈ w, e ∈ g.edges.toList) → ∀ hop ∈ (Path.ofEdges w).hops,
      ∃ e ∈ w, g.edgeAt hop.edge = .ok e ∧ e.hop = hop := by
    intro w hw hop hmem
    rw [Path.hops_ofEdges] at hmem
    obtain ⟨e, he, rfl⟩ := List.mem_map.1 hmem
    exact ⟨e, he, hg.edgeAt_eq_ok (hw e he), rfl⟩
  refine ⟨?_, ?_, ?_⟩
  · intro limits driver hdriver
    obtain ⟨d, hresolved, hat'⟩ := (loopDriverOf_eq_ok_iff hstart).1 hdriver
    rcases Exploration.answers_or_stepLimit hg hat limits with hanswers | ⟨limit, hsteps⟩
    · have hhits := ((hanswers.driver d).1 hresolved d).2 rfl
      rw [hg.id_of_nodeAt hat']
      exact hlevel.level_of_hits hg hat hhits
    · rw [hsteps] at hresolved
      cases hresolved
  · intro limits dedup listing hroutes path hpath hop hmem
    obtain ⟨start', hstart', hplan⟩ := Report.result_andThen_eq_ok_iff.1 hroutes
    obtain rfl : start = start' := Except.ok.inj (hstart.symm.trans hstart')
    obtain ⟨output, w, hroute, rfl⟩ := Failure.exists_route_of_holds hg hplan hpath
    obtain ⟨e, he, hedge, heq⟩ := hhop (hroute.mem_edges hg) hop hmem
    exact ⟨e, hedge, heq, (hlevel.runsOn_of_isWalk hg hat hroute.toIsWalk e he).2⟩
  · intro limits listing hcycles cycle hcycle hop hmem
    obtain ⟨start', hstart', hplan⟩ := Report.result_andThen_eq_ok_iff.1 hcycles
    obtain rfl : start = start' := Except.ok.inj (hstart.symm.trans hstart')
    obtain ⟨-, output, w, hloop, hpath⟩ := Reset.exists_loop_of_holds hg hplan hcycle
    rw [← hpath] at hmem
    obtain ⟨e, he, hedge, heq⟩ := hhop (hloop.mem_edges hg) hop hmem
    rw [hid]
    exact ⟨e, hedge, heq, hlevel.runsOn_of_isLoop hg hloop e he⟩

/-- In the loop within a loop the inner driver and its worker are one level further in than the outer
driver. -/
def nestedLevel (id : NodeId) : ℤ := if id = ⟨2⟩ then 0 else 1

lemma leveled_nestedLoops : Leveled .nestedLoops nestedLevel where
  source_driver := by decide +kernel
  target_driver := by decide +kernel
  joins := by decide +kernel

/-- In the loop within a loop the worker is governed on its own level. -/
theorem walks_stay_on_level_nestedLoops :
    Graph.ofWorkflow .nestedLoops = .ok .nestedLoops ∧ Leveled .nestedLoops nestedLevel ∧
      ∃ node driver, Graph.node .nestedLoops "work" = .ok node ∧
        (Graph.loopDriverOf .nestedLoops (.ofGraph .nestedLoops) "work").result = .ok driver ∧
        nestedLevel driver.id = governedLevel nestedLevel node := by
  obtain ⟨node, hnode⟩ :=
    exists_ok_of_isOk (show (Graph.node .nestedLoops "work").isOk = true by cbv)
  have hok : (Graph.loopDriverOf .nestedLoops (.ofGraph .nestedLoops) "work").result.isOk = true := by
    cbv
  obtain ⟨driver, hdriver⟩ := exists_ok_of_isOk hok
  have hstays := walks_stay_on_level Graph.ofWorkflow_nestedLoops leveled_nestedLoops hnode
  exact ⟨Graph.ofWorkflow_nestedLoops, leveled_nestedLoops, node, driver, hnode, hdriver,
    hstays.1 _ _ hdriver⟩

end WorkflowLoops

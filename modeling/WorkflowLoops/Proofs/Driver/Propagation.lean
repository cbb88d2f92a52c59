import Mathlib
import WorkflowLoops.Proofs.Driver.Entries
import WorkflowLoops.Proofs.Reset.Governance

/-!
# Drivers are handed on against the edges

The directory resolves every node by a walk of its own. Without controllers, where a walk goes on from a
node does not depend on how it came there, once it has come through (`goesOn_after_iff`). So what a walk
hits from a node is what the walks from its neighbours hit, and the drivers could as well be handed on
against the edges, from the nodes next to the entries of their loops (`Graph.Governs`,
`hits_iff_governs`).

In a graph that has a directory, what it gives to a node is therefore told by the edges of the node and
by what it gives to their targets (`directory_propagates`).
-/

namespace WorkflowLoops

/-- Whether an edge leads out of the loop of a node: from a driver only outwards, from another node on
either level that it lies on. -/
structure Edge.LeadsOut (e : Edge) (u : Node) : Prop where
  source : e.source = u.id
  role : if u.isDriver then e.sourceRole = .outer else e.sourceRole = .same ∨ e.sourceRole = .outer

/-- Whether a walk goes on through a node that it comes to by an input in a role. Broadcasts end there,
and so does an entry into the loop of a driver. -/
@[mk_iff]
structure Node.Passes (w : Node) (entered : LoopRole) : Prop where
  role : entered = .same ∨ entered = .outer
  driver : w.isDriver = false ∨ entered = .outer

/-- Whether a driver is handed on to a node against the edges. -/
inductive Graph.Governs (g : Graph) (d : Node) : Node → Prop
  /-- An edge of the node enters the loop of the driver. -/
  | enters {u : Node} {e : Edge} (he : e ∈ g.edges.toList) (hout : e.LeadsOut u)
      (htarget : e.target = d.id) (hrole : e.targetRole = .same) : Governs g d u
  /-- An edge of the node leads on through one that has the driver. -/
  | passes {u w : Node} {e : Edge} (he : e ∈ g.edges.toList) (hout : e.LeadsOut u)
      (hw : g.nodeAt e.target = .ok w) (hpasses : w.Passes e.targetRole) (h : Governs g d w) :
      Governs g d u

/-- A driver is handed on exactly if an edge hands it on. -/
theorem Graph.governs_iff {g : Graph} {d u : Node} :
    g.Governs d u ↔ ∃ e ∈ g.edges.toList, e.LeadsOut u ∧
      ((e.target = d.id ∧ e.targetRole = .same) ∨
        ∃ w, g.nodeAt e.target = .ok w ∧ w.Passes e.targetRole ∧ g.Governs d w) := by
  constructor
  · intro h
    cases h with
    | enters he hout htarget hrole => exact ⟨_, he, hout, .inl ⟨htarget, hrole⟩⟩
    | passes he hout hw hpasses h => exact ⟨_, he, hout, .inr ⟨_, hw, hpasses, h⟩⟩
  · rintro ⟨e, he, hout, ⟨htarget, hrole⟩ | ⟨w, hw, hpasses, h⟩⟩
    · exact .enters he hout htarget hrole
    · exact .passes he hout hw hpasses h

namespace Exploration

variable {g : Graph} {start : NodeId} {d u w : Node} {e f : Edge} {spot : Spot}

/-! ## Where a walk goes on -/

/-- A walk leaves its start along the edges that lead out of the loop. -/
lemma goesOn_start_iff_leadsOut (hg : g.WellFormed) (hu : g.nodeAt start = .ok u) :
    g.GoesOn .exit ⟨start, .start⟩ e ↔ e ∈ g.edges.toList ∧ e.LeadsOut u := by
  have hid : u.id = start := hg.id_of_nodeAt hu
  have hkind := Graph.kind_of_nodeAt hu
  have hdriver := Graph.kind_eq_driver_iff hu
  rw [hkind, Except.ok.injEq] at hdriver
  have hrole : (Walk.exit.follows (u.kindOf ((g.leaving start).map (·.sourceRole))) .start e.sourceRole
      = true) ↔ if u.isDriver then e.sourceRole = .outer
        else e.sourceRole = .same ∨ e.sourceRole = .outer := by
    rw [Walk.follows_start_iff, hdriver]
    cases u.isDriver <;> cases e.sourceRole <;> simp
  rw [Graph.goesOn_iff]
  constructor
  · rintro ⟨kind, hkind', hleaving, hfollows⟩
    obtain rfl := Except.ok.inj (hkind.symm.trans hkind')
    obtain ⟨he, hsource⟩ := hg.mem_leaving_iff.1 hleaving
    exact ⟨he, hsource.trans hid.symm, hrole.1 hfollows⟩
  · rintro ⟨he, hsource, hout⟩
    exact ⟨_, hkind, hg.mem_leaving_iff.2 ⟨he, hsource.trans hid⟩, hrole.2 hout⟩

lemma passes_iff_of_nodeAt (hw : g.nodeAt e.target = .ok w) :
    w.Passes e.targetRole ↔ g.entersLoop e = .ok false ∧ e.targetRole ≠ .inner := by
  rw [Node.passes_iff, Graph.entersLoop_of_nodeAt hw, Except.ok.injEq]
  cases w.isDriver <;> cases e.targetRole <;> simp

/-- Without controllers a walk goes on from a node that it has come through as one that starts there. -/
lemma goesOn_after_iff (hcontrollers : ∀ id, g.kind id ≠ .ok .controller)
    (hpass : g.entersLoop e = .ok false) :
    g.GoesOn .exit (.after e) f ↔
      e.targetRole ≠ .inner ∧ g.GoesOn .exit ⟨e.target, .start⟩ f := by
  have hsame : g.kind e.target = .ok .driver → e.targetRole ≠ .same := by
    intro hkind hsame
    rw [Graph.entersLoop_eq_true_iff.2 ⟨hkind, hsame⟩] at hpass
    cases hpass
  simp only [Graph.goesOn_iff, Spot.after, Walk.follows_via_iff, Walk.follows_start_iff]
  constructor
  · rintro ⟨kind, hkind, hleaving, hin, hrole, hdriver, -⟩
    refine ⟨hin, kind, hkind, hleaving, hrole, ?_, by simp⟩
    rintro rfl -
    -- a driver is left on the level on which it was entered, and that is not the one of its body
    rw [hdriver (by decide) rfl]
    exact Failure.eq_outer_of_ne (hsame hkind) hin
  · rintro ⟨hin, kind, hkind, hleaving, hrole, hdriver, -⟩
    refine ⟨kind, hkind, hleaving, hin, hrole, ?_, ?_⟩
    · rintro - rfl
      rw [hdriver rfl trivial, Failure.eq_outer_of_ne (hsame hkind) hin]
    · rintro - rfl
      exact absurd hkind (hcontrollers _)

/-! ## What is hit -/

/-- What is hit from a node that an edge leads through is hit from the source of the edge. -/
lemma Hits.pass (hcontrollers : ∀ id, g.kind id ≠ .ok .controller)
    (hgoes : g.GoesOn .exit ⟨start, .start⟩ e) (hpass : g.entersLoop e = .ok false)
    (hrole : e.targetRole ≠ .inner) {driver : NodeId} (h : Hits g e.target driver) :
    Hits g start driver := by
  obtain ⟨spot, f, hreach, hlast, hhit⟩ := h
  have hleads : Leads g ⟨start, .start⟩ (.after e) := ⟨e, hgoes, hpass, rfl⟩
  rcases Relation.ReflTransGen.cases_head hreach with rfl | ⟨next, ⟨e', hgoes', hmore⟩, hrest⟩
  · exact ⟨.after e, f, .single hleads, (goesOn_after_iff hcontrollers hpass).2 ⟨hrole, hlast⟩, hhit⟩
  · have hnext : Leads g (.after e) next :=
      ⟨e', (goesOn_after_iff hcontrollers hpass).2 ⟨hrole, hgoes'⟩, hmore⟩
    exact ⟨spot, f, .head hleads (.head hnext hrest), hlast, hhit⟩

/-- What a walk still hits on its way is handed on to where it stands. -/
lemma governs_of_reaches (hg : g.WellFormed) (hcontrollers : ∀ id, g.kind id ≠ .ok .controller)
    {here : Spot} (hreach : Relation.ReflTransGen (Leads g) here spot) (hlast : g.GoesOn .exit spot f)
    (henters : g.entersLoop f = .ok true) (htarget : f.target = d.id)
    (hu : g.nodeAt here.node = .ok u)
    (hhere : ∀ e, g.GoesOn .exit here e → g.GoesOn .exit ⟨here.node, .start⟩ e) :
    g.Governs d u := by
  induction hreach using Relation.ReflTransGen.head_induction_on generalizing u with
  | refl =>
    obtain ⟨hf, hout⟩ := (goesOn_start_iff_leadsOut hg hu).1 (hhere f hlast)
    exact .enters hf hout htarget (Graph.entersLoop_eq_true_iff.1 henters).2
  | head hleads hrest ih =>
    obtain ⟨e, hgoes, hpass, rfl⟩ := hleads
    obtain ⟨he, hout⟩ := (goesOn_start_iff_leadsOut hg hu).1 (hhere e hgoes)
    obtain ⟨w, hw, -⟩ := hg.exists_target he
    -- the walk goes on, so it has come through
    have hthrough : ∃ e', g.GoesOn .exit (.after e) e' := by
      rcases Relation.ReflTransGen.cases_head hrest with heq | ⟨next, ⟨e', hgoes', -⟩, -⟩
      · exact ⟨f, heq ▸ hlast⟩
      · exact ⟨e', hgoes'⟩
    obtain ⟨e', hgoes'⟩ := hthrough
    have hrole := ((goesOn_after_iff hcontrollers hpass).1 hgoes').1
    refine .passes he hout hw ((passes_iff_of_nodeAt hw).2 ⟨hpass, hrole⟩) (ih hw ?_)
    exact fun e' hgoes' => ((goesOn_after_iff hcontrollers hpass).1 hgoes').2

/-- The drivers that are hit from a node are those that are handed on to it. -/
theorem hits_iff_governs (hg : g.WellFormed) (hcontrollers : ∀ id, g.kind id ≠ .ok .controller)
    {driver : NodeId} (hd : g.nodeAt driver = .ok d) (hdriver : d.isDriver = true)
    (hu : g.nodeAt start = .ok u) : Hits g start driver ↔ g.Governs d u := by
  have hdid : d.id = driver := hg.id_of_nodeAt hd
  constructor
  · rintro ⟨spot, f, hreach, hlast, henters, htarget⟩
    exact governs_of_reaches hg hcontrollers hreach hlast henters (htarget.trans hdid.symm) hu
      fun e he => he
  · intro hgoverns
    induction hgoverns generalizing start with
    | @enters u e he hout htarget hrole =>
      have hgoes := (goesOn_start_iff_leadsOut hg hu).2 ⟨he, hout⟩
      have hkind : g.kind e.target = .ok .driver := by
        rw [htarget, hdid]
        exact (Graph.kind_eq_driver_iff hd).2 hdriver
      exact ⟨_, e, .refl, hgoes, Graph.entersLoop_eq_true_iff.2 ⟨hkind, hrole⟩, htarget.trans hdid⟩
    | @passes u w e he hout hw hpasses _ ih =>
      obtain ⟨hpass, hrole⟩ := (passes_iff_of_nodeAt hw).1 hpasses
      exact (ih hw).pass hcontrollers ((goesOn_start_iff_leadsOut hg hu).2 ⟨he, hout⟩) hpass hrole

end Exploration

/-! ## Directories -/

/-- A directory gives a driver to a node exactly if a walk out of the loop of the node hits it. -/
lemma Directory.driverOf_iff_hits {g : Graph} (hg : g.WellFormed) {limits : Limits}
    {directory : Directory} (h : (ofGraph g limits).result = .ok directory) {start driver : NodeId}
    {d u : Node} (hd : g.nodeAt driver = .ok d) (hu : g.nodeAt start = .ok u) :
    directory.driverOf g u.exeId = .ok (some d) ↔ Exploration.Hits g start driver := by
  have hanswers := answers_of_ofGraph hg h hu
  have hid : g.nodeId u.exeId = .ok start := hg.nodeId_eq_ok_iff.2 (hg.exeIdAt_of_nodeAt hu)
  have hthere : u.exeId ∈ g.nodes.toList.map Node.exeId :=
    List.mem_map_of_mem (List.mem_of_getElem? (Graph.nodeAt_eq_ok_iff.1 hu))
  rw [(records_of_ofGraph hg h).driver u.exeId hthere d, loopDriverOf_eq_ok_iff hid]
  constructor
  · rintro ⟨found, hfound, hat⟩
    obtain rfl : found = driver := (hg.id_of_nodeAt hat).symm.trans (hg.id_of_nodeAt hd)
    exact ((hanswers.driver found).1 hfound found).2 rfl
  · intro hhit
    have hone : ∀ d', Exploration.Hits g start d' ↔ d' = driver := fun d' =>
      ⟨fun hd' => hits_unique hg h hu hd' hhit, fun heq => heq ▸ hhit⟩
    exact ⟨driver, (hanswers.driver driver).2 hone, hd⟩

/-- In a graph without controllers that has a directory, the directory gives a driver to a node exactly
if an edge out of the loop of the node enters the loop of the driver, or leads on through a node to which
the directory gives that driver. So the nodes of a driver are those to which it is handed on against the
edges, from one to the next. -/
theorem directory_propagates {source : Workflow} {g : Graph} (hbuilt : Graph.ofWorkflow source = .ok g)
    (hcontrollers : ∀ id, g.kind id ≠ .ok .controller) {limits : Limits} {directory : Directory}
    (hdirectory : (Directory.ofGraph g limits).result = .ok directory) :
    ∀ u ∈ g.nodes.toList, ∀ d ∈ g.nodes.toList, d.isDriver = true →
      (directory.driverOf g u.exeId = .ok (some d) ↔
        ∃ e ∈ g.edges.toList, e.LeadsOut u ∧
          ((e.target = d.id ∧ e.targetRole = .same) ∨
            ∃ w, g.nodeAt e.target = .ok w ∧ w.Passes e.targetRole ∧
              directory.driverOf g w.exeId = .ok (some d))) ∧
      (directory.driverOf g u.exeId = .ok (some d) ↔ g.Governs d u) := by
  have hg := Graph.wellFormed_ofWorkflow hbuilt
  intro u hu d hd hdriver
  have hdat := hg.nodeAt_of_mem hd
  have hgives : ∀ {id : NodeId} {w : Node}, g.nodeAt id = .ok w →
      (directory.driverOf g w.exeId = .ok (some d) ↔ g.Governs d w) := by
    intro id w hw
    rw [Directory.driverOf_iff_hits hg hdirectory hdat hw,
      Exploration.hits_iff_governs hg hcontrollers hdat hdriver hw]
  refine ⟨?_, hgives (hg.nodeAt_of_mem hu)⟩
  rw [hgives (hg.nodeAt_of_mem hu), Graph.governs_iff]
  constructor
  · rintro ⟨e, he, hout, henters | ⟨w, hw, hpasses, h⟩⟩
    · exact ⟨e, he, hout, .inl henters⟩
    · exact ⟨e, he, hout, .inr ⟨w, hw, hpasses, (hgives hw).2 h⟩⟩
  · rintro ⟨e, he, hout, henters | ⟨w, hw, hpasses, h⟩⟩
    · exact ⟨e, he, hout, .inl henters⟩
    · exact ⟨e, he, hout, .inr ⟨w, hw, hpasses, (hgives hw).1 h⟩⟩

/-- In the loop within a loop the inner driver is handed on to the worker. -/
theorem directory_propagates_nestedLoops :
    Graph.ofWorkflow .nestedLoops = .ok .nestedLoops ∧
      (∀ id, Graph.kind .nestedLoops id ≠ .ok .controller) ∧
      ∃ directory u d, (Directory.ofGraph .nestedLoops (.ofGraph .nestedLoops)).result = .ok directory ∧
        Graph.nodeAt .nestedLoops ⟨0⟩ = .ok u ∧ Graph.nodeAt .nestedLoops ⟨1⟩ = .ok d ∧
        d.isDriver = true ∧ directory.driverOf .nestedLoops u.exeId = .ok (some d) ∧
        Graph.Governs .nestedLoops d u := by
  have hok : (Directory.ofGraph .nestedLoops (.ofGraph .nestedLoops)).result.isOk = true := by
    cbv
  obtain ⟨directory, hdirectory⟩ := exists_ok_of_isOk hok
  obtain ⟨u, hu⟩ := exists_ok_of_isOk (show (Graph.nodeAt .nestedLoops ⟨0⟩).isOk = true by cbv)
  obtain ⟨d, hd⟩ := exists_ok_of_isOk (show (Graph.nodeAt .nestedLoops ⟨1⟩).isOk = true by cbv)
  have hdriver : (Graph.nodeAt .nestedLoops ⟨1⟩).map Node.isDriver = .ok true := by cbv
  rw [hd] at hdriver
  have hgives : (do
      let directory ← (Directory.ofGraph .nestedLoops (.ofGraph .nestedLoops)).result
      let u ← Graph.nodeAt .nestedLoops ⟨0⟩
      directory.driverOf .nestedLoops u.exeId) = some <$> Graph.nodeAt .nestedLoops ⟨1⟩ := by
    cbv
  rw [hdirectory, hu, hd] at hgives
  have hpropagates := directory_propagates Graph.ofWorkflow_nestedLoops kind_nestedLoops_ne_controller
    hdirectory u (List.mem_of_getElem? (Graph.nodeAt_eq_ok_iff.1 hu)) d
    (List.mem_of_getElem? (Graph.nodeAt_eq_ok_iff.1 hd)) (Except.ok.inj hdriver)
  exact ⟨Graph.ofWorkflow_nestedLoops, kind_nestedLoops_ne_controller, directory, u, d, hdirectory, hu,
    hd, Except.ok.inj hdriver, hgives, hpropagates.2.1 hgives⟩

end WorkflowLoops

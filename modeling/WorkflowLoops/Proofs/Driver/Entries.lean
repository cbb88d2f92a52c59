import Mathlib
import WorkflowLoops.Proofs.Driver.Directory
import WorkflowLoops.Proofs.Driver.Extension
import WorkflowLoops.Proofs.Graph.Image

/-!
# A directory says what the single questions say

A directory resolves all nodes in one pass, a question resolves the one node that it is about. Each
resolution of the pass begins anew, so the pass is the row of the single questions: it comes as far as
the first node whose question fails for another reason than that there is no loop, and then it fails in
the same way (`Directory.ofGraph_of_ok`, `Directory.ofGraph_of_error`). What is then looked up in the
directory is the answer of the question (`Analysis.directory_records`).
-/

namespace WorkflowLoops

/-- Whether the answer to the question for the driver of a node says where the node belongs: to a driver,
or to no loop. -/
def IsPlace {α : Type} (answer : Except Error α) : Prop :=
  (∃ driver, answer = .ok driver) ∨ ∃ name, answer = .error (.noGoverningDriver name)

/-- Whether a directory holds what is answered about the nodes with given execution ids, and nothing
else. -/
structure Directory.Records (d : Directory) (g : Graph) (answer : String → Except Error Node)
    (exeIds : List String) : Prop where
  /-- The nodes are gone through in their order, each with what is looked up for it. -/
  entries : ∃ entries, d.entries g = .ok entries ∧
    entries.map (fun entry => entry.1.exeId) = exeIds ∧
    ∀ entry ∈ entries, g.node entry.1.exeId = .ok entry.1 ∧
      d.driverOf g entry.1.exeId = .ok entry.2
  driver : ∀ exeId ∈ exeIds, ∀ driver,
    d.driverOf g exeId = .ok (some driver) ↔ answer exeId = .ok driver
  noDriver : ∀ exeId ∈ exeIds,
    d.driverOf g exeId = .ok none ↔ ∃ name, answer exeId = .error (.noGoverningDriver name)
  unknown : ∀ exeId, exeId ∉ exeIds → d.driverOf g exeId = .error (.nodeNotFound exeId)

variable {g : Graph} {limits : Limits} {id : NodeId} {node : Node}

/-! ## A question is a resolution -/

/-- The question for the driver of a node resolves the node, and looks the driver up. -/
lemma loopDriverOf_of_nodeId {exeId : String} (hid : g.nodeId exeId = .ok id) :
    g.loopDriverOf limits exeId =
      { events := (g.resolveDriver limits id).events
        result := (g.resolveDriver limits id).result >>= g.nodeAt } := by
  rw [Graph.loopDriverOf, hid]
  unfold Report.andThen
  simp only [Report.quiet, List.nil_append]
  cases (g.resolveDriver limits id).result with
  | error err => rfl
  | ok d =>
    show Report.mk ((g.resolveDriver limits id).events ++ []) (g.nodeAt d) = _
    rw [List.append_nil]
    rfl

namespace Directory

/-- A node has an entry if its question says where it belongs; otherwise the entry fails as the
question does. -/
lemma entry_cases (hg : g.WellFormed) (hnode : g.nodeAt id = .ok node) :
    (∃ d driver, entry g limits node = .ok (some d) ∧ g.nodeAt d = .ok driver ∧
      (g.loopDriverOf limits node.exeId).result = .ok driver) ∨
    (∃ name, entry g limits node = .ok none ∧
      (g.loopDriverOf limits node.exeId).result = .error (.noGoverningDriver name)) ∨
    ∃ err, entry g limits node = .error err ∧
      (g.loopDriverOf limits node.exeId).result = .error err ∧
        ∀ name, err ≠ .noGoverningDriver name := by
  have hid : g.nodeId node.exeId = .ok id := hg.nodeId_eq_ok_iff.2 (hg.exeIdAt_of_nodeAt hnode)
  rw [loopDriverOf_of_nodeId hid, entry, hg.id_of_nodeAt hnode]
  cases hresult : (g.resolveDriver limits id).result with
  | ok d =>
    obtain ⟨driver, hdriver⟩ := Exploration.exists_node_of_resolveDriver hg hnode hresult
    exact .inl ⟨d, driver, rfl, hdriver, hdriver⟩
  | error err =>
    right
    by_cases hnone : ∃ name, err = .noGoverningDriver name
    · obtain ⟨name, rfl⟩ := hnone
      exact .inl ⟨name, rfl, rfl⟩
    · rw [not_exists] at hnone
      refine .inr ⟨err, ?_, rfl, hnone⟩
      unfold listed
      split
      · contradiction
      · rename_i name heq
        exact absurd (Except.error.inj heq) (hnone name)
      · rename_i heq
        exact congrArg Except.error (Except.error.inj heq).symm

lemma isPlace_iff (hg : g.WellFormed) (hnode : g.nodeAt id = .ok node) :
    IsPlace (g.loopDriverOf limits node.exeId).result ↔
      ∃ driver?, entry g limits node = .ok driver? := by
  rcases entry_cases hg hnode with ⟨d, driver, hentry, -, hanswer⟩ | ⟨name, hentry, hanswer⟩ |
    ⟨err, hentry, hanswer, hnone⟩
  · rw [hanswer, hentry]
    exact iff_of_true (.inl ⟨driver, rfl⟩) ⟨_, rfl⟩
  · rw [hanswer, hentry]
    exact iff_of_true (.inr ⟨name, rfl⟩) ⟨_, rfl⟩
  · rw [hanswer, hentry]
    refine iff_of_false ?_ (by simp)
    rintro (⟨driver, h⟩ | ⟨name, h⟩)
    · cases h
    · exact hnone name (Except.error.inj h)

/-- The question for a node without an entry fails as the entry does. -/
lemma not_isPlace_of_entry (hg : g.WellFormed) (hnode : g.nodeAt id = .ok node) {err : Error}
    (herr : entry g limits node = .error err) :
    ¬ IsPlace (g.loopDriverOf limits node.exeId).result ∧
      (g.loopDriverOf limits node.exeId).result = .error err := by
  constructor
  · rw [isPlace_iff hg hnode, herr]
    simp
  · rcases entry_cases hg hnode with ⟨d, driver, hentry, -⟩ | ⟨name, hentry, -⟩ |
      ⟨err', hentry, hanswer, -⟩
    · rw [herr] at hentry
      cases hentry
    · rw [herr] at hentry
      cases hentry
    · obtain rfl := Except.error.inj (herr.symm.trans hentry)
      exact hanswer

/-! ## The pass over all nodes -/

/-- What happens while nodes are resolved one after the other. -/
def told (g : Graph) (limits : Limits) (nodes : List Node) : List Event :=
  nodes.flatMap fun node => (g.resolveDriver limits node.id).events

/-- Nodes that have entries are filed, and the pass goes on behind them. -/
lemma fill_append (after : List Node) {before : List Node} :
    ∀ {d : Directory},
      (∀ i node, before[i]? = some node → node.id.index = d.drivers.size + i) →
      (∀ node ∈ before, ∃ driver?, entry g limits node = .ok driver?) →
      ∃ d', fill g limits d (before ++ after) =
        { events := told g limits before ++ (fill g limits d' after).events
          result := (fill g limits d' after).result } := by
  induction before with
  | nil => exact fun {d} _ _ => ⟨d, rfl⟩
  | cons node rest ih =>
    intro d hids hentries
    obtain ⟨⟨driver?, hentry⟩, hrest⟩ := List.forall_mem_cons.1 hentries
    have hfirst : node.id.index = d.drivers.size := hids 0 node rfl
    have hfiled : listed (g.resolveDriver limits node.id).result >>= d.file node.id
        = .ok ⟨d.drivers.push driver?⟩ := by
      refine bind_eq_ok_iff.2 ⟨driver?, hentry, ?_⟩
      rw [file, if_pos hfirst.symm]
    have hids' : ∀ i n, rest[i]? = some n → n.id.index = (d.drivers.push driver?).size + i := by
      intro i n hn
      have hindex := hids (i + 1) n hn
      rw [Arena.size_push]
      omega
    obtain ⟨d', hfill⟩ := ih (d := ⟨d.drivers.push driver?⟩) hids' hrest
    refine ⟨d', ?_⟩
    rw [List.cons_append, fill]
    simp only [hfiled, hfill, told, List.flatMap_cons, List.append_assoc]

/-- The pass ends with the first node that has no entry. -/
lemma fill_cons_of_error {d : Directory} {rest : List Node} {err : Error}
    (h : entry g limits node = .error err) :
    fill g limits d (node :: rest) =
      { events := (g.resolveDriver limits node.id).events, result := .error err } := by
  have hstopped : listed (g.resolveDriver limits node.id).result >>= d.file node.id = .error err :=
    bind_eq_error_iff.2 (.inl h)
  rw [fill]
  simp only [hstopped]

lemma index_of_getElem? (hg : g.WellFormed) {before after : List Node}
    (hnodes : g.nodes.toList = before ++ after) :
    ∀ i node, before[i]? = some node → node.id.index = ({} : Directory).drivers.size + i := by
  intro i node hi
  have hthere : g.nodes.toList[i]? = some node := by
    rw [hnodes, List.getElem?_append_left (List.getElem?_eq_some_iff.1 hi).1]
    exact hi
  rw [hg.node_id i node hthere]
  exact (Nat.zero_add i).symm

/-- Where every node has an entry there is a directory. -/
theorem ofGraph_of_ok (hg : g.WellFormed)
    (h : ∀ node ∈ g.nodes.toList, ∃ driver?, entry g limits node = .ok driver?) :
    ∃ d, ofGraph g limits =
      { events := told g limits g.nodes.toList ++ [.indexed g.nodeCount], result := .ok d } := by
  have hnodes : g.nodes.toList = g.nodes.toList ++ [] := (List.append_nil _).symm
  obtain ⟨d, hfill⟩ := fill_append [] (index_of_getElem? hg hnodes) h
  refine ⟨d, ?_⟩
  rw [List.append_nil] at hfill
  rw [ofGraph, hfill]
  show Report.mk ((told g limits g.nodes.toList ++ []) ++ [.indexed g.nodeCount]) _ = _
  rw [List.append_nil]

/-- Where a node has no entry the pass ends with the first such node. -/
theorem ofGraph_of_error (hg : g.WellFormed) {before after : List Node} {err : Error}
    (hnodes : g.nodes.toList = before ++ node :: after)
    (hbefore : ∀ n ∈ before, ∃ driver?, entry g limits n = .ok driver?)
    (herr : entry g limits node = .error err) :
    ofGraph g limits = { events := told g limits (before ++ [node]), result := .error err } := by
  obtain ⟨d, hfill⟩ := fill_append (node :: after) (index_of_getElem? hg hnodes) hbefore
  rw [fill_cons_of_error herr] at hfill
  rw [ofGraph, hnodes, hfill]
  show Report.mk _ _ = _
  simp [told]

/-- Either there is a directory, or a first node has no entry. -/
lemma ofGraph_cases (hg : g.WellFormed) (limits : Limits) :
    ((∀ node ∈ g.nodes.toList, ∃ driver?, entry g limits node = .ok driver?) ∧
      ∃ d, ofGraph g limits =
        { events := told g limits g.nodes.toList ++ [.indexed g.nodeCount], result := .ok d }) ∨
    ∃ before node after err, g.nodes.toList = before ++ node :: after ∧
      (∀ n ∈ before, ∃ driver?, entry g limits n = .ok driver?) ∧ entry g limits node = .error err ∧
      ofGraph g limits = { events := told g limits (before ++ [node]), result := .error err } := by
  cases hrow : g.nodes.toList.mapM (entry g limits) with
  | ok drivers =>
    have hentries : ∀ node ∈ g.nodes.toList, ∃ driver?, entry g limits node = .ok driver? := by
      intro node hnode
      obtain ⟨driver?, -, hentry⟩ := exists_right_of_mem (forall₂_of_mapM_eq_ok hrow) hnode
      exact ⟨driver?, hentry⟩
    exact .inl ⟨hentries, ofGraph_of_ok hg hentries⟩
  | error err =>
    obtain ⟨before, node, after, hnodes, hbefore, herr⟩ := exists_first_of_mapM_eq_error hrow
    exact .inr ⟨before, node, after, err, hnodes, hbefore, herr,
      ofGraph_of_error hg hnodes hbefore herr⟩

/-- What happens while nodes are resolved is what happens during the questions for them. -/
lemma told_eq_flatMap (hg : g.WellFormed) {nodes : List Node} (h : nodes ⊆ g.nodes.toList) :
    told g limits nodes
      = (nodes.map Node.exeId).flatMap fun exeId => (g.loopDriverOf limits exeId).events := by
  rw [told, List.flatMap_map]
  refine List.flatMap_congr fun node hmem => ?_
  have hnode := hg.nodeAt_of_mem (h hmem)
  rw [loopDriverOf_of_nodeId (hg.nodeId_eq_ok_iff.2 (hg.exeIdAt_of_nodeAt hnode))]

/-! ## What is looked up -/

variable {d : Directory}

/-- For a node that is there the directory says what the question says. -/
lemma driverAt_cases (hg : g.WellFormed) (h : (ofGraph g limits).result = .ok d)
    (hnode : g.nodeAt id = .ok node) :
    (∃ driver, d.driverAt g id = .ok (some driver) ∧
      (g.loopDriverOf limits node.exeId).result = .ok driver) ∨
    ∃ name, d.driverAt g id = .ok none ∧
      (g.loopDriverOf limits node.exeId).result = .error (.noGoverningDriver name) := by
  obtain ⟨driver?, hget, hlisted⟩ := exists_entry_of_ofGraph hg h hnode
  have hentry : entry g limits node = .ok driver? := by rw [entry, hg.id_of_nodeAt hnode, hlisted]
  unfold driverAt
  rw [hget, orFault_some]
  rcases entry_cases hg hnode with ⟨driverId, driver, hplace, hdriver, hanswer⟩ |
    ⟨name, hplace, hanswer⟩ | ⟨err, hplace, -⟩
  · obtain rfl := Except.ok.inj (hentry.symm.trans hplace)
    refine .inl ⟨driver, ?_, hanswer⟩
    show some <$> g.nodeAt driverId = _
    rw [hdriver]
    rfl
  · obtain rfl := Except.ok.inj (hentry.symm.trans hplace)
    exact .inr ⟨name, rfl, hanswer⟩
  · rw [hplace] at hentry
    cases hentry

lemma driverOf_of_nodeAt (hg : g.WellFormed) (hnode : g.nodeAt id = .ok node) :
    d.driverOf g node.exeId = d.driverAt g id := by
  have hid : g.nodeId node.exeId = .ok id := hg.nodeId_eq_ok_iff.2 (hg.exeIdAt_of_nodeAt hnode)
  rw [driverOf, hid]
  rfl

/-- The directory of a graph holds what is answered about its nodes. -/
theorem records_of_ofGraph (hg : g.WellFormed) (h : (ofGraph g limits).result = .ok d) :
    d.Records g (fun exeId => (g.loopDriverOf limits exeId).result)
      (g.nodes.toList.map Node.exeId) := by
  constructor
  case entries =>
    have hthere : ∀ node ∈ g.nodes.toList, ∃ entry, (do
        let driver ← d.driverAt g node.id
        pure (node, driver)) = Except.ok (ε := Error) entry := by
      intro node hnode
      rcases driverAt_cases hg h (hg.nodeAt_of_mem hnode) with ⟨driver, hat, -⟩ | ⟨name, hat, -⟩
      · exact ⟨_, bind_eq_ok_iff.2 ⟨_, hat, rfl⟩⟩
      · exact ⟨_, bind_eq_ok_iff.2 ⟨_, hat, rfl⟩⟩
    obtain ⟨entries, hentries⟩ := exists_mapM_eq_ok hthere
    have hrow : List.Forall₂ (fun node entry => entry.1 = node ∧
        d.driverAt g node.id = .ok entry.2) g.nodes.toList entries := by
      refine (forall₂_of_mapM_eq_ok hentries).imp fun node entry hentry => ?_
      obtain ⟨driver?, hat, hentry⟩ := bind_eq_ok_iff.1 hentry
      obtain rfl := Except.ok.inj hentry
      exact ⟨rfl, hat⟩
    refine ⟨entries, hentries, ?_, fun entry hentry => ?_⟩
    · have hsame : List.Forall₂ (fun exeId exeId' => exeId = exeId')
          (entries.map fun entry => entry.1.exeId) (g.nodes.toList.map Node.exeId) := by
        rw [List.forall₂_map_left_iff, List.forall₂_map_right_iff]
        exact hrow.flip.imp fun _ _ h => congrArg Node.exeId h.1
      exact (List.forall₂_eq_eq_eq ▸ hsame : _ = _)
    · obtain ⟨node, hmem, rfl, hat⟩ := exists_left_of_mem hrow hentry
      have hnode := hg.nodeAt_of_mem hmem
      have hid : g.nodeId entry.1.exeId = .ok entry.1.id :=
        hg.nodeId_eq_ok_iff.2 (hg.exeIdAt_of_nodeAt hnode)
      rw [driverOf_of_nodeAt hg hnode]
      exact ⟨bind_eq_ok_iff.2 ⟨_, hid, hnode⟩, hat⟩
  case driver =>
    intro exeId hexeId driver
    obtain ⟨node, hmem, rfl⟩ := List.mem_map.1 hexeId
    have hnode := hg.nodeAt_of_mem hmem
    rw [driverOf_of_nodeAt hg hnode]
    rcases driverAt_cases hg h hnode with ⟨driver', hat, hanswer⟩ | ⟨name, hat, hanswer⟩
    · simp [hat, hanswer]
    · simp [hat, hanswer]
  case noDriver =>
    intro exeId hexeId
    obtain ⟨node, hmem, rfl⟩ := List.mem_map.1 hexeId
    have hnode := hg.nodeAt_of_mem hmem
    rw [driverOf_of_nodeAt hg hnode]
    rcases driverAt_cases hg h hnode with ⟨driver, hat, hanswer⟩ | ⟨name, hat, hanswer⟩
    · simp [hat, hanswer]
    · simp [hat, hanswer]
  case unknown =>
    intro exeId hunknown
    cases hid : g.nodeId exeId with
    | error err =>
      rw [driverOf, hid, Graph.eq_nodeNotFound_of_nodeId hid]
      rfl
    | ok id =>
      obtain ⟨node, hnode, rfl⟩ := hg.exists_nodeAt_of_nodeId hid
      refine absurd (List.mem_map_of_mem ?_) hunknown
      exact List.mem_of_getElem? (Graph.nodeAt_eq_ok_iff.1 hnode)

end Directory

/-! ## Analyses -/

/-- The nodes have the declared execution ids, in the order of their declaration. -/
lemma Graph.map_exeId_nodes {w : Workflow} (h : Graph.ofWorkflow w = .ok g) :
    g.nodes.toList.map Node.exeId = w.nodes.map (·.exeId) := by
  rw [nodes_eq_of_ofWorkflow h, List.map_map]
  refine List.ext_getElem (by simp) fun i hi hi' => ?_
  simp [Node.ofDecl]

namespace Analysis

variable {w : Workflow} {settings : Settings} {a : Analysis}

/-- There is a directory exactly if the question for the driver of every declared node says where the
node belongs. It goes through the nodes in the order of their declaration, it holds the answers of the
questions, and all that happened while it was filled is what happens during them, one after the other.
If there is none, the error is that of the first question that fails for another reason than that there
is no loop, and nothing happened after it. So no resolution bears on another. -/
theorem directory_records (hbuilt : (ofWorkflow w settings).2 = .ok a) :
    ((∃ d, a.directory.result = .ok d) ↔
      ∀ exeId ∈ w.nodes.map (·.exeId), IsPlace (a.loopDriverOf exeId).result) ∧
    (∀ d, a.directory.result = .ok d →
      d.Records a.graph (fun exeId => (a.loopDriverOf exeId).result) (w.nodes.map (·.exeId)) ∧
      a.directory.events = (w.nodes.map (·.exeId)).flatMap (fun exeId => (a.loopDriverOf exeId).events)
        ++ [.indexed w.nodes.length]) ∧
    ∀ err, a.directory.result = .error err → ∃ before exeId after,
      w.nodes.map (·.exeId) = before ++ exeId :: after ∧
      (∀ exeId' ∈ before, IsPlace (a.loopDriverOf exeId').result) ∧
      ¬ IsPlace (a.loopDriverOf exeId).result ∧ (a.loopDriverOf exeId).result = .error err ∧
      a.directory.events
        = (before ++ [exeId]).flatMap fun exeId => (a.loopDriverOf exeId).events := by
  obtain ⟨g, settings'⟩ := a
  obtain ⟨hgraph, rfl⟩ := eq_of_ofWorkflow hbuilt
  have hg := Graph.wellFormed_ofWorkflow hgraph
  rw [← Graph.map_exeId_nodes hgraph, ← Graph.nodeCount_of_ofWorkflow hgraph]
  simp only [directory, loopDriverOf, limits]
  have hplace : ∀ node ∈ g.nodes.toList,
      (IsPlace (g.loopDriverOf (settings'.limits g) node.exeId).result ↔ _) := fun node hmem =>
    Directory.isPlace_iff hg (hg.nodeAt_of_mem hmem)
  rcases Directory.ofGraph_cases hg (settings'.limits g) with ⟨hentries, d, hdirectory⟩ |
    ⟨before, node, after, err, hnodes, hbefore, herr, hdirectory⟩
  · rw [hdirectory]
    refine ⟨iff_of_true ⟨d, rfl⟩ ?_, fun d' hd' => ⟨?_, ?_⟩, fun err herr => ?_⟩
    · intro exeId hexeId
      obtain ⟨node, hmem, rfl⟩ := List.mem_map.1 hexeId
      exact (hplace node hmem).2 (hentries node hmem)
    · obtain rfl := Except.ok.inj hd'
      exact Directory.records_of_ofGraph hg (by rw [hdirectory])
    · rw [Directory.told_eq_flatMap hg (List.Subset.refl _)]
    · cases herr
  · rw [hdirectory]
    have hmem : node ∈ g.nodes.toList := hnodes ▸ List.mem_append_right _ (List.mem_cons_self ..)
    have hearlier : before ++ [node] ⊆ g.nodes.toList := by
      rw [hnodes]
      exact List.append_subset.2 ⟨List.subset_append_left _ _, by simp⟩
    obtain ⟨hnoPlace, hanswer⟩ := Directory.not_isPlace_of_entry hg (hg.nodeAt_of_mem hmem) herr
    refine ⟨iff_of_false (by simp) fun hall => ?_, fun d hd => ?_, fun err' herr' => ?_⟩
    · exact hnoPlace (hall _ (List.mem_map_of_mem hmem))
    · cases hd
    · obtain rfl := Except.error.inj herr'
      refine ⟨before.map Node.exeId, node.exeId, after.map Node.exeId, by simp [hnodes], ?_, hnoPlace,
        hanswer, ?_⟩
      · intro exeId hexeId
        obtain ⟨n, hn, rfl⟩ := List.mem_map.1 hexeId
        exact (hplace n (hearlier (List.mem_append_left _ hn))).2 (hbefore n hn)
      · rw [Directory.told_eq_flatMap hg hearlier, List.map_append, List.map_singleton]

/-- The directory of the loop within a loop puts the worker under the inner driver, that one under the
outer one, and the outer one nowhere. -/
theorem directory_records_nestedLoops :
    (ofWorkflow .nestedLoops {}).2 = .ok nestedLoops ∧
      ∃ d, nestedLoops.directory.result = .ok d ∧
        d.Records .nestedLoops (fun exeId => (nestedLoops.loopDriverOf exeId).result)
          ["work", "inner", "outer"] ∧
        (d.entries .nestedLoops).map (·.map fun entry => (entry.1.exeId, entry.2.map Node.exeId))
          = .ok [("work", some "inner"), ("inner", some "outer"), ("outer", none)] := by
  have hok : nestedLoops.directory.result.isOk = true := by cbv
  obtain ⟨d, hd⟩ := exists_ok_of_isOk hok
  refine ⟨ofWorkflow_nestedLoops, d, hd, ((directory_records ofWorkflow_nestedLoops).2.1 d hd).1, ?_⟩
  have hentries : (nestedLoops.directory.result >>= fun d => d.entries .nestedLoops).map
      (·.map fun entry => (entry.1.exeId, entry.2.map Node.exeId))
        = .ok [("work", some "inner"), ("inner", some "outer"), ("outer", none)] := by
    cbv
  rw [hd] at hentries
  exact hentries

end Analysis

end WorkflowLoops

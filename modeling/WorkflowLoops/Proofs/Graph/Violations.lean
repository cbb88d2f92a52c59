import Mathlib.Data.List.Induction
import WorkflowLoops.Proofs.Declaration.Violations
import WorkflowLoops.Proofs.Graph.Construction

/-!
# Construction tells every violation

One pass over the declarations fills the tables of a draft and collects defects, and it goes on after
each of them. `Tells` says what a draft knows after some of the declarations: its nodes are the ones
declared for the first time, and its defects are the violations so far. Every declaration taken keeps
it, so at the end the defects are the violations of the workflow (`tells_ofWorkflow`).

The main statement: a workflow has a graph exactly if it is valid, and otherwise the error and the log
tell its violations in order (`Graph.ofWorkflow_tells_violations`).
-/

namespace WorkflowLoops

/-! ## First declarations -/

/-- The declarations of nodes that are not declared before. -/
def firstDeclared (nodes : List NodeDecl) : List NodeDecl :=
  ((withEarlier nodes).filter fun (n, earlier) => n.exeId ∉ earlier.map NodeDecl.exeId).map Prod.fst

lemma firstDeclared_concat (nodes : List NodeDecl) (n : NodeDecl) :
    firstDeclared (nodes ++ [n])
      = firstDeclared nodes ++ if n.exeId ∈ nodes.map NodeDecl.exeId then [] else [n] := by
  rw [firstDeclared, firstDeclared, withEarlier_concat, List.filter_append, List.map_append]
  by_cases hold : n.exeId ∈ nodes.map NodeDecl.exeId <;>
    simp only [List.filter_cons, List.filter_nil, hold, not_true_eq_false, not_false_eq_true,
      decide_false, decide_true, Bool.false_eq_true, if_false, if_true, List.map_cons, List.map_nil]

lemma mem_map_firstDeclared_iff {nodes : List NodeDecl} {exeId : String} :
    exeId ∈ (firstDeclared nodes).map NodeDecl.exeId ↔ exeId ∈ nodes.map NodeDecl.exeId := by
  induction nodes using List.reverseRecOn with
  | nil => rfl
  | append_singleton nodes n ih =>
    rw [firstDeclared_concat, List.map_append, List.mem_append, ih, List.map_append, List.mem_append]
    by_cases hold : n.exeId ∈ nodes.map NodeDecl.exeId
    · rw [if_pos hold]
      -- a node that is declared again brings no new execution id
      refine or_congr_right' fun hnew => ?_
      have hother : exeId ≠ n.exeId := fun heq => hnew (heq ▸ hold)
      simp [hother]
    · rw [if_neg hold]

/-- A first declaration is the one that is found. -/
lemma find?_of_mem_firstDeclared {nodes : List NodeDecl} {n : NodeDecl}
    (h : n ∈ firstDeclared nodes) : (nodes.find? fun m => m.exeId = n.exeId) = some n := by
  induction nodes using List.reverseRecOn with
  | nil => cases h
  | append_singleton nodes last ih =>
    rw [firstDeclared_concat, List.mem_append] at h
    rw [List.find?_append]
    rcases h with hold | hlast
    · rw [ih hold]
      rfl
    · by_cases hagain : last.exeId ∈ nodes.map NodeDecl.exeId
      · rw [if_pos hagain] at hlast
        cases hlast
      · rw [if_neg hagain, List.mem_singleton] at hlast
        have hnone : (nodes.find? fun m => m.exeId = n.exeId) = none := by
          rw [List.find?_eq_none]
          intro m hm heq
          have hid : m.exeId = n.exeId := by simpa using heq
          exact hagain (List.mem_map.2 ⟨m, hm, by rw [hid, hlast]⟩)
        rw [hnone, ← hlast]
        simp

/-! ## Ports and messages -/

/-- A port has a position exactly if it is there, even where its position wraps around. -/
lemma Port.position?_eq_none_iff {ports : List Port} {portId : String} :
    Port.position? ports.toArray portId = none ↔ portId ∉ ports.map Port.id := by
  rw [Port.position?, Option.map_eq_none_iff, Array.findIdx?_eq_none_iff]
  simp

lemma Log.upTo_append (most : Log.Level) (ms ms' : List Log.Message) :
    Log.upTo most (ms ++ ms') = Log.upTo most ms ++ Log.upTo most ms' :=
  List.filter_append ..

/-- The list of defects is as grave as can be. -/
lemma Log.upTo_report (most : Log.Level) (activity : String) (ds : List Defect) :
    Log.upTo most (Defects.report activity ds) = Defects.report activity ds := by
  refine List.filter_eq_self.2 fun m hm => ?_
  have hlevel : m.level = .error := by
    cases ds with
    | nil => cases hm
    | cons first rest =>
      rcases List.mem_cons.1 hm with rfl | hm
      · rfl
      · obtain ⟨defect, -, rfl⟩ := List.mem_map.1 hm
        rfl
  rw [hlevel, decide_eq_true_eq]
  exact Nat.zero_le _

namespace Draft

variable {d : Draft} {nodes : List NodeDecl} {found : List Defect}

/-- What a draft tells of the nodes taken so far, and of the violations found. -/
structure Tells (d : Draft) (nodes : List NodeDecl) (found : List Defect) : Prop
    extends Indexed d where
  nodes_eq : d.nodes.toList = (firstDeclared nodes).zipIdx.map fun (n, i) => Node.ofDecl ⟨i⟩ n
  defects_eq : d.defects.toList = found
  /-- The defects are told in the end, and nothing else is as grave. -/
  grave : Log.upTo .error d.log.toList = []

/-! ## Nodes -/

lemma Tells.addDefect (h : d.Tells nodes found) (defect : Defect) :
    (d.addDefect defect).Tells nodes (found ++ [defect]) where
  toIndexed := h.toIndexed.addDefect defect
  nodes_eq := h.nodes_eq
  defects_eq := by simp [Draft.addDefect, h.defects_eq]
  grave := by
    rw [Draft.addDefect, Array.toList_push, Log.upTo_append, h.grave]
    rfl

lemma Tells.addDefects (defects : List Defect) :
    ∀ {d : Draft} {found : List Defect}, d.Tells nodes found →
      (d.addDefects defects).Tells nodes (found ++ defects) := by
  induction defects with
  | nil =>
    intro d found h
    rwa [List.append_nil]
  | cons defect rest ih =>
    intro d found h
    have hrest := ih (h.addDefect defect)
    rwa [List.append_assoc] at hrest

lemma Tells.map_exeId (h : d.Tells nodes found) :
    d.nodes.toList.map Node.exeId = (firstDeclared nodes).map NodeDecl.exeId := by
  rw [h.nodes_eq, List.map_map]
  have hsame : (Node.exeId ∘ fun t : NodeDecl × Nat => Node.ofDecl ⟨t.2⟩ t.1)
      = NodeDecl.exeId ∘ Prod.fst := rfl
  rw [hsame, ← List.map_map, List.zipIdx_map_fst]

/-- An execution id has a number if it was declared. -/
lemma Tells.find?_eq_none_iff (h : d.Tells nodes found) {exeId : String} :
    d.exeIds.find? exeId = none ↔ exeId ∉ nodes.map NodeDecl.exeId := by
  rw [← mem_map_firstDeclared_iff, ← h.map_exeId]
  exact h.numbers.find?_eq_none_iff

/-- A declared node is told with what it violates. -/
theorem Tells.addNode (h : d.Tells nodes found) (n : NodeDecl) :
    (d.addNode n).Tells (nodes ++ [n]) (found ++ n.violations nodes) := by
  have hindexed := h.toIndexed.addNode n
  rw [n.violations_eq]
  unfold Draft.addNode at hindexed ⊢
  cases hfind : d.exeIds.find? n.exeId with
  | some number =>
    have hold : n.exeId ∈ nodes.map NodeDecl.exeId := by
      by_contra hnew
      rw [h.find?_eq_none_iff.2 hnew] at hfind
      cases hfind
    rw [Interner.intern_of_find?_eq_some hfind] at hindexed ⊢
    have htells := h.addDefect (.duplicateNode n.exeId)
    rw [if_pos hold]
    refine { hindexed with nodes_eq := ?_, defects_eq := htells.defects_eq, grave := htells.grave }
    rw [firstDeclared_concat, if_pos hold, List.append_nil]
    exact htells.nodes_eq
  | none =>
    have hnew := h.find?_eq_none_iff.1 hfind
    rw [Interner.intern_of_find?_eq_none hfind] at hindexed ⊢
    have htells := h.addDefects n.portDefects
    rw [if_neg hnew]
    refine { hindexed with nodes_eq := ?_, defects_eq := htells.defects_eq, grave := htells.grave }
    -- the new node takes the next number
    have hsize : d.exeIds.size = (firstDeclared nodes).length := by
      rw [h.numbers.size_eq, h.map_exeId, List.length_map]
    rw [firstDeclared_concat, if_neg hnew, List.zipIdx_append, List.map_append, Arena.toList_push,
      htells.nodes_eq, hsize]
    simp

/-! ## Connections -/

/-- An end of a connection violates what keeps it from being resolved. -/
lemma Tells.violations_eq (h : d.Tells nodes found) (label : String) (side : Side) (e : Endpoint) :
    e.violations nodes label side
      = match d.resolve label side e with
        | .ok _ => []
        | .error defect => [defect] := by
  unfold Endpoint.violations resolve
  cases hfind : d.exeIds.find? e.node with
  | none =>
    have hnone : (nodes.find? fun n => n.exeId = e.node) = none := by
      rw [List.find?_eq_none]
      intro n hn heq
      have hid : n.exeId = e.node := by simpa using heq
      exact h.find?_eq_none_iff.1 hfind (List.mem_map.2 ⟨n, hn, hid⟩)
    rw [hnone]
  | some number =>
    -- the node with this number comes from the first declaration
    have hid : ((firstDeclared nodes).map NodeDecl.exeId)[number]? = some e.node := by
      rw [← h.map_exeId]
      exact h.numbers.find?_eq_some_iff.1 hfind
    rw [List.getElem?_map, Option.map_eq_some_iff] at hid
    obtain ⟨n, hn, hname⟩ := hid
    have hfirst := find?_of_mem_firstDeclared (List.mem_of_getElem? hn)
    rw [hname] at hfirst
    have hnode : d.nodes.get? ⟨number⟩ = some (Node.ofDecl ⟨number⟩ n) := by
      rw [Arena.get?_eq_getElem?, h.nodes_eq, List.getElem?_map]
      have hat : (firstDeclared nodes).zipIdx[number]? = some (n, number) := by
        rw [List.getElem?_zipIdx, hn]
        simp
      have hnumber : Numbering.toNat (⟨number⟩ : NodeId) = number := rfl
      rw [hnumber, hat]
      rfl
    have hfindPort : (Node.ofDecl ⟨number⟩ n).find? side e.port
        = Port.position? (n.ports side).toArray e.port := by
      cases side <;> rfl
    simp only [hfirst, hnode, Option.bind_some, hfindPort]
    cases hposition : Port.position? (n.ports side).toArray e.port with
    | none => simp [Port.position?_eq_none_iff.1 hposition]
    | some position =>
      have hport : e.port ∈ (n.ports side).map Port.id := by
        by_contra hnone
        rw [Port.position?_eq_none_iff.2 hnone] at hposition
        cases hposition
      simp [hport]

/-- An edge changes neither the nodes nor the defects, and at most warns. -/
lemma Tells.addWire (h : d.Tells nodes found) {label : String} {w : Wire}
    (hindexed : (d.addWire label w).Indexed) : (d.addWire label w).Tells nodes found := by
  unfold Draft.addWire at hindexed ⊢
  split
  · rename_i hold
    rw [if_pos hold] at hindexed
    refine { hindexed with nodes_eq := h.nodes_eq, defects_eq := h.defects_eq, grave := ?_ }
    rw [Array.toList_push, Log.upTo_append, h.grave]
    rfl
  · rename_i hnew
    rw [if_neg hnew] at hindexed
    exact { hindexed with nodes_eq := h.nodes_eq, defects_eq := h.defects_eq, grave := h.grave }

/-- A declared connection is told with what it violates. -/
theorem Tells.connect (h : d.Tells nodes found) (c : Connection) :
    (d.connect c).Tells nodes (found ++ c.violations nodes) := by
  have hindexed := h.toIndexed.connect c
  rw [Connection.violations, h.violations_eq, h.violations_eq]
  unfold Draft.connect at hindexed ⊢
  cases hsource : d.resolve c.label .output c.source with
  | ok source =>
    cases htarget : d.resolve c.label .input c.target with
    | ok target =>
      simp only [hsource, htarget] at hindexed
      rw [List.append_nil, List.append_nil]
      exact h.addWire hindexed
    | error defect => exact h.addDefect defect
  | error first =>
    cases htarget : d.resolve c.label .input c.target with
    | ok target =>
      rw [List.append_nil]
      exact h.addDefect first
    | error second =>
      rw [← List.append_assoc]
      exact (h.addDefect first).addDefect second

/-! ## Whole workflows -/

/-- After all declarations the defects are the violations of the workflow. -/
theorem tells_ofWorkflow (w : Workflow) : (ofWorkflow w).Tells w.nodes w.violations := by
  have hnodes : ∀ nodes : List NodeDecl, (nodes.foldl Draft.addNode {}).Tells nodes
      ((withEarlier nodes).flatMap fun (n, earlier) => n.violations earlier) := by
    intro nodes
    induction nodes using List.reverseRecOn with
    | nil => exact { indexed_empty with nodes_eq := rfl, defects_eq := rfl, grave := rfl }
    | append_singleton nodes n ih =>
      rw [List.foldl_append, withEarlier_concat, List.flatMap_append]
      simpa using ih.addNode n
  have hconnections : ∀ connections : List Connection,
      (connections.foldl connect (w.nodes.foldl Draft.addNode {})).Tells w.nodes
        (((withEarlier w.nodes).flatMap fun (n, earlier) => n.violations earlier)
          ++ connections.flatMap fun c => c.violations w.nodes) := by
    intro connections
    induction connections using List.reverseRecOn with
    | nil => simpa using hnodes w.nodes
    | append_singleton connections c ih =>
      rw [List.foldl_append, List.flatMap_append, ← List.append_assoc]
      simpa using ih.connect c
  exact hconnections w.connections

end Draft

/-! ## Verdicts -/

/-- One defect is the error itself; of several it is the first one, with the number of the others. -/
lemma Defects.verdict_eq_error_iff {ds : List Defect} {err : Error} :
    Defects.verdict ds = .error err ↔
      (∃ only, ds = [only] ∧ err = .malformed only) ∨
      ∃ first second rest, ds = first :: second :: rest ∧
        err = .malformed (.aggregated first (rest.length + 1)) := by
  match ds with
  | [] => simp [Defects.verdict]
  | [only] => simp [Defects.verdict, eq_comm]
  | first :: second :: rest => simp [Defects.verdict, eq_comm]

/-- Without a defect nothing grave is in the log of a construction, and otherwise the list of all defects
is. -/
lemma Draft.Tells.upTo_fullLog {d : Draft} {nodes : List NodeDecl} {found : List Defect}
    (h : d.Tells nodes found) :
    Log.upTo .error d.fullLog
      = if found = [] then [] else Defects.report "building workflow graph" found := by
  have hempty : d.defects.isEmpty = true ↔ found = [] := by
    rw [← h.defects_eq]
    simp
  rw [Draft.fullLog, Log.upTo_append, h.grave, List.nil_append]
  by_cases hnone : found = []
  · rw [if_pos (hempty.2 hnone), if_pos hnone]
    rfl
  · rw [if_neg (fun hc => hnone (hempty.1 hc)), if_neg hnone, h.defects_eq, Log.upTo_report]

/-- A workflow has a graph exactly if it is valid. Otherwise the error is the violation if there is one
only, and the first one with the number of the others if there are more; and the errors in the log are
a heading and then all violations in their order. -/
theorem Graph.ofWorkflow_tells_violations (w : Workflow) :
    ((∃ g, Graph.ofWorkflow w = .ok g) ↔ w.IsValid) ∧
    (∀ err, Graph.ofWorkflow w = .error err ↔
      (∃ only, w.violations = [only] ∧ err = .malformed only) ∨
      ∃ first second rest, w.violations = first :: second :: rest ∧
        err = .malformed (.aggregated first (rest.length + 1))) ∧
    Log.upTo .error (Draft.ofWorkflow w).fullLog
      = if w.violations = [] then []
        else ⟨.error, "Encountered errors while building workflow graph:"⟩
          :: w.violations.map fun defect => ⟨.error, "ERROR: " ++ defect.message⟩ := by
  have htells := Draft.tells_ofWorkflow w
  have hdefects := htells.defects_eq
  refine ⟨?_, fun err => ?_, ?_⟩
  · rw [Graph.ofWorkflow, Draft.graph_eq_map htells.asserted, hdefects, ← w.violations_eq_nil_iff,
      ← Defects.verdict_eq_ok_iff]
    constructor
    · rintro ⟨g, hg⟩
      obtain ⟨_, hverdict, -⟩ := map_eq_ok_iff.1 hg
      exact hverdict
    · exact fun hverdict => ⟨_, map_eq_ok_iff.2 ⟨(), hverdict, rfl⟩⟩
  · rw [Graph.ofWorkflow, Draft.graph_eq_map htells.asserted, hdefects, map_eq_error_iff,
      Defects.verdict_eq_error_iff]
  · rw [htells.upTo_fullLog]
    have hheading : "Encountered errors while " ++ "building workflow graph" ++ ":"
        = "Encountered errors while building workflow graph:" := by decide
    by_cases hnone : w.violations = []
    · rw [if_pos hnone, if_pos hnone]
    · obtain ⟨first, rest, hsome⟩ := List.exists_cons_of_ne_nil hnone
      rw [if_neg hnone, if_neg hnone, hsome, Defects.report, hheading]

end WorkflowLoops

import WorkflowLoops.Driver.Directory
import WorkflowLoops.Proofs.Graph.Lookup
import WorkflowLoops.Proofs.Report

/-!
# What a directory of drivers holds

A directory is filled by resolving the nodes one after the other, each under its own number. So it holds
what every single resolution says, in the order of the nodes, and it fails with the first resolution
that fails for another reason than that there is no loop (`map_result_ofGraph`).
-/

namespace WorkflowLoops

namespace Directory

/-- What the directory says of a node. -/
def entry (g : Graph) (limits : Limits) (node : Node) : Except Error (Option NodeId) :=
  listed (g.resolveDriver limits node.id).result

variable {g : Graph} {limits : Limits}

/-- A node has an entry if it has a driver, or if it lies in no loop. -/
lemma listed_eq_ok_iff {result : Except Error NodeId} {driver? : Option NodeId} :
    listed result = .ok driver? ↔
      (∃ driver, result = .ok driver ∧ driver? = some driver) ∨
        ∃ name, result = .error (.noGoverningDriver name) ∧ driver? = none := by
  unfold listed
  split <;> simp_all [eq_comm]

/-- Nodes that stand in the order of their numbers are all filed. -/
lemma map_result_fill {nodes : List Node} :
    ∀ {d : Directory},
      (∀ i node, nodes[i]? = some node → node.id.index = d.drivers.size + i) →
      (fill g limits d nodes).result.map (·.drivers.toList)
        = (nodes.mapM (entry g limits)).map (d.drivers.toList ++ ·) := by
  induction nodes with
  | nil =>
    intro d _
    show Except.ok d.drivers.toList = Except.ok (d.drivers.toList ++ [])
    rw [List.append_nil]
  | cons node rest ih =>
    intro d hids
    have hfirst : node.id.index = d.drivers.size := hids 0 node rfl
    have hfill : (fill g limits d (node :: rest)).result
        = entry g limits node >>= d.file node.id >>= fun d => (fill g limits d rest).result := by
      rw [fill, entry]
      cases listed (g.resolveDriver limits node.id).result >>= d.file node.id <;> rfl
    rw [hfill, List.mapM_cons]
    cases entry g limits node with
    | error err => rfl
    | ok driver? =>
      have hfile : d.file node.id driver? = .ok ⟨d.drivers.push driver?⟩ := by
        rw [file, if_pos hfirst.symm]
      have hrest : ∀ i n, rest[i]? = some n → n.id.index = (d.drivers.push driver?).size + i := by
        intro i n hn
        have hindex := hids (i + 1) n hn
        rw [Arena.size_push]
        omega
      have hnext := ih (d := ⟨d.drivers.push driver?⟩) hrest
      show (d.file node.id driver? >>= fun d => (fill g limits d rest).result).map _ = _
      rw [hfile]
      refine hnext.trans ?_
      cases rest.mapM (entry g limits) with
      | error err => rfl
      | ok drivers =>
        show Except.ok _ = Except.ok _
        simp

/-- A directory holds the entries of all nodes in their order, or fails with the first one that
fails. -/
theorem map_result_ofGraph (hg : g.WellFormed) :
    (ofGraph g limits).result.map (·.drivers.toList) = g.nodes.toList.mapM (entry g limits) := by
  have hids : ∀ i node, g.nodes.toList[i]? = some node →
      node.id.index = ({} : Directory).drivers.size + i := by
    intro i node hi
    rw [hg.node_id i node hi]
    exact (Nat.zero_add i).symm
  have hfill : (fill g limits {} g.nodes.toList).result.map (·.drivers.toList) = _ :=
    map_result_fill hids
  have hblank : (g.nodes.toList.mapM (entry g limits)).map (({} : Directory).drivers.toList ++ ·)
      = g.nodes.toList.mapM (entry g limits) := by
    cases g.nodes.toList.mapM (entry g limits) <;> rfl
  rw [ofGraph, Report.andThen, ← hblank, ← hfill]
  cases (fill g limits {} g.nodes.toList).result <;> rfl

/-- In a graph that has a directory every node has an entry. -/
theorem exists_entry_of_ofGraph (hg : g.WellFormed) {d : Directory}
    (h : (ofGraph g limits).result = .ok d) {id : NodeId} {node : Node}
    (hnode : g.nodeAt id = .ok node) :
    ∃ driver?, d.drivers.get? id = some driver? ∧
      listed (g.resolveDriver limits id).result = .ok driver? := by
  have hrow : (ofGraph g limits).result.map (·.drivers.toList) = _ := map_result_ofGraph hg
  rw [h] at hrow
  have hentries := forall₂_of_mapM_eq_ok hrow.symm
  obtain ⟨hi, hget⟩ := List.getElem?_eq_some_iff.1 (Graph.nodeAt_eq_ok_iff.1 hnode)
  have hi' : id.index < d.drivers.toList.length := hentries.length_eq ▸ hi
  have hentry := hentries.get hi hi'
  rw [List.get_eq_getElem, List.get_eq_getElem, hget, entry, hg.id_of_nodeAt hnode] at hentry
  refine ⟨d.drivers.toList[id.index], ?_, hentry⟩
  rw [Arena.get?_eq_getElem?]
  exact List.getElem?_eq_getElem hi'

end Directory

end WorkflowLoops

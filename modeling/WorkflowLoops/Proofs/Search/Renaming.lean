import Mathlib
import WorkflowLoops.Proofs.Driver.Walks
import WorkflowLoops.Proofs.Failure.Routes
import WorkflowLoops.Proofs.Graph.Renaming
import WorkflowLoops.Proofs.Reset.Cycles

/-!
# Renamed walks

What queries are about are walks: the routes of a failure, the loops of a reset, and the walks out of a
loop that hit drivers. A renaming takes each of them to one of the renamed graph, out of the same port.
With a renaming in each direction nothing is lost on the way, so what cannot be extended in the one
graph cannot be extended in the other one (`Renaming.isRoute`).
-/

namespace WorkflowLoops.Graph.Renaming

/-- How a renamed path remembers a node. -/
def visit {g g' : Graph} (ρ : Renaming g g') (v : Visit) : Visit := ⟨ρ.node v.node, v.via⟩

variable {g g' : Graph} {ρ : Renaming g g'} (σ : Renaming g' g) {start : NodeId}
  {output output' : PortIdx} {w : List Edge} {stop : StopRule}

include σ

/-! ## Walks there and back -/

lemma map_edge_map_edge (hg : g.WellFormed) (hw : ∀ e ∈ w, e ∈ g.edges.toList) :
    (w.map ρ.edge).map σ.edge = w := by
  rw [List.map_map]
  calc
    w.map (σ.edge ∘ ρ.edge) = w.map id := List.map_congr_left fun e he => ρ.edge_edge σ hg (hw e he)
    _ = w := List.map_id w

/-- Walks that are renamed to the same walk are the same. -/
lemma map_edge_injOn (hg : g.WellFormed) {v : List Edge} (hv : ∀ e ∈ v, e ∈ g.edges.toList)
    (hw : ∀ e ∈ w, e ∈ g.edges.toList) (h : v.map ρ.edge = w.map ρ.edge) : v = w := by
  rw [← map_edge_map_edge σ hg hv, h, map_edge_map_edge σ hg hw]

/-- Nodes of the graph that are all different are renamed to different ones. -/
lemma nodup_map_node (hg : g.WellFormed) {ids : List NodeId}
    (hids : ∀ id ∈ ids, ∃ n, g.nodeAt id = .ok n) (h : ids.Nodup) : (ids.map ρ.node).Nodup := by
  refine h.map_on fun a ha b hb heq => ?_
  obtain ⟨n, hn⟩ := hids a ha
  obtain ⟨m, hm⟩ := hids b hb
  rw [← ρ.node_node σ hg hn, heq, ρ.node_node σ hg hm]

/-- A walk that goes on from edge to edge does so after renaming. -/
lemma isChain_map_edge (hg : g.WellFormed) (hg' : g'.WellFormed) {walk : Walk}
    (hw : ∀ e ∈ w, e ∈ g.edges.toList) (h : w.IsChain fun e f => g.GoesOn walk (.after e) f) :
    (w.map ρ.edge).IsChain fun e f => g'.GoesOn walk (.after e) f := by
  rw [List.isChain_map]
  refine h.imp_of_mem_imp fun e f he _ hgoes => ?_
  rw [← ρ.spot_after hg hg' (hw e he)]
  exact ρ.goesOn σ hg hg' hgoes

/-- A walk that opens at an output does so after renaming. -/
lemma exists_opens (hg : g.WellFormed) (hg' : g'.WellFormed) {walk : Walk}
    (hsame : ρ.SameOutput start output output')
    (h : ∃ e, w.head? = some e ∧ g.Opens walk start output e) :
    ∃ e, (w.map ρ.edge).head? = some e ∧ g'.Opens walk (ρ.node start) output' e := by
  obtain ⟨e, hhead, hopens⟩ := h
  refine ⟨ρ.edge e, ?_, hsame.opens σ hg hg' hopens⟩
  rw [List.head?_map, hhead]
  rfl

/-! ## Routes -/

lemma keyOf_edge (hg : g.WellFormed) (hg' : g'.WellFormed) {e : Edge} (he : e ∈ g.edges.toList) :
    Failure.keyOf g' stop (ρ.edge e) = ρ.visit (Failure.keyOf g stop e) := by
  obtain ⟨n, hn, -⟩ := hg.exists_target he
  have hcontroller : g'.isController (ρ.edge e).target = g.isController e.target := by
    rw [isController, isController, ρ.target_edge hg hg' he, ρ.kind_node σ hg hg' hn]
  rw [Failure.keyOf, Failure.keyOf, hcontroller, ρ.targetRole_edge hg he, ρ.target_edge hg hg' he]
  rfl

/-- What a path remembers of different nodes stays different. -/
lemma nodup_map_visit (hg : g.WellFormed) {visits : List Visit}
    (hvisits : ∀ v ∈ visits, ∃ n, g.nodeAt v.node = .ok n) (h : visits.Nodup) :
    (visits.map ρ.visit).Nodup := by
  refine h.map_on fun u hu v hv heq => ?_
  obtain ⟨n, hn⟩ := hvisits u hu
  obtain ⟨m, hm⟩ := hvisits v hv
  obtain ⟨hnode, hvia⟩ := Visit.mk.inj heq
  have hsame : u.node = v.node := by rw [← ρ.node_node σ hg hn, hnode, ρ.node_node σ hg hm]
  exact congrArg₂ Visit.mk hsame hvia

/-- A trail of a failure is renamed to a trail. -/
theorem isTrail (hg : g.WellFormed) (hg' : g'.WellFormed)
    (hsame : ρ.SameOutput start output output') (h : Failure.IsTrail g stop start output w) :
    Failure.IsTrail g' stop (ρ.node start) output' (w.map ρ.edge) := by
  have hw := h.toIsWalk.mem_edges hg
  refine ⟨⟨exists_opens σ hg hg' hsame h.opens, isChain_map_edge σ hg hg' hw h.goesOn, ?_⟩, ?_⟩
  · intro hstop e' he'
    rw [← List.map_dropLast] at he'
    obtain ⟨e, he, rfl⟩ := List.mem_map.1 he'
    rw [ρ.entersLoop_edge hg hg' (hw e (List.mem_of_mem_dropLast he))]
    exact h.passes hstop e he
  · rw [List.length_map, List.map_map]
    refine h.simple.imp_right fun hnodup => ?_
    obtain ⟨n, hn⟩ := hsame.exists_node
    have hvisits : ∀ v ∈ ⟨start, none⟩ :: w.map (Failure.keyOf g stop),
        ∃ n, g.nodeAt v.node = .ok n := by
      rw [List.forall_mem_cons]
      refine ⟨⟨n, hn⟩, fun v hv => ?_⟩
      obtain ⟨e, he, rfl⟩ := List.mem_map.1 hv
      obtain ⟨m, hm, -⟩ := hg.exists_target (hw e he)
      exact ⟨m, hm⟩
    have hkeys : w.map (Failure.keyOf g' stop ∘ ρ.edge)
        = (w.map (Failure.keyOf g stop)).map ρ.visit := by
      rw [List.map_map]
      exact List.map_congr_left fun e he => keyOf_edge σ hg hg' (hw e he)
    rw [hkeys]
    exact nodup_map_visit σ hg hvisits hnodup

/-- A route of a failure is renamed to a route. -/
theorem isRoute (hg : g.WellFormed) (hg' : g'.WellFormed)
    (hsame : ρ.SameOutput start output output') (h : Failure.IsRoute g stop start output w) :
    Failure.IsRoute g' stop (ρ.node start) output' (w.map ρ.edge) := by
  refine ⟨isTrail σ hg hg' hsame h.toIsTrail, fun e he => h.maximal (σ.edge e) ?_⟩
  -- a longer trail would be one before renaming
  obtain ⟨n, hn⟩ := hsame.exists_node
  have hback := isTrail ρ hg' hg (hsame.symm σ hg) he
  rwa [List.map_append, map_edge_map_edge σ hg (h.toIsWalk.mem_edges hg),
    ρ.node_node σ hg hn] at hback

/-! ## Loops -/

/-- A loop of a driver is renamed to a loop. -/
theorem isLoop (hg : g.WellFormed) (hg' : g'.WellFormed) (hkind : g.kind start = .ok .driver)
    (hsame : ρ.SameOutput start output output') (h : Reset.IsLoop g start output w) :
    Reset.IsLoop g' (ρ.node start) output' (w.map ρ.edge) := by
  have hw := h.mem_edges hg
  obtain ⟨n, hn⟩ := hsame.exists_node
  have hkind' : g'.kind (ρ.node start) = .ok .driver := (ρ.kind_node σ hg hg' hn).trans hkind
  constructor
  case opens =>
    simp only [← Reset.opens_iff hkind']
    refine exists_opens σ hg hg' hsame ?_
    simp only [Reset.opens_iff hkind]
    exact h.opens
  case goesOn => exact isChain_map_edge σ hg hg' hw h.goesOn
  case simple =>
    have hids : ∀ id ∈ start :: w.dropLast.map (·.target), ∃ n, g.nodeAt id = .ok n := by
      rw [List.forall_mem_cons]
      refine ⟨⟨n, hn⟩, fun id hid => ?_⟩
      obtain ⟨e, he, rfl⟩ := List.mem_map.1 hid
      obtain ⟨m, hm, -⟩ := hg.exists_target (hw e (List.mem_of_mem_dropLast he))
      exact ⟨m, hm⟩
    have htargets : (w.map ρ.edge).dropLast.map (·.target)
        = (w.dropLast.map (·.target)).map ρ.node := by
      rw [← List.map_dropLast, List.map_map, List.map_map]
      exact List.map_congr_left fun e he =>
        ρ.target_edge hg hg' (hw e (List.mem_of_mem_dropLast he))
    rw [htargets]
    exact nodup_map_node σ hg hids h.simple
  case closes =>
    obtain ⟨e, hlast, rfl, hrole⟩ := h.closes
    have he := hw e (List.mem_of_mem_getLast? hlast)
    refine ⟨ρ.edge e, ?_, ρ.target_edge hg hg' he, ?_⟩
    · rw [List.getLast?_map, hlast]
      rfl
    · rw [ρ.targetRole_edge hg he, hrole]

/-! ## Walks out of a loop -/

section Explorations

open Exploration

variable (hg : g.WellFormed) (hg' : g'.WellFormed)

include hg hg'

lemma leads {a b : Spot} (h : Leads g a b) : Leads g' (ρ.spot a) (ρ.spot b) := by
  obtain ⟨e, hgoes, hpass, rfl⟩ := h
  have he := (hg.goesOn_mem_edges hgoes).1
  refine ⟨ρ.edge e, ρ.goesOn σ hg hg' hgoes, ?_, (ρ.spot_after hg hg' he).symm⟩
  rw [ρ.entersLoop_edge hg hg' he, hpass]

lemma reaches {s : Spot} (h : Reaches g start s) : Reaches g' (ρ.node start) (ρ.spot s) :=
  h.lift ρ.spot fun _ _ => leads σ hg hg'

/-- A driver that is hit is renamed to one that is hit. -/
theorem hits {d : NodeId} (h : Hits g start d) : Hits g' (ρ.node start) (ρ.node d) := by
  obtain ⟨s, e, hreach, hgoes, henters, rfl⟩ := h
  have he := (hg.goesOn_mem_edges hgoes).1
  refine ⟨ρ.spot s, ρ.edge e, reaches σ hg hg' hreach, ρ.goesOn σ hg hg' hgoes, ?_,
    ρ.target_edge hg hg' he⟩
  rw [ρ.entersLoop_edge hg hg' he, henters]

/-- Where walks go in a circle, renamed walks do. -/
theorem circles (h : Circles g start) : Circles g' (ρ.node start) := by
  obtain ⟨s, hreach, hcircle⟩ := h
  exact ⟨ρ.spot s, reaches σ hg hg' hreach,
    hcircle.lift ρ.spot fun _ _ => leads σ hg hg'⟩

end Explorations

end WorkflowLoops.Graph.Renaming

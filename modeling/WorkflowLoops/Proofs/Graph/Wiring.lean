import Mathlib.Data.List.Basic
import WorkflowLoops.Graph.Wiring

/-!
# What the wiring of a graph holds

The cells of a wiring are fixed when it is blank; connecting an edge only fills them. So the cell of
an output holds the edges that leave this output, in the order in which they were connected, and the
edges of a node are those of its outputs, one after the other.
-/

namespace WorkflowLoops.Wiring

/-- The number of cells in each row. -/
def shape (w : Wiring) : Array Nat := w.rows.map Array.size

/-- Whether there is a cell for an output of a node. -/
def HasCell (w : Wiring) (node : NodeId) (output : PortIdx) : Prop :=
  ∃ count, w.shape[node.index]? = some count ∧ output.index < count

theorem shape_blank (nodes : List Node) :
    (blank nodes).shape = (nodes.map fun n => n.outputs.size).toArray := by
  simp [shape, blank]

theorem shape_connect (w : Wiring) (e : Edge) : (w.connect e).shape = w.shape := by
  unfold shape connect
  apply Array.ext_getElem?
  intro i
  simp only [Array.getElem?_map, Array.getElem?_modify]
  split
  · cases w.rows[i]? <;> simp
  · rfl

theorem shape_foldl_connect (edges : List Edge) (w : Wiring) :
    (edges.foldl connect w).shape = w.shape := by
  induction edges generalizing w with
  | nil => rfl
  | cons e rest ih => rw [List.foldl_cons, ih, shape_connect]

theorem outgoing_blank (nodes : List Node) (node : NodeId) (output : PortIdx) :
    (blank nodes).outgoing node output = [] := by
  simp only [outgoing, blank, List.getElem?_toArray, List.getElem?_map]
  cases nodes[node.index]? with
  | none => rfl
  | some n =>
    simp only [Option.map_some, Array.getElem?_replicate]
    by_cases h : output.index < n.outputs.size <;> simp [h]

/-- Connecting an edge puts it behind the edges in its cell and leaves the other cells. -/
theorem outgoing_connect {w : Wiring} {e : Edge} (h : w.HasCell e.source e.output) (node : NodeId)
    (output : PortIdx) :
    (w.connect e).outgoing node output
      = w.outgoing node output ++ [e].filter fun e => e.source = node ∧ e.output = output := by
  obtain ⟨count, hcount, hlt⟩ := h
  obtain ⟨node⟩ := node
  obtain ⟨output⟩ := output
  simp only [shape, Array.getElem?_map, Option.map_eq_some_iff] at hcount
  obtain ⟨row, hrow, rfl⟩ := hcount
  simp only [outgoing, connect, Array.getElem?_modify]
  by_cases hnode : e.source.index = node
  · subst hnode
    rw [if_pos rfl, hrow]
    simp only [Option.map_some, Array.getElem?_modify]
    by_cases houtput : e.output.index = output
    · subst houtput
      rw [if_pos rfl, Array.getElem?_eq_getElem hlt]
      simp
    · rw [if_neg houtput]
      have hne : e.output ≠ ⟨output⟩ := fun hc => houtput (by rw [hc])
      simp [hne]
  · rw [if_neg hnode]
    have hne : e.source ≠ ⟨node⟩ := fun hc => hnode (by rw [hc])
    simp [hne]

lemma outgoing_foldl_connect (edges : List Edge) :
    ∀ w : Wiring, (∀ e ∈ edges, w.HasCell e.source e.output) → ∀ node output,
      (edges.foldl connect w).outgoing node output
        = w.outgoing node output ++ edges.filter fun e => e.source = node ∧ e.output = output := by
  induction edges with
  | nil => intro w _ node output; simp
  | cons e rest ih =>
    intro w hcells node output
    have hfirst : w.HasCell e.source e.output := hcells e (List.mem_cons_self ..)
    have hrest : ∀ f ∈ rest, (w.connect e).HasCell f.source f.output := by
      intro f hf
      rw [HasCell, shape_connect]
      exact hcells f (List.mem_cons_of_mem _ hf)
    rw [List.foldl_cons, ih _ hrest, outgoing_connect hfirst, List.append_assoc,
      ← List.filter_append, List.singleton_append]

/-- The cell of an output holds the edges that leave this output. -/
theorem outgoing_ofEdges {nodes : List Node} {edges : List Edge}
    (h : ∀ e ∈ edges, (blank nodes).HasCell e.source e.output) (node : NodeId) (output : PortIdx) :
    (ofEdges nodes edges).outgoing node output
      = edges.filter fun e => e.source = node ∧ e.output = output := by
  rw [ofEdges, outgoing_foldl_connect edges _ h, outgoing_blank, List.nil_append]

lemma flatMap_eq_range_flatMap {α β : Type} (l : List α) (f : α → List β) :
    l.flatMap f = (List.range l.length).flatMap fun i => (l[i]?.map f).getD [] := by
  induction l with
  | nil => rfl
  | cons a rest ih =>
    rw [List.flatMap_cons, ih, List.length_cons, List.range_succ_eq_map, List.flatMap_cons,
      List.flatMap_map]
    simp

/-- The edges of a node are those of its outputs, in the order of the outputs. -/
theorem leaving_eq_flatMap {w : Wiring} {node : NodeId} {count : Nat}
    (h : w.shape[node.index]? = some count) :
    w.leaving node = (List.range count).flatMap fun i => w.outgoing node ⟨i⟩ := by
  simp only [shape, Array.getElem?_map, Option.map_eq_some_iff] at h
  obtain ⟨row, hrow, rfl⟩ := h
  simp only [leaving, outgoing, hrow]
  rw [flatMap_eq_range_flatMap, Array.length_toList]
  refine List.flatMap_congr fun i _ => ?_
  rw [Array.getElem?_toList]
  cases row[i]? <;> rfl

/-- A node without a row has no edges. -/
theorem leaving_eq_nil {w : Wiring} {node : NodeId} (h : w.shape[node.index]? = none) :
    w.leaving node = [] := by
  simp only [shape, Array.getElem?_map, Option.map_eq_none_iff] at h
  simp [leaving, h]

end WorkflowLoops.Wiring

import WorkflowLoops.Proofs.Graph.Lookup
import WorkflowLoops.Proofs.Report
import WorkflowLoops.Proofs.Search.Trails

/-!
# What a query lists

A query searches from every output of its node and files what is found under the names of the
outputs. Here the parts are put together for any search that keeps to a guide: there is one entry for
each output, and it holds the full trails that open there and are listed, in the lexicographic order
of the positions of their edges (`exists_listing`).
-/

namespace WorkflowLoops

namespace Listing

variable {α : Type} {entries : List (String × List α)}

/-- A listing files under the name of every output of a node the walks that satisfy a condition: all
of them, none twice, in the lexicographic order of the positions of their edges. -/
structure Enumerates (listing : Listing α) (g : Graph) (node : Node) (read : List Edge → α)
    (P : PortIdx → List Edge → Prop) : Prop where
  keys_perm : listing.keys.Perm (node.outputs.toList.map Port.name)
  entry : ∀ (i : Nat) (port : Port), node.outputs[i]? = some port →
    ∃ walks : List (List Edge), listing[port.name]? = some (walks.map read) ∧
      (∀ w, w ∈ walks ↔ P ⟨i⟩ w) ∧ (walks.map read).Nodup ∧
      walks.Pairwise fun v w => v.map g.position < w.map g.position

/-- What is listed is listed under the name of an output. -/
lemma Enumerates.exists_output {listing : Listing α} {g : Graph} {node : Node}
    {read : List Edge → α} {P : PortIdx → List Edge → Prop} (h : listing.Enumerates g node read P)
    {name : String} {xs : List α} (hget : listing[name]? = some xs) :
    ∃ (i : Nat) (port : Port), node.outputs[i]? = some port ∧ port.name = name := by
  have hkey : name ∈ node.outputs.toList.map Port.name := by
    rw [← h.keys_perm.mem_iff, Std.TreeMap.mem_keys, Std.TreeMap.mem_iff_isSome_getElem?, hget]
    rfl
  obtain ⟨port, hport, hname⟩ := List.mem_map.1 hkey
  obtain ⟨i, hi⟩ := List.mem_iff_getElem?.1 hport
  rw [Array.getElem?_toList] at hi
  exact ⟨i, port, hi, hname⟩

/-- Whether something is listed for an output of a node. -/
def HoldsAt (listing : Listing α) (node : Node) (output : PortIdx) (x : α) : Prop :=
  ∃ (port : Port) (xs : List α), node.outputs[output.index]? = some port ∧
    listing[port.name]? = some xs ∧ x ∈ xs

/-- For each output the walks out of it are listed. -/
lemma Enumerates.holdsAt {listing : Listing α} {g : Graph} {node : Node} {read : List Edge → α}
    {P : PortIdx → List Edge → Prop} (h : listing.Enumerates g node read P) {output : PortIdx}
    {port : Port} (hport : node.outputs[output.index]? = some port) {w : List Edge}
    (hw : P output w) : listing.HoldsAt node output (read w) := by
  obtain ⟨walks, hentry, hwalks, -⟩ := h.entry output.index port hport
  exact ⟨port, walks.map read, hport, hentry, List.mem_map_of_mem ((hwalks w).2 hw)⟩

/-- What is listed under any name is what the walks out of the outputs are read as. -/
theorem Enumerates.mem_iff {listing : Listing α} {g : Graph} {node : Node} {read : List Edge → α}
    {P : PortIdx → List Edge → Prop} (h : listing.Enumerates g node read P) {x : α} :
    (∃ (name : String) (xs : List α), listing[name]? = some xs ∧ x ∈ xs) ↔
      ∃ (i : Nat) (port : Port), node.outputs[i]? = some port ∧ ∃ w, P ⟨i⟩ w ∧ read w = x := by
  constructor
  · rintro ⟨name, xs, hget, hx⟩
    obtain ⟨i, port, hi, rfl⟩ := h.exists_output hget
    obtain ⟨walks, hentry, hwalks, -⟩ := h.entry i port hi
    rw [hget] at hentry
    obtain rfl := Option.some.inj hentry
    obtain ⟨w, hw, rfl⟩ := List.mem_map.1 hx
    exact ⟨i, port, hi, w, (hwalks w).1 hw, rfl⟩
  · rintro ⟨i, port, hport, w, hw, rfl⟩
    obtain ⟨walks, hentry, hwalks, -⟩ := h.entry i port hport
    exact ⟨port.name, walks.map read, hentry, List.mem_map.2 ⟨w, (hwalks w).2 hw, rfl⟩⟩

/-- Entries in the order of the outputs make a listing that enumerates what they hold. -/
theorem enumerates_ofList {g : Graph} (hg : g.WellFormed) {start : NodeId} {node : Node}
    (hnode : g.nodeAt start = .ok node) {read : List Edge → α} {P : PortIdx → List Edge → Prop}
    (hnames : entries.map Prod.fst = node.outputs.toList.map Port.name)
    (hread : ∀ output v w, P output v → P output w → read v = read w → v = w)
    (hentry : ∀ (i : Nat) (port : Port), node.outputs[i]? = some port →
      ∃ walks : List (List Edge), (port.name, walks.map read) ∈ entries ∧
        (∀ w, w ∈ walks ↔ P ⟨i⟩ w) ∧
        walks.Pairwise fun v w => v.map g.position < w.map g.position) :
    (Std.TreeMap.ofList entries : Listing α).Enumerates g node read P := by
  have hnodup : (entries.map Prod.fst).Nodup :=
    hnames ▸ (hg.portsFit_of_nodeAt hnode).outputNames_nodup
  refine ⟨hnames ▸ keys_ofList_perm hnodup, fun i port hport => ?_⟩
  obtain ⟨walks, hmem, hwalks, hordered⟩ := hentry i port hport
  refine ⟨walks, getElem?_ofList hnodup hmem, hwalks, ?_, hordered⟩
  -- walks in strict order differ, and so do their readings
  have hdistinct : walks.Nodup := hordered.imp fun hlt heq => by
    rw [heq] at hlt
    exact List.lt_irrefl _ hlt
  refine hdistinct.map_on fun v hv w hw heq => ?_
  exact hread ⟨i⟩ v w ((hwalks v).1 hv) ((hwalks w).1 hw) heq

end Listing

namespace Survey

open Search

variable {g : Graph} {walk : Walk} {start : NodeId} {node : Node} {σ : Strategy} {budget : Budget}
  {openings : List (String × List Edge)}

/-- A survey lists under the names of all outputs, in their order. -/
theorem map_fst_listings (hnode : g.nodeAt start = .ok node)
    (hopenings : g.openings walk start = .ok openings)
    (hrun : (run σ budget openings).result = .ok ()) :
    (run σ budget openings).listings.toList.map Prod.fst
      = node.outputs.toList.map Port.name := by
  rw [← Graph.WellFormed.map_fst_openings hnode hopenings]
  have hlists := listings_of_run hrun
  have hsame : List.Forall₂ (fun name name' => name = name') (openings.map Prod.fst)
      ((run σ budget openings).listings.toList.map Prod.fst) := by
    rw [List.forall₂_map_left_iff, List.forall₂_map_right_iff]
    exact hlists.imp fun opening listing h => h.1.symm
  exact (List.forall₂_eq_eq_eq ▸ hsame : _ = _).symm

/-- What a survey lists for an output: the full trails that open there and are to be listed, in the
order of the positions of their edges. -/
theorem exists_listing (hg : g.WellFormed) {G : Guide} (hσ : σ.KeepsTo G g.edges.toList)
    (hrank : ∀ e ∈ g.edges.toList, (G.next e).Pairwise fun f f' => g.position f < g.position f')
    (hnode : g.nodeAt start = .ok node) (hopenings : g.openings walk start = .ok openings)
    (hrun : (run σ budget openings).result = .ok ()) {i : Nat} {port : Port}
    (hport : node.outputs[i]? = some port) :
    ∃ trails : List (List Edge),
      (port.name, trails.map Path.ofEdges) ∈ (run σ budget openings).listings.toList ∧
      (∀ w, w ∈ trails ↔ (∃ e, w.head? = some e ∧ g.Opens walk start ⟨i⟩ e) ∧
        G.IsFullTrail σ.rootVisits w ∧ ∃ e, w.getLast? = some e ∧ G.lists e = true) ∧
      trails.Pairwise fun v w => v.map g.position < w.map g.position := by
  obtain ⟨first, hopening, hfirst, hordered⟩ := hg.exists_opening hnode hopenings hport
  have hlists := listings_of_run hrun
  -- the listing that belongs to this output
  obtain ⟨hi, hget⟩ := List.getElem?_eq_some_iff.1 hopening
  have hlisting := hlists.get hi (hlists.length_eq ▸ hi)
  simp only [List.get_eq_getElem, hget] at hlisting
  obtain ⟨hname, ends, hends, hpaths⟩ := hlisting
  have hthere : ∀ e ∈ first, e ∈ g.edges.toList := fun e he => ((hfirst e).1 he).1
  have hmem := Guide.mem_iff_of_unfolds hσ hends hthere
  refine ⟨(ends.filter (·.2)).map Prod.fst, ?_, ?_, ?_⟩
  · refine List.mem_of_getElem (i := i) (h := hlists.length_eq ▸ hi) (Prod.ext hname ?_)
    rw [hpaths, listed, List.map_map]
    rfl
  · intro w
    rw [List.mem_map]
    constructor
    · rintro ⟨⟨w, keep⟩, hmem', rfl⟩
      obtain ⟨hin, rfl⟩ := List.mem_filter.1 hmem'
      obtain ⟨⟨e, he, hhead⟩, hfull, hkeep⟩ := (hmem w true).1 hin
      exact ⟨⟨e, hhead, (hfirst e).1 he⟩, hfull, Option.map_eq_some_iff.1 hkeep⟩
    · rintro ⟨⟨e, hhead, hopens⟩, hfull, hkeep⟩
      refine ⟨(w, true), List.mem_filter.2 ⟨?_, rfl⟩, rfl⟩
      exact (hmem w true).2 ⟨⟨e, (hfirst e).2 hopens, hhead⟩, hfull, Option.map_eq_some_iff.2 hkeep⟩
  · rw [List.pairwise_map]
    exact (Guide.pairwise_of_unfolds hσ hrank hends hthere hordered).filter _

/-- Every path that is listed is a full trail from one of the openings. -/
theorem exists_trail_of_mem_listings {G : Guide} {edges : List Edge} (hσ : σ.KeepsTo G edges)
    (hthere : ∀ opening ∈ openings, opening.2 ⊆ edges) (hrun : (run σ budget openings).result = .ok ())
    {listing : String × List Path} (hmem : listing ∈ (run σ budget openings).listings.toList)
    {p : Path} (hp : p ∈ listing.2) :
    ∃ opening ∈ openings, ∃ w, (∃ f ∈ opening.2, w.head? = some f) ∧
      G.IsFullTrail σ.rootVisits w ∧ (∃ e, w.getLast? = some e ∧ G.lists e = true) ∧
      Path.ofEdges w = p := by
  obtain ⟨i, hi, rfl⟩ := List.getElem_of_mem hmem
  have hlists := listings_of_run hrun
  have hi' : i < openings.length := hlists.length_eq ▸ hi
  have hlisting := hlists.get hi' hi
  obtain ⟨-, ends, hends, hpaths⟩ := hlisting
  rw [List.get_eq_getElem] at hpaths
  rw [hpaths, listed] at hp
  obtain ⟨⟨w, keep⟩, hw, rfl⟩ := List.mem_map.1 hp
  obtain ⟨hin, rfl⟩ := List.mem_filter.1 hw
  have hopening : openings[i] ∈ openings := List.getElem_mem hi'
  obtain ⟨hhead, hfull, hlast⟩ :=
    (Guide.mem_iff_of_unfolds hσ hends (hthere _ hopening) w true).1 hin
  exact ⟨openings[i], hopening, w, hhead, hfull, Option.map_eq_some_iff.1 hlast, rfl⟩

end Survey

end WorkflowLoops

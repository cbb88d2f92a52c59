import Mathlib
import WorkflowLoops.Proofs.Search.Lengths

/-!
# The first route to each input

A plan may drop the routes that end on an input on which an earlier route ends. While it goes through
the outputs it remembers the inputs that were reached. Here this is said without a memory: a path is kept
if no path before it, kept or not, ends where it does (`firstTo`). What the plan keeps is just that,
through all outputs in the order of their declaration (`getElem?_dropRepeated`). So no two kept paths end
on the same input, and no input is lost (`failureRoutes_keep_firsts`).
-/

namespace WorkflowLoops

/-- The input on which a path ends. -/
def Path.landing? (p : Path) : Option Failure.Landing :=
  p.last?.map fun hop => (hop.target, hop.input)

lemma Path.landing?_ofEdges {w : List Edge} {e : Edge} (h : w.getLast? = some e) :
    (ofEdges w).landing? = some (e.target, e.input) := by
  obtain ⟨init, rfl⟩ := List.getLast?_eq_some_iff.1 h
  simp [landing?, last?, ofEdges, along, Edge.hop]

namespace Failure

/-- The paths of a row that end where no path before them does, be it one of the row or one that came
earlier. -/
def firstTo (earlier paths : List Path) : List Path :=
  (paths.zipIdx.filter fun entry =>
    entry.1.landing? ∉ (earlier ++ paths.take entry.2).map Path.landing?).map Prod.fst

/-- Whether a memory holds the inputs on which given paths end. -/
def Remembers (reached : List Landing) (earlier : List Path) : Prop :=
  ∀ landing, landing ∈ reached ↔ some landing ∈ earlier.map Path.landing?

variable {earlier paths rest : List Path} {path : Path} {reached : List Landing}

/-! ## First paths of a row -/

theorem firstTo_cons : firstTo earlier (path :: rest) =
    if path.landing? ∈ earlier.map Path.landing? then firstTo (earlier ++ [path]) rest
    else path :: firstTo (earlier ++ [path]) rest := by
  have hrest : (((rest.zipIdx 1).filter fun entry =>
      entry.1.landing? ∉ (earlier ++ (path :: rest).take entry.2).map Path.landing?).map Prod.fst)
        = firstTo (earlier ++ [path]) rest := by
    rw [List.zipIdx_succ, List.filter_map, List.map_map, firstTo]
    simp [Function.comp_def]
  rw [← hrest, firstTo, List.zipIdx_cons, List.filter_cons]
  by_cases hold : path.landing? ∈ earlier.map Path.landing?
  · simp [hold]
  · simp [hold]

theorem firstTo_append :
    firstTo earlier (paths ++ rest) = firstTo earlier paths ++ firstTo (earlier ++ paths) rest := by
  induction paths generalizing earlier with
  | nil => simp [firstTo]
  | cons path paths ih =>
    rw [List.cons_append, firstTo_cons, firstTo_cons, ih, List.append_cons earlier path paths]
    split
    · rfl
    · rw [List.cons_append]

/-- The first paths end where the row ends and nothing earlier does. -/
theorem mem_map_firstTo {landing : Option Landing} :
    landing ∈ (firstTo earlier paths).map Path.landing? ↔
      landing ∈ paths.map Path.landing? ∧ landing ∉ earlier.map Path.landing? := by
  induction paths generalizing earlier with
  | nil => simp [firstTo]
  | cons path rest ih =>
    rw [firstTo_cons]
    rcases eq_or_ne landing path.landing? with rfl | hne
    · split
      · rename_i hold
        refine iff_of_false (fun h => (ih.1 h).2 ?_) fun h => h.2 hold
        simp
      · rename_i hnew
        exact iff_of_true (List.mem_map_of_mem (List.mem_cons_self ..))
          ⟨List.mem_map_of_mem (List.mem_cons_self ..), hnew⟩
    · have hrest : landing ∈ (firstTo (earlier ++ [path]) rest).map Path.landing? ↔
          landing ∈ rest.map Path.landing? ∧ landing ∉ earlier.map Path.landing? := by
        rw [ih]
        simp [hne]
      split
      · rw [hrest, List.map_cons, List.mem_cons, or_iff_right hne]
      · rw [List.map_cons, List.mem_cons, hrest, List.map_cons, List.mem_cons, or_iff_right hne,
          or_iff_right hne]

/-- No two of the first paths end on the same input. -/
theorem nodup_map_firstTo : ((firstTo earlier paths).map Path.landing?).Nodup := by
  induction paths generalizing earlier with
  | nil => simp [firstTo]
  | cons path rest ih =>
    rw [firstTo_cons]
    split
    · exact ih
    · rw [List.map_cons, List.nodup_cons, mem_map_firstTo]
      exact ⟨by simp, ih⟩

/-! ## What a plan keeps -/

lemma keepNew_of_landing {landing : Landing} (hpath : path.landing? = some landing)
    {kept : Array Path} :
    keepNew (reached, kept) path =
      if landing ∈ reached then (reached, kept) else (landing :: reached, kept.push path) := by
  obtain ⟨hop, hlast, rfl⟩ := Option.map_eq_some_iff.1 hpath
  simp only [keepNew, hlast]

/-- A row is gone through with the memory of all earlier paths, and leaves that of its own paths too. -/
lemma foldl_keepNew (hlands : ∀ path ∈ paths, ∃ landing, path.landing? = some landing) :
    ∀ {reached earlier} (kept : Array Path), Remembers reached earlier →
      (paths.foldl keepNew (reached, kept)).2.toList = kept.toList ++ firstTo earlier paths ∧
        Remembers (paths.foldl keepNew (reached, kept)).1 (earlier ++ paths) := by
  induction paths with
  | nil =>
    intro reached earlier kept h
    exact ⟨by simp [firstTo], by simpa using h⟩
  | cons path rest ih =>
    intro reached earlier kept h
    obtain ⟨⟨landing, hlanding⟩, hrest⟩ := List.forall_mem_cons.1 hlands
    have hold : landing ∈ reached ↔ path.landing? ∈ earlier.map Path.landing? := by
      rw [hlanding]
      exact h landing
    rw [List.foldl_cons, keepNew_of_landing hlanding, firstTo_cons, List.append_cons earlier path rest]
    by_cases hin : landing ∈ reached
    · rw [if_pos hin, if_pos (hold.1 hin)]
      refine ih hrest kept fun other => ?_
      rw [h other, List.map_append, List.mem_append]
      refine ⟨.inl, fun hother => hother.elim id fun heq => ?_⟩
      rw [List.mem_singleton.1 heq]
      exact hold.1 hin
    · rw [if_neg hin, if_neg (hin ∘ hold.2)]
      have hremembers : Remembers (landing :: reached) (earlier ++ [path]) := by
        intro other
        rw [List.mem_cons, h other, List.map_append, List.mem_append, List.map_singleton,
          List.mem_singleton, hlanding, Option.some.injEq, or_comm]
      obtain ⟨hkept, hmemory⟩ := ih hrest (kept.push path) hremembers
      exact ⟨by rw [hkept]; simp, hmemory⟩

/-- Without repeated ends every row has its first paths, after all paths of the rows before it. -/
theorem getElem?_dropRepeated {listings : List (String × List Path)}
    (hlands : ∀ entry ∈ listings, ∀ path ∈ entry.2, ∃ landing, path.landing? = some landing) (i : Nat) :
    (dropRepeated listings)[i]? = listings[i]?.map fun entry =>
      (entry.1, firstTo ((listings.map Prod.snd).take i).flatten entry.2) := by
  have hfold : ∀ reached earlier (done : Array (String × List Path)), Remembers reached earlier →
      ∃ rest, (listings.foldl dropRepeated.perOutput (reached, done)).2.toList = done.toList ++ rest ∧
        ∀ i, rest[i]? = listings[i]?.map fun entry =>
          (entry.1, firstTo (earlier ++ ((listings.map Prod.snd).take i).flatten) entry.2) := by
    clear i
    induction listings with
    | nil => exact fun _ _ _ _ => ⟨[], by simp, by simp⟩
    | cons entry listings ih =>
      intro reached earlier done h
      obtain ⟨hfirst, hlater⟩ := List.forall_mem_cons.1 hlands
      obtain ⟨hkept, hmemory⟩ := foldl_keepNew hfirst #[] h
      obtain ⟨rest, hall, hrest⟩ := ih hlater _ _ (done.push (entry.1, firstTo earlier entry.2)) hmemory
      refine ⟨(entry.1, firstTo earlier entry.2) :: rest, ?_, fun i => ?_⟩
      · rw [List.foldl_cons, dropRepeated.perOutput]
        simp only [hkept]
        simpa using hall
      · cases i with
        | zero => simp
        | succ i => simp [hrest i]
  obtain ⟨rest, hall, hrest⟩ := hfold [] [] #[] (by simp [Remembers])
  rw [dropRepeated, hall]
  simpa using hrest i

/-! ## Listings -/

/-- The rows of a listing in the order of the outputs. -/
def rows (listing : Listing Path) (node : Node) : List (List Path) :=
  node.outputs.toList.map fun port => listing[port.name]?.getD []

/-- Whether a listing keeps of the paths of another one that end on the same input only the first. The
outputs of the node come one after the other, in the order of their declaration, and the paths of an
output in their order. -/
structure KeepsFirsts (node : Node) (full kept : Listing Path) : Prop where
  full_keys : full.keys.Perm (node.outputs.toList.map Port.name)
  kept_keys : kept.keys.Perm (node.outputs.toList.map Port.name)
  /-- Every path ends on an input. -/
  lands : ∀ path ∈ (rows full node).flatten, ∃ landing, path.landing? = some landing
  /-- An output keeps the paths that end where no path before them does. -/
  row : ∀ i : Nat, (rows kept node)[i]? =
    (rows full node)[i]?.map (firstTo ((rows full node).take i).flatten)

/-- Rows of first paths are the first paths of all rows. -/
lemma flatten_eq_firstTo {all kept : List (List Path)}
    (h : ∀ i : Nat, kept[i]? = all[i]?.map (firstTo (earlier ++ (all.take i).flatten))) :
    kept.flatten = firstTo earlier all.flatten := by
  induction all generalizing earlier kept with
  | nil =>
    have hnil : kept = [] := List.ext_getElem? fun i => by simpa using h i
    simp [hnil, firstTo]
  | cons row all ih =>
    cases kept with
    | nil => simpa using h 0
    | cons first kept =>
      have hfirst : first = firstTo earlier row := by simpa using h 0
      have hrest : kept.flatten = firstTo (earlier ++ row) all.flatten := by
        refine ih fun i => ?_
        simpa using h (i + 1)
      rw [List.flatten_cons, List.flatten_cons, firstTo_append, hfirst, hrest]

namespace KeepsFirsts

variable {node : Node} {full kept : Listing Path}

lemma flatten_eq (h : KeepsFirsts node full kept) :
    (rows kept node).flatten = firstTo [] (rows full node).flatten :=
  flatten_eq_firstTo h.row

/-- No two paths that are kept end on the same input. -/
theorem once (h : KeepsFirsts node full kept) :
    ((rows kept node).flatten.map Path.landing?).Nodup := by
  rw [h.flatten_eq]
  exact nodup_map_firstTo

/-- No input is lost. -/
theorem inputs (h : KeepsFirsts node full kept) (landing : Option Landing) :
    landing ∈ (rows kept node).flatten.map Path.landing? ↔
      landing ∈ (rows full node).flatten.map Path.landing? := by
  rw [h.flatten_eq, mem_map_firstTo]
  simp

end KeepsFirsts

/-- Entries for the outputs make a listing with these rows. -/
lemma rows_ofList {node : Node} {entries : List (String × List Path)}
    (hnames : entries.map Prod.fst = node.outputs.toList.map Port.name)
    (hnodup : (node.outputs.toList.map Port.name).Nodup) :
    rows (.ofList entries) node = entries.map Prod.snd := by
  have hrows : rows (.ofList entries) node = (entries.map Prod.fst).map fun name =>
      (Std.TreeMap.ofList entries : Listing Path)[name]?.getD [] := by
    rw [hnames, List.map_map]
    rfl
  rw [hrows, List.map_map]
  refine List.map_congr_left fun entry hentry => ?_
  exact congrArg (Option.getD · []) (Listing.getElem?_ofList (hnames ▸ hnodup) hentry)

/-- Entries without their repeated ends make a listing that keeps the first path to each input. -/
theorem keepsFirsts_ofList {node : Node} {entries : List (String × List Path)}
    (hnames : entries.map Prod.fst = node.outputs.toList.map Port.name)
    (hnodup : (node.outputs.toList.map Port.name).Nodup)
    (hlands : ∀ entry ∈ entries, ∀ path ∈ entry.2, ∃ landing, path.landing? = some landing) :
    KeepsFirsts node (.ofList entries) (.ofList (dropRepeated entries)) := by
  have hkept := getElem?_dropRepeated hlands
  have hsame : (dropRepeated entries).map Prod.fst = node.outputs.toList.map Port.name := by
    rw [← hnames]
    refine List.ext_getElem? fun i => ?_
    rw [List.getElem?_map, List.getElem?_map, hkept, Option.map_map]
    rfl
  constructor
  case full_keys => exact hnames ▸ Listing.keys_ofList_perm (hnames ▸ hnodup)
  case kept_keys => exact hsame ▸ Listing.keys_ofList_perm (hsame ▸ hnodup)
  case lands =>
    rw [rows_ofList hnames hnodup]
    intro path hpath
    obtain ⟨_, hrow, hin⟩ := List.mem_flatten.1 hpath
    obtain ⟨entry, hentry, rfl⟩ := List.mem_map.1 hrow
    exact hlands entry hentry path hin
  case row =>
    intro i
    rw [rows_ofList hnames hnodup, rows_ofList hsame hnodup, List.getElem?_map, List.getElem?_map,
      hkept, Option.map_map, Option.map_map]
    rfl

/-! ## Queries -/

variable {g : Graph}

/-- A plan fails in the same way whether repeated ends are dropped or not; otherwise the one listing
keeps the first path to each input of the other. -/
lemma plan_keeps_firsts (hg : g.WellFormed) (limits : Limits) (stop : StopRule) {start : NodeId}
    {node : Node} (hnode : g.nodeAt start = .ok node) :
    (∃ err, (plan g limits stop false start).result = .error err ∧
      (plan g limits stop true start).result = .error err) ∨
    ∃ full kept, (plan g limits stop false start).result = .ok full ∧
      (plan g limits stop true start).result = .ok kept ∧ KeepsFirsts node full kept := by
  obtain ⟨openings, hopenings⟩ := Graph.WellFormed.exists_openings stop.walk hnode
  have hresult : ∀ dedup, (plan g limits stop dedup start).result = _ := fun dedup =>
    result_plan hnode hopenings
  rw [hresult, hresult]
  cases hrun : (Survey.run (strategy g stop start) { start := node.exeId, limits } openings).result with
  | error err => exact .inl ⟨err, rfl, rfl⟩
  | ok _ =>
    refine .inr ⟨_, _, rfl, rfl, keepsFirsts_ofList (Survey.map_fst_listings hnode hopenings hrun)
      (hg.portsFit_of_nodeAt hnode).outputNames_nodup ?_⟩
    intro entry hentry path hpath
    obtain ⟨-, -, w, -, -, ⟨e, hlast, -⟩, rfl⟩ :=
      Survey.exists_trail_of_mem_listings (keepsTo_guide hg start)
        (hg.openings_subset hnode hopenings) hrun hentry hpath
    exact ⟨_, Path.landing?_ofEdges hlast⟩

end Failure

variable {g : Graph}

/-- The plan of a failure fails in the same way whether repeated ends are dropped or not. Otherwise the
one listing keeps of the paths of the other, in the order of the outputs, those that end where no path
before them does: so no two of them end on the same input, and no input is lost. -/
theorem failureRoutes_keep_firsts {source : Workflow} (hbuilt : Graph.ofWorkflow source = .ok g)
    (limits : Limits) (stop : StopRule) (exeId : String) :
    (∀ err, (g.failureRoutes limits stop true exeId).result = .error err ↔
      (g.failureRoutes limits stop false exeId).result = .error err) ∧
    ∀ full kept, (g.failureRoutes limits stop false exeId).result = .ok full →
      (g.failureRoutes limits stop true exeId).result = .ok kept →
      ∃ node, g.node exeId = .ok node ∧ Failure.KeepsFirsts node full kept ∧
        ((Failure.rows kept node).flatten.map Path.landing?).Nodup ∧
        ∀ landing, landing ∈ (Failure.rows kept node).flatten.map Path.landing? ↔
          landing ∈ (Failure.rows full node).flatten.map Path.landing? := by
  have hg := Graph.wellFormed_ofWorkflow hbuilt
  have hcases : (∃ err, (g.failureRoutes limits stop false exeId).result = .error err ∧
      (g.failureRoutes limits stop true exeId).result = .error err) ∨
      ∃ full kept node, (g.failureRoutes limits stop false exeId).result = .ok full ∧
        (g.failureRoutes limits stop true exeId).result = .ok kept ∧ g.node exeId = .ok node ∧
        Failure.KeepsFirsts node full kept := by
    unfold Graph.failureRoutes Report.andThen
    cases hstart : g.nodeId exeId with
    | error err => exact .inl ⟨err, rfl, rfl⟩
    | ok start =>
      obtain ⟨node, hnode, -⟩ := hg.exists_nodeAt_of_nodeId hstart
      refine (Failure.plan_keeps_firsts hg limits stop hnode).imp_right ?_
      rintro ⟨full, kept, hfull, hkept, hfirsts⟩
      exact ⟨full, kept, node, hfull, hkept, bind_eq_ok_iff.2 ⟨start, hstart, hnode⟩, hfirsts⟩
  rcases hcases with ⟨err, hfull, hkept⟩ | ⟨full, kept, node, hfull, hkept, hnode, hfirsts⟩
  · rw [hfull, hkept]
    refine ⟨fun _ => Iff.rfl, fun _ _ hfull' => ?_⟩
    cases hfull'
  · rw [hfull, hkept]
    refine ⟨fun _ => by simp, fun full' kept' hfull' hkept' => ?_⟩
    obtain rfl := Except.ok.inj hfull'
    obtain rfl := Except.ok.inj hkept'
    exact ⟨node, hnode, hfirsts, hfirsts.once, hfirsts.inputs⟩

/-- All three connections of the hub lead from its output to its input, so only one path is kept. -/
theorem failureRoutes_keep_firsts_hub :
    Graph.ofWorkflow .hub = .ok .hub ∧ ∃ full kept node,
      (Graph.failureRoutes .hub (.ofGraph .hub) .sink false "hub").result = .ok full ∧
      (Graph.failureRoutes .hub (.ofGraph .hub) .sink true "hub").result = .ok kept ∧
      Graph.node .hub "hub" = .ok node ∧ Failure.KeepsFirsts node full kept ∧
      full["out"]?.map List.length = some 3 ∧ kept["out"]?.map List.length = some 1 := by
  have hthree : (Graph.failureRoutes .hub (.ofGraph .hub) .sink false "hub").result.map
      (·["out"]?.map List.length) = .ok (some 3) := by
    cbv
  have hone : (Graph.failureRoutes .hub (.ofGraph .hub) .sink true "hub").result.map
      (·["out"]?.map List.length) = .ok (some 1) := by
    cbv
  obtain ⟨full, hfull, hmany⟩ := map_eq_ok_iff.1 hthree
  obtain ⟨kept, hkept, hsingle⟩ := map_eq_ok_iff.1 hone
  obtain ⟨node, hnode, hfirsts, -⟩ :=
    (failureRoutes_keep_firsts Graph.ofWorkflow_hub (.ofGraph .hub) .sink "hub").2 full kept hfull hkept
  exact ⟨Graph.ofWorkflow_hub, full, kept, node, hfull, hkept, hnode, hfirsts, hmany, hsingle⟩

end WorkflowLoops

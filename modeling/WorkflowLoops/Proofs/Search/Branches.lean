import Mathlib
import WorkflowLoops.Proofs.Search.Courses
import WorkflowLoops.Proofs.Search.Lengths

/-!
# The branches of a search out of a node

A survey goes along its leaves output by output (`Survey.GoesAlong`). In a graph these are the walks out
of the outputs that cannot be extended, in the lexicographic order of the positions of their edges
(`Graph.Branches`, `Graph.WellFormed.exists_branches`). They have as many beginnings as the survey takes
steps (`Graph.Branches.ncard_beginnings`).
-/

namespace WorkflowLoops

/-! ## Surveys -/

namespace Survey

open Search

variable {G : Guide} {σ : Strategy} {edges first : List Edge} {openings : List (String × List Edge)}
  {ends : List (List Edge × Bool)} {branches : List (List (List Edge × Bool))} {s : Search}

/-- The openings unfold to ends, output by output. -/
lemma exists_unfolds (hσ : σ.KeepsTo G edges) (hjoin : ∀ e f, f ∈ G.next e → f.source = e.target)
    (hthere : ∀ opening ∈ openings, opening.2 ⊆ edges) :
    ∃ branches, List.Forall₂ (fun opening ends => Unfolds σ σ.rootVisits opening.2 ends)
      openings branches := by
  -- limits that no trail exceeds do not stop the survey
  have hrun : (run σ { start := "", limits := ⟨edges.length, edges.length⟩ } openings).result = .ok () := by
    cases hresult : (run σ { start := "", limits := ⟨edges.length, edges.length⟩ } openings).result with
    | ok _ => rfl
    | error err =>
      obtain ⟨-, opening, hopening, v, ⟨f, hf, hhead⟩, htrail, hmore⟩ :=
        exists_trail_of_error hσ hjoin hthere rfl (Nat.le_refl _) hresult
      have hshort := htrail.length_le_edges hσ.next_subset hhead (hthere opening hopening hf)
      simp only at hmore
      omega
  have hlists := listings_of_run hrun
  generalize (run σ { start := "", limits := ⟨edges.length, edges.length⟩ } openings).listings.toList
    = listings at hlists
  clear hrun hthere
  induction hlists with
  | nil => exact ⟨[], .nil⟩
  | cons hlists _ ih =>
    obtain ⟨-, ends, hends, -⟩ := hlists
    obtain ⟨branches, hbranches⟩ := ih
    exact ⟨ends :: branches, .cons hends hbranches⟩

/-- A search from the start goes along the walks that its edges unfold to, and is back at the end. -/
lemma run_restart (hσ : σ.KeepsTo G edges) (hdistinct : ∀ e ∈ edges, (G.next e).Nodup)
    (hjoin : ∀ e f, f ∈ G.next e → f.source = e.target) (hback : s.IsBack)
    (hunfolds : Unfolds σ σ.rootVisits first ends) (hfirst : first ⊆ edges) (hnodup : first.Nodup) :
    ((s.budget.limits.course s.budget.start 0 0 (leaves ends)).2 = none →
      (iterate (step σ) (s.restart σ first)).result = .ok () ∧
        (iterate (step σ) (s.restart σ first)).last.IsBack ∧
        (iterate (step σ) (s.restart σ first)).last.found.reverse = listed {} ends ∧
        (iterate (step σ) (s.restart σ first)).last.budget = s.budget.after (leaves ends)) ∧
    ∀ done err, s.budget.limits.course s.budget.start 0 0 (leaves ends) = (done, some err) →
      (iterate (step σ) (s.restart σ first)).result = .error err ∧
        (iterate (step σ) (s.restart σ first)).last.found.reverse = listed {} done := by
  have honPath : (s.restart σ first).onPath = σ.rootVisits := by
    simp [Search.restart, Strategy.rootVisits, hback.onPath]
  have hpath : (s.restart σ first).path = {} := hback.path
  have hpush : ∀ e ∈ first, ∃ path, (s.restart σ first).path.push? e.hop = some path := by
    intro e _
    rw [hpath]
    exact ⟨_, Path.push?_eq_some_iff.2 ⟨by simp [Path.terminus?, Path.last?], rfl⟩⟩
  have hidle : (s.restart σ first).budget.sinceEnd = 0 := hback.idle
  have hgoes : GoesAlong σ (s.restart σ first) σ.root [] ends :=
    goesAlong_of_unfolds hσ hdistinct hjoin hunfolds hfirst hnodup rfl honPath hpush
  obtain ⟨hpass, hstop⟩ := hgoes
  rw [hpath, hidle] at hpass hstop
  constructor
  · intro hnone
    have hleave : ((s.restart σ first).past σ.root [] ends).step σ
        = .ok (some (((s.restart σ first).past σ.root [] ends).leave σ.root [])) := rfl
    have hdone : (((s.restart σ first).past σ.root [] ends).leave σ.root []).step σ = .ok none := rfl
    have hrun := hpass hnone
    rw [iterate_of_step hleave, iterate_of_done hdone] at hrun
    rw [hrun]
    refine ⟨rfl, ⟨hback.path, ?_, ?_⟩, ?_, rfl⟩
    · simp only [leave, past, honPath, Strategy.rootVisits]
      split <;> simp
    · simp only [leave, past, Budget.after, hidle, ite_self]
    · simp [leave, past, Search.restart, hback.path]
  · intro done err hcourse
    obtain ⟨hresult, hfound⟩ := hstop done err hcourse
    refine ⟨hresult, ?_⟩
    rw [hfound]
    simp [Search.restart]

/-- What a survey lists if no limit stops it. -/
def fullListings (openings : List (String × List Edge)) (branches : List (List (List Edge × Bool))) :
    List (String × List Path) :=
  List.zipWith (fun opening ends => (opening.1, listed {} ends)) openings branches

/-- An error stops a survey for good. -/
lemma foldl_advance_of_error {v : Survey} {err : Error} (h : v.result = .error err)
    (openings : List (String × List Edge)) : openings.foldl (advance σ) v = v := by
  induction openings with
  | nil => rfl
  | cons opening rest ih => rw [List.foldl_cons, advance_of_error h, ih]

lemma foldl_advance_course (hσ : σ.KeepsTo G edges) (hdistinct : ∀ e ∈ edges, (G.next e).Nodup)
    (hjoin : ∀ e f, f ∈ G.next e → f.source = e.target)
    (hbranches : List.Forall₂ (fun opening ends => Unfolds σ σ.rootVisits opening.2 ends)
      openings branches)
    (hopenings : ∀ opening ∈ openings, opening.2 ⊆ edges ∧ opening.2.Nodup) :
    ∀ v : Survey, v.result = .ok () → v.search.IsBack →
      ((v.search.budget.limits.course v.search.budget.start 0 0 (branches.flatMap leaves)).2 = none →
        (openings.foldl (advance σ) v).result = .ok () ∧
        (openings.foldl (advance σ) v).listings.toList = v.listings.toList ++ fullListings openings branches ∧
        (openings.foldl (advance σ) v).search.budget.used
          = v.search.budget.used + ((branches.flatMap leaves).map Leaf.own).sum) ∧
      ∀ done err,
        v.search.budget.limits.course v.search.budget.start 0 0 (branches.flatMap leaves)
          = (done, some err) →
        (openings.foldl (advance σ) v).result = .error err ∧
        (openings.foldl (advance σ) v).listings.toList.flatMap Prod.snd
          = v.listings.toList.flatMap Prod.snd ++ listed {} done := by
  induction hbranches with
  | nil =>
    intro v hok _
    refine ⟨fun _ => ⟨hok, by simp [fullListings], by simp⟩, fun done err hcourse => ?_⟩
    cases hcourse
  | @cons opening ends openings branches hends _ ih =>
    intro v hok hback
    rw [List.forall_mem_cons] at hopenings
    obtain ⟨hpass, hstop⟩ := run_restart hσ hdistinct hjoin hback hends hopenings.1.1 hopenings.1.2
    rw [List.foldl_cons, List.flatMap_cons]
    cases hcourse : v.search.budget.limits.course v.search.budget.start 0 0 (leaves ends) with
    | mk done end? =>
    cases end? with
    | some err =>
      -- the survey is stopped here
      obtain ⟨hresult, hfound⟩ := hstop done err hcourse
      have herror : (advance σ v opening).result = .error err := by rw [advance_of_ok hok, hresult]
      rw [Limits.course_append_of_stop _ (congrArg Prod.snd hcourse), hcourse,
        foldl_advance_of_error herror, advance_of_ok hok]
      refine ⟨fun hnone => (by cases hnone), fun done' err' heq => ?_⟩
      rw [Prod.mk.injEq, Option.some.injEq] at heq
      obtain ⟨rfl, rfl⟩ := heq
      exact ⟨hresult, by simp [hfound]⟩
    | none =>
      obtain ⟨hresult, hback', hfound, hbudget⟩ := hpass (congrArg Prod.snd hcourse)
      have hok' : (advance σ v opening).result = .ok () := by rw [advance_of_ok hok, hresult]
      have hsearch : (advance σ v opening).search
          = (iterate (step σ) (v.search.restart σ opening.2)).last := by
        rw [advance_of_ok hok]
      have hlisted : (advance σ v opening).listings.toList
          = v.listings.toList ++ [(opening.1, listed {} ends)] := by
        rw [advance_of_ok hok, hfound, Array.toList_push]
      obtain ⟨hpassRest, hstopRest⟩ := ih hopenings.2 (advance σ v opening) hok' (hsearch ▸ hback')
      rw [hsearch, hbudget, hlisted] at hpassRest hstopRest
      rw [Limits.course_append_of_pass _ (congrArg Prod.snd hcourse) fun _ => rfl, map_ending_leaves]
      constructor
      · intro hnone
        obtain ⟨hresult', hlistings, hused⟩ := hpassRest hnone
        refine ⟨hresult', by rw [hlistings, List.append_assoc]; rfl, ?_⟩
        rw [hused, List.map_append, List.sum_append, Budget.after, Nat.add_assoc]
      · intro done' err heq
        rw [Prod.mk.injEq] at heq
        obtain ⟨rfl, heq⟩ := heq
        obtain ⟨hresult', hlistings⟩ := hstopRest _ err (Prod.ext rfl heq)
        refine ⟨hresult', ?_⟩
        rw [hlistings, List.flatMap_append, listed_append, List.append_assoc]
        simp [Budget.after]

/-- How a survey goes along the walks out of one output after the other: limits stop it at the first hop
that they refuse, and then it has listed the paths to the ends before. -/
structure GoesAlong (σ : Strategy) (openings : List (String × List Edge))
    (branches : List (List (List Edge × Bool))) (name : String) (limits : Limits) : Prop where
  pass : (limits.course name 0 0 (branches.flatMap leaves)).2 = none →
    (run σ { start := name, limits } openings).result = .ok () ∧
    (run σ { start := name, limits } openings).listings.toList = fullListings openings branches ∧
    (run σ { start := name, limits } openings).search.budget.used
      = ((branches.flatMap leaves).map Leaf.own).sum
  stop : ∀ done err, limits.course name 0 0 (branches.flatMap leaves) = (done, some err) →
    (run σ { start := name, limits } openings).result = .error err ∧
    (run σ { start := name, limits } openings).listings.toList.flatMap Prod.snd = listed {} done

/-- A survey goes along the walks that its openings unfold to. -/
theorem goesAlong_of_unfolds (hσ : σ.KeepsTo G edges) (hdistinct : ∀ e ∈ edges, (G.next e).Nodup)
    (hjoin : ∀ e f, f ∈ G.next e → f.source = e.target)
    (hbranches : List.Forall₂ (fun opening ends => Unfolds σ σ.rootVisits opening.2 ends)
      openings branches)
    (hopenings : ∀ opening ∈ openings, opening.2 ⊆ edges ∧ opening.2.Nodup) (name : String)
    (limits : Limits) : GoesAlong σ openings branches name limits := by
  obtain ⟨hpass, hstop⟩ := foldl_advance_course hσ hdistinct hjoin hbranches hopenings
    { search := { budget := { start := name, limits } } } rfl ⟨rfl, rfl, rfl⟩
  exact ⟨by simpa [run] using hpass, by simpa [run] using hstop⟩

end Survey

/-! ## Branches -/

namespace Graph

/-- The walks out of the outputs of a node that satisfy a condition, in the lexicographic order of the
positions of their edges, each with a mark that says whether it satisfies another one, too. -/
structure Branches (g : Graph) (node : Node) (P lists : PortIdx → List Edge → Prop)
    (branches : List (List (List Edge × Bool))) : Prop where
  length_eq : branches.length = node.outputs.size
  mem_iff : ∀ i ends, branches[i]? = some ends → ∀ w keep,
    (w, keep) ∈ ends ↔ P ⟨i⟩ w ∧ (keep = true ↔ lists ⟨i⟩ w)
  ordered : ∀ ends ∈ branches, ends.Pairwise fun t u => t.1.map g.position < u.1.map g.position

variable {g : Graph} {walk : Walk} {start : NodeId} {node : Node}
  {openings : List (String × List Edge)}

/-- The opening at a position is that of the output there. -/
lemma WellFormed.exists_opens_of_getElem? (hg : g.WellFormed) (hnode : g.nodeAt start = .ok node)
    (hopenings : g.openings walk start = .ok openings) {i : Nat} {opening : String × List Edge}
    (hopening : openings[i]? = some opening) :
    (∀ e, e ∈ opening.2 ↔ g.Opens walk start ⟨i⟩ e) ∧
      opening.2.Pairwise fun e f => g.position e < g.position f := by
  have hname : node.outputs.toList[i]?.map Port.name = some opening.1 := by
    rw [← List.getElem?_map, ← map_fst_openings hnode hopenings, List.getElem?_map, hopening]
    rfl
  obtain ⟨port, hport, -⟩ := Option.map_eq_some_iff.1 hname
  rw [Array.getElem?_toList] at hport
  obtain ⟨first, hfirst, hopens, hordered⟩ := hg.exists_opening hnode hopenings hport
  obtain rfl := Option.some.inj (hopening.symm.trans hfirst)
  exact ⟨hopens, hordered⟩

/-- What the openings of a node unfold to are the full trails that open at its outputs. -/
theorem branches_of_unfolds (hg : g.WellFormed) {G : Guide} {σ : Strategy}
    (hσ : σ.KeepsTo G g.edges.toList)
    (hrank : ∀ e ∈ g.edges.toList, (G.next e).Pairwise fun f f' => g.position f < g.position f')
    (hnode : g.nodeAt start = .ok node) (hopenings : g.openings walk start = .ok openings)
    {branches : List (List (List Edge × Bool))}
    (hbranches : List.Forall₂ (fun opening ends => Search.Unfolds σ σ.rootVisits opening.2 ends)
      openings branches) {P lists : PortIdx → List Edge → Prop}
    (hP : ∀ output w, P output w ↔
      (∃ e, w.head? = some e ∧ g.Opens walk start output e) ∧ G.IsFullTrail σ.rootVisits w)
    (hlists : ∀ output w, P output w →
      (lists output w ↔ ∃ e, w.getLast? = some e ∧ G.lists e = true)) :
    g.Branches node P lists branches := by
  have hthere : ∀ (i : Nat) (ends : List (List Edge × Bool)), branches[i]? = some ends →
      ∃ opening, openings[i]? = some opening ∧ Search.Unfolds σ σ.rootVisits opening.2 ends := by
    intro i ends hends
    obtain ⟨hi, rfl⟩ := List.getElem?_eq_some_iff.1 hends
    have hi' : i < openings.length := hbranches.length_eq ▸ hi
    exact ⟨openings[i], List.getElem?_eq_getElem hi', hbranches.get hi' hi⟩
  refine ⟨?_, fun i ends hends w keep => ?_, fun ends hmem => ?_⟩
  · have hlength := congrArg List.length (WellFormed.map_fst_openings hnode hopenings)
    rw [← hbranches.length_eq]
    simpa using hlength
  · obtain ⟨opening, hopening, hunfolds⟩ := hthere i ends hends
    obtain ⟨hopens, -⟩ := hg.exists_opens_of_getElem? hnode hopenings hopening
    rw [Guide.mem_iff_of_unfolds hσ hunfolds fun e he => ((hopens e).1 he).1]
    have hhead : (∃ e ∈ opening.2, w.head? = some e) ↔
        ∃ e, w.head? = some e ∧ g.Opens walk start ⟨i⟩ e := by
      simp only [hopens]
      exact exists_congr fun e => and_comm
    rw [hhead, ← and_assoc, ← hP]
    refine and_congr_right fun hw => ?_
    rw [hlists _ _ hw]
    -- a walk that opens has a last edge
    obtain ⟨⟨e, he, -⟩, -⟩ := (hP _ _).1 hw
    obtain ⟨rest, rfl⟩ := List.head?_eq_some_iff.1 he
    rw [List.getLast?_eq_some_getLast (List.cons_ne_nil e rest)]
    cases keep <;> simp
  · obtain ⟨i, hends⟩ := List.mem_iff_getElem?.1 hmem
    obtain ⟨opening, hopening, hunfolds⟩ := hthere i ends hends
    obtain ⟨hopens, hordered⟩ := hg.exists_opens_of_getElem? hnode hopenings hopening
    exact Guide.pairwise_of_unfolds hσ hrank hunfolds (fun e he => ((hopens e).1 he).1) hordered

/-- The openings of a node are different edges of the graph. -/
lemma WellFormed.openings_distinct (hg : g.WellFormed) (hnode : g.nodeAt start = .ok node)
    (hopenings : g.openings walk start = .ok openings) :
    ∀ opening ∈ openings, opening.2 ⊆ g.edges.toList ∧ opening.2.Nodup := by
  intro opening hmem
  obtain ⟨i, hi⟩ := List.mem_iff_getElem?.1 hmem
  obtain ⟨-, hordered⟩ := hg.exists_opens_of_getElem? hnode hopenings hi
  refine ⟨hg.openings_subset hnode hopenings opening hmem, hordered.imp fun hlt heq => ?_⟩
  exact Nat.ne_of_lt hlt (congrArg g.position heq)

/-- A guided search out of the outputs of a node has branches, and a survey goes along them. -/
theorem WellFormed.exists_branches (hg : g.WellFormed) {G : Guide} {σ : Strategy}
    (hσ : σ.KeepsTo G g.edges.toList) (hnext : ∀ e, G.next e = g.onward walk (.after e))
    (hnode : g.nodeAt start = .ok node) (hopenings : g.openings walk start = .ok openings)
    {P lists : PortIdx → List Edge → Prop}
    (hP : ∀ output w, P output w ↔
      (∃ e, w.head? = some e ∧ g.Opens walk start output e) ∧ G.IsFullTrail σ.rootVisits w)
    (hlists : ∀ output w, P output w →
      (lists output w ↔ ∃ e, w.getLast? = some e ∧ G.lists e = true)) :
    ∃ branches, g.Branches node P lists branches ∧ (∀ ends ∈ branches, IsTree ends) ∧
      ∀ name limits, Survey.GoesAlong σ openings branches name limits := by
  have hjoin : ∀ e f, f ∈ G.next e → f.source = e.target := fun e f hf =>
    hg.source_eq_of_mem_onward (hnext e ▸ hf)
  have hrank : ∀ e ∈ g.edges.toList,
      (G.next e).Pairwise fun f f' => g.position f < g.position f' := fun e _ =>
    hnext e ▸ hg.pairwise_onward _
  have hdistinct : ∀ e ∈ g.edges.toList, (G.next e).Nodup := fun e he =>
    (hrank e he).imp fun hlt heq => Nat.ne_of_lt hlt (congrArg g.position heq)
  have hthere := hg.openings_distinct hnode hopenings
  obtain ⟨branches, hbranches⟩ :=
    Survey.exists_unfolds hσ hjoin fun opening hmem => (hthere opening hmem).1
  refine ⟨branches, branches_of_unfolds hg hσ hrank hnode hopenings hbranches hP hlists,
    fun ends hends => ?_, Survey.goesAlong_of_unfolds hσ hdistinct hjoin hbranches hthere⟩
  obtain ⟨i, hi, rfl⟩ := List.getElem_of_mem hends
  have hi' : i < openings.length := hbranches.length_eq ▸ hi
  obtain ⟨hsub, hnodup⟩ := hthere _ (List.getElem_mem hi')
  exact (Search.isTree_of_unfolds hσ hdistinct (hbranches.get hi' hi) hsub hnodup).1

end Graph

namespace Graph

variable {g : Graph} {node : Node} {P lists : PortIdx → List Edge → Prop}
  {branches : List (List (List Edge × Bool))}

/-- The branches out of an output hold the walks out of it. -/
lemma Branches.exists_mem_iff (h : g.Branches node P lists branches) {i : Nat}
    {ends : List (List Edge × Bool)} (hends : branches[i]? = some ends) {w : List Edge} :
    (∃ keep, (w, keep) ∈ ends) ↔ P ⟨i⟩ w := by
  constructor
  · rintro ⟨keep, hmem⟩
    exact ((h.mem_iff i ends hends w keep).1 hmem).1
  · intro hw
    by_cases hlists : lists ⟨i⟩ w
    · exact ⟨true, (h.mem_iff i ends hends w true).2 ⟨hw, by simp [hlists]⟩⟩
    · exact ⟨false, (h.mem_iff i ends hends w false).2 ⟨hw, by simp [hlists]⟩⟩

/-- The walks out of the outputs have as many different beginnings, output by output, as there are hops
that a search along them walks anew. -/
theorem Branches.ncard_beginnings (h : g.Branches node P lists branches)
    (hP : ∀ output w, P output w → output.index < node.outputs.size)
    (htree : ∀ ends ∈ branches, IsTree ends) :
    Set.ncard {t : PortIdx × List Edge | t.2 ≠ [] ∧ ∃ w, P t.1 w ∧ t.2 <+: w}
      = ((branches.flatMap leaves).map Leaf.own).sum := by
  let pairs := branches.zipIdx.flatMap fun t => (IsTree.beginnings t.1).map (Prod.mk (⟨t.2⟩ : PortIdx))
  have hmem : ∀ t : PortIdx × List Edge,
      t ∈ pairs ↔ t.2 ≠ [] ∧ ∃ w, P t.1 w ∧ t.2 <+: w := by
    rintro ⟨⟨i⟩, v⟩
    simp only [pairs, List.mem_flatMap, List.mem_map, Prod.mk.injEq, PortIdx.mk.injEq]
    constructor
    · rintro ⟨⟨ends, j⟩, hends, u, hu, rfl, rfl⟩
      rw [List.mem_zipIdx_iff_getElem?] at hends
      obtain ⟨hne, ⟨w, keep⟩, hw, hprefix⟩ :=
        (htree ends (List.mem_of_getElem? hends)).mem_beginnings_iff.1 hu
      exact ⟨hne, w, (h.exists_mem_iff hends).1 ⟨keep, hw⟩, hprefix⟩
    · rintro ⟨hne, w, hw, hprefix⟩
      have hi : i < branches.length := h.length_eq ▸ hP _ w hw
      have hends := List.getElem?_eq_getElem hi
      obtain ⟨keep, hkeep⟩ := (h.exists_mem_iff hends).2 hw
      refine ⟨(branches[i], i), List.mem_zipIdx_iff_getElem?.2 hends, v, ?_, rfl, rfl⟩
      exact (htree _ (List.getElem_mem hi)).mem_beginnings_iff.2 ⟨hne, (w, keep), hkeep, hprefix⟩
  have hnodup : pairs.Nodup := by
    rw [List.nodup_flatMap]
    refine ⟨fun t ht => ?_, ?_⟩
    · have hends := List.mem_of_getElem? (List.mem_zipIdx_iff_getElem?.1 ht)
      exact (htree _ hends).nodup_beginnings.map (Prod.mk_right_injective _)
    · -- beginnings out of different outputs differ
      have hindex : (branches.zipIdx.map Prod.snd).Nodup := by
        rw [List.zipIdx_map_snd]
        exact List.nodup_range'
      rw [List.Nodup, List.pairwise_map] at hindex
      refine hindex.imp fun hne t ht hu => hne ?_
      obtain ⟨_, -, rfl⟩ := List.mem_map.1 ht
      obtain ⟨_, -, heq⟩ := List.mem_map.1 hu
      exact (PortIdx.mk.inj (Prod.mk.inj heq).1).symm
  have hlength : pairs.length = ((branches.flatMap leaves).map Leaf.own).sum := by
    have hsnd : pairs.map Prod.snd = (branches.flatMap leaves).flatMap Leaf.beginnings := by
      have hfst : (branches.zipIdx.flatMap fun t => IsTree.beginnings t.1)
          = branches.flatMap IsTree.beginnings := by
        conv_rhs => rw [← List.zipIdx_map_fst 0 branches, List.flatMap_map]
      rw [List.flatMap_assoc]
      refine Eq.trans ?_ hfst
      simp [pairs, List.map_flatMap, Function.comp_def]
    rw [← length_beginnings, ← hsnd, List.length_map]
  have hset : {t : PortIdx × List Edge | t.2 ≠ [] ∧ ∃ w, P t.1 w ∧ t.2 <+: w} = ↑pairs.toFinset := by
    ext t
    rw [List.coe_toFinset, Set.mem_ofPred_eq, Set.mem_ofPred_eq, hmem]
  rw [hset, Set.ncard_coe_finset, List.toFinset_card_of_nodup hnodup, hlength]

end Graph

end WorkflowLoops

import Mathlib.Data.List.Forall2
import Mathlib.Data.List.Induction
import WorkflowLoops.Proofs.Iteration
import WorkflowLoops.Search.Survey

/-!
# What a search unfolds

The search keeps its place in the search tree on a stack. `Unfolds` is that tree without a stack: it
says which edges lead from a node to the ends below it, in their order, and which of these ends are
listed. The main statement, `exists_ahead_of_run`, is that a search which is stopped by no error has
listed exactly what its stack unfolds to, and leaves the path and the memory as they were below the
stack; so the search from the next output starts like the one before (`Survey.listings_of_run`).
-/

namespace WorkflowLoops

/-- The path that goes on along edges. -/
def Path.along (p : Path) (w : List Edge) : Path := ⟨(w.map Edge.hop).reverse ++ p.latestFirst⟩

/-- The path along edges. -/
def Path.ofEdges (w : List Edge) : Path := ({} : Path).along w

theorem Path.hops_along (p : Path) (w : List Edge) : (p.along w).hops = p.hops ++ w.map Edge.hop := by
  simp [hops, along]

@[simp] theorem Path.hops_ofEdges (w : List Edge) : (ofEdges w).hops = w.map Edge.hop := by
  rw [ofEdges, hops_along]
  rfl

lemma Path.along_cons_of_push? {p q : Path} {e : Edge} (h : p.push? e.hop = some q)
    (w : List Edge) : p.along (e :: w) = q.along w := by
  obtain ⟨-, rfl⟩ := push?_eq_some_iff.1 h
  simp [along]

namespace Search

/-- The ends of all walks that start with one of some edges, each with the edges that lead there and
whether it is listed. -/
inductive Unfolds (σ : Strategy) : List Visit → List Edge → List (List Edge × Bool) → Prop
  /-- No edge is left to take. -/
  | done (onPath : List Visit) : Unfolds σ onPath [] []
  /-- The walk ends after the first edge. -/
  | finish {onPath : List Visit} {e : Edge} {later : List Edge} {keep : Bool}
      {ends : List (List Edge × Bool)} (hmove : σ.move onPath e = .ok (.finish keep))
      (hlater : Unfolds σ onPath later ends) :
      Unfolds σ onPath (e :: later) (([e], keep) :: ends)
  /-- The walk goes on from the node that the first edge enters. -/
  | enter {onPath : List Visit} {e : Edge} {later next : List Edge} {visit : Visit}
      {below ends : List (List Edge × Bool)} (hmove : σ.move onPath e = .ok (.enter visit next))
      (hbelow : Unfolds σ (visit :: onPath) next below) (hlater : Unfolds σ onPath later ends) :
      Unfolds σ onPath (e :: later) (below.map (fun t => (e :: t.1, t.2)) ++ ends)

/-- The paths that are listed for ends below the end of a path. -/
def listed (p : Path) (ends : List (List Edge × Bool)) : List Path :=
  (ends.filter (·.2)).map fun t => p.along t.1

lemma listed_append (p : Path) (xs ys : List (List Edge × Bool)) :
    listed p (xs ++ ys) = listed p xs ++ listed p ys := by
  simp [listed]

lemma listed_below {p q : Path} {e : Edge} (h : p.push? e.hop = some q)
    (below : List (List Edge × Bool)) :
    listed p (below.map fun t => (e :: t.1, t.2)) = listed q below := by
  simp only [listed, List.filter_map, List.map_map]
  refine List.map_congr_left fun t _ => ?_
  exact Path.along_cons_of_push? h t.1

/-! ## Steps -/

theorem step_eq_none_iff {σ : Strategy} {s : Search} : s.step σ = .ok none ↔ s.stack = [] := by
  unfold step
  split
  · rename_i h; simp [h]
  · rename_i h; simp [h]
  · rename_i visit e later rest h
    simp only [h, reduceCtorEq, iff_false]
    cases s.take σ visit e later rest <;> simp [Except.map]

/-- A step leaves the latest node, or it takes an edge from it within the limits. -/
theorem step_cases {σ : Strategy} {s t : Search} (h : s.step σ = .ok (some t)) :
    (∃ visit rest, s.stack = ⟨visit, []⟩ :: rest ∧ t = s.leave visit rest) ∨
    ∃ visit e later rest, s.stack = ⟨visit, e :: later⟩ :: rest ∧
      s.budget.sinceEnd < s.budget.limits.maxSteps ∧
      ∃ path, s.path.push? e.hop = some path ∧ path.length ≤ s.budget.limits.maxPathLength ∧
        ∃ move, σ.move s.onPath e = .ok move ∧ t = s.proceed visit later rest path move := by
  unfold step at h
  split at h
  · simp at h
  · rename_i visit rest hstack
    left
    exact ⟨visit, rest, hstack, by simpa using h.symm⟩
  · rename_i visit e later rest hstack
    right
    cases hu : s.take σ visit e later rest with
    | error => simp [hu, Except.map] at h
    | ok u =>
      obtain rfl : u = t := by simpa [hu, Except.map] using h
      obtain ⟨hsteps, path, hpush, hlength, move, hmove, rfl⟩ := take_eq_ok_iff.1 hu
      exact ⟨visit, e, later, rest, hstack, hsteps, path, hpush, hlength, move, hmove, rfl⟩

/-! ## What is ahead of a search -/

/-- The paths that a stack of nodes unfolds to, from the latest node down to the start. -/
def Ahead (σ : Strategy) : List Frame → List Visit → Path → List Path → Prop
  | [], _, _, out => out = []
  | f :: rest, onPath, path, out =>
    ∃ ends later, Unfolds σ onPath f.pending ends ∧
      Ahead σ rest (onPath.erase f.visit) (if rest.isEmpty then path else path.pop) later ∧
      out = listed path ends ++ later

/-- What the memory and the path are when all nodes of a stack are left. -/
def unwound : List Frame → List Visit → Path → List Visit × Path
  | [], onPath, path => (onPath, path)
  | f :: rest, onPath, path =>
    unwound rest (onPath.erase f.visit) (if rest.isEmpty then path else path.pop)

/-- What is listed in a step, and what is ahead after it, was ahead before it. -/
lemma ahead_of_step {σ : Strategy} {s t : Search} (h : s.step σ = .ok (some t)) {out : List Path}
    (hout : Ahead σ t.stack t.onPath t.path out) :
    ∃ out', Ahead σ s.stack s.onPath s.path out' ∧
      out'.reverse ++ s.found = out.reverse ++ t.found := by
  rcases step_cases h with ⟨visit, rest, hstack, rfl⟩ |
    ⟨visit, e, later, rest, hstack, -, path, hpush, -, move, hmove, rfl⟩
  · refine ⟨out, ?_, rfl⟩
    rw [hstack]
    exact ⟨[], out, .done _, hout, rfl⟩
  · rw [hstack]
    cases move with
    | finish keep =>
      obtain ⟨ends, below, hends, hbelow, rfl⟩ := hout
      simp only [proceed, Path.pop_of_push? hpush] at hends hbelow ⊢
      refine ⟨_, ⟨_, below, .finish hmove hends, hbelow, rfl⟩, ?_⟩
      cases keep with
      | false => simp [listed]
      | true =>
        have halong : s.path.along [e] = path := Path.along_cons_of_push? hpush []
        simp [listed, halong]
    | enter entered next =>
      -- the frame that was pushed is part of the tree below the edge that was taken
      obtain ⟨below, _, hbelow, ⟨ends, lower, hends, hlower, rfl⟩, rfl⟩ := hout
      simp only [proceed, List.erase_cons_head, Path.pop_of_push? hpush, List.isEmpty_cons,
        Bool.false_eq_true, if_false] at hbelow hends hlower ⊢
      refine ⟨_, ⟨_, lower, .enter hmove hbelow hends, hlower, rfl⟩, ?_⟩
      rw [listed_append, listed_below hpush, List.append_assoc]

/-- Steps do not change what is below the stack. -/
lemma unwound_of_step {σ : Strategy} {s t : Search} (h : s.step σ = .ok (some t)) :
    unwound t.stack t.onPath t.path = unwound s.stack s.onPath s.path := by
  rcases step_cases h with ⟨visit, rest, hstack, rfl⟩ |
    ⟨visit, e, later, rest, hstack, -, path, hpush, -, move, -, rfl⟩
  · rw [hstack]
    rfl
  · rw [hstack]
    cases move with
    | finish keep => simp [proceed, unwound, Path.pop_of_push? hpush]
    | enter entered next => simp [proceed, unwound, Path.pop_of_push? hpush]

/-- A search that no error stops lists what was ahead of it. -/
theorem exists_ahead_of_run {σ : Strategy} {s : Search}
    (h : (iterate (step σ) s).result = .ok ()) :
    ∃ out, Ahead σ s.stack s.onPath s.path out ∧
      (iterate (step σ) s).last.found = out.reverse ++ s.found := by
  -- what was ahead is put together from the end backwards, so no invariant is carried along
  fun_induction iterate (step σ) s with
  | case1 s err hstep => cases h
  | case2 s hstep =>
    rw [step_eq_none_iff.1 hstep]
    exact ⟨[], rfl, rfl⟩
  | case3 s t hstep ih =>
    obtain ⟨out, hahead, hfound⟩ := ih h
    obtain ⟨out', hahead', hsame⟩ := ahead_of_step hstep hahead
    exact ⟨out', hahead', hfound.trans hsame.symm⟩

lemma stack_eq_nil_of_run {σ : Strategy} {s : Search} (h : (iterate (step σ) s).result = .ok ()) :
    (iterate (step σ) s).last.stack = [] :=
  step_eq_none_iff.1 (step_last_of_ok h)

/-- A search that no error stops takes everything off its stack. -/
theorem unwound_of_run {σ : Strategy} {s : Search} (h : (iterate (step σ) s).result = .ok ()) :
    ((iterate (step σ) s).last.onPath, (iterate (step σ) s).last.path)
      = unwound s.stack s.onPath s.path := by
  have hlast := iterate_keeps (step σ)
    (P := fun t => unwound t.stack t.onPath t.path = unwound s.stack s.onPath s.path)
    (fun t u ht hstep => (unwound_of_step hstep).trans ht) rfl
  rwa [stack_eq_nil_of_run h] at hlast

end Search

/-! ## Output by output -/

/-- What is remembered of the start while the edges that leave it are taken. -/
def Strategy.rootVisits (σ : Strategy) : List Visit := if σ.marksRoot then [σ.root] else []

namespace Survey

open Search

/-- A search that starts over with an empty path and an empty memory lists what the edges from the
start unfold to, and ends with an empty path and an empty memory. -/
lemma halt_of_restart {σ : Strategy} {s : Search} {first : List Edge} (hpath : s.path = {})
    (honPath : s.onPath = []) (h : (iterate (step σ) (s.restart σ first)).result = .ok ()) :
    (∃ ends, Unfolds σ σ.rootVisits first ends ∧
      (iterate (step σ) (s.restart σ first)).last.found.reverse = listed {} ends) ∧
    (iterate (step σ) (s.restart σ first)).last.path = {} ∧
      (iterate (step σ) (s.restart σ first)).last.onPath = [] := by
  have hstart : (s.restart σ first).onPath = σ.rootVisits := by
    simp [Search.restart, Strategy.rootVisits, honPath]
  have hroot : σ.rootVisits.erase σ.root = [] := by
    unfold Strategy.rootVisits
    split <;> simp
  constructor
  · obtain ⟨out, ⟨ends, _, hends, rfl, rfl⟩, hfound⟩ := exists_ahead_of_run h
    refine ⟨ends, hstart ▸ hends, ?_⟩
    rw [hfound]
    simp [Search.restart, hpath]
  · have hbelow : unwound (s.restart σ first).stack σ.rootVisits (s.restart σ first).path
        = ([], {}) := by
      simp [Search.restart, unwound, hroot, hpath]
    have hunwound := unwound_of_run h
    rw [hstart, hbelow, Prod.mk.injEq] at hunwound
    exact ⟨hunwound.2, hunwound.1⟩

/-- Whether a listing of paths is what the edges of an opening unfold to. -/
def Lists (σ : Strategy) (opening : String × List Edge) (listing : String × List Path) : Prop :=
  listing.1 = opening.1 ∧
    ∃ ends, Unfolds σ σ.rootVisits opening.2 ends ∧ listing.2 = listed {} ends

/-- From one more output the search starts over where the latest one ended. -/
lemma advance_of_ok {σ : Strategy} {v : Survey} (h : v.result = .ok ())
    (opening : String × List Edge) :
    advance σ v opening =
      { listings := v.listings.push
          (opening.1, (iterate (step σ) (v.search.restart σ opening.2)).last.found.reverse)
        search := (iterate (step σ) (v.search.restart σ opening.2)).last
        result := (iterate (step σ) (v.search.restart σ opening.2)).result } := by
  rw [advance, h]

/-- An error stops the survey. -/
lemma advance_of_error {σ : Strategy} {v : Survey} {err : Error} (h : v.result = .error err)
    (opening : String × List Edge) : advance σ v opening = v := by
  rw [advance, h]

lemma run_concat {σ : Strategy} {budget : Budget} (before : List (String × List Edge))
    (opening : String × List Edge) :
    run σ budget (before ++ [opening]) = advance σ (run σ budget before) opening := by
  rw [run, List.foldl_append]
  rfl

lemma lists_of_run {σ : Strategy} {budget : Budget} {openings : List (String × List Edge)}
    (h : (run σ budget openings).result = .ok ()) :
    List.Forall₂ (Lists σ) openings (run σ budget openings).listings.toList ∧
      (run σ budget openings).search.path = {} ∧ (run σ budget openings).search.onPath = [] := by
  induction openings using List.reverseRecOn with
  | nil => exact ⟨.nil, rfl, rfl⟩
  | append_singleton before opening ih =>
    rw [run_concat] at h ⊢
    cases hbefore : (run σ budget before).result with
    | error err =>
      rw [advance_of_error hbefore, hbefore] at h
      cases h
    | ok _ =>
      obtain ⟨hlists, hpath, honPath⟩ := ih hbefore
      rw [advance_of_ok hbefore] at h ⊢
      obtain ⟨⟨ends, hends, hfound⟩, hempty⟩ := halt_of_restart hpath honPath h
      refine ⟨?_, hempty⟩
      rw [Array.toList_push]
      exact List.rel_append hlists (.cons ⟨rfl, ends, hends, hfound⟩ .nil)

/-- A survey that no error stops lists for each opening what its edges unfold to. -/
theorem listings_of_run {σ : Strategy} {budget : Budget} {openings : List (String × List Edge)}
    (h : (run σ budget openings).result = .ok ()) :
    List.Forall₂ (Lists σ) openings (run σ budget openings).listings.toList :=
  (lists_of_run h).1

end Survey

end WorkflowLoops

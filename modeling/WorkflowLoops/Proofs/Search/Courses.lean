import Mathlib
import WorkflowLoops.Proofs.Search.Leaves

/-!
# A search under limits

The budget starts again at every end of a walk, and until the next end a search takes a step for each hop
that it walks anew. So what limits refuse is told by the leaves alone (`Limits.course`).

The main statement is that limits do nothing to a search but stop it at the first hop that they refuse
(`Search.goesAlong_of_unfolds`): before, it lists what it lists without limits.
-/

namespace WorkflowLoops

variable {ends xs ys : List (List Edge × Bool)} {before w : List Edge} {e : Edge} {keep : Bool}

/-! ## What limits refuse -/

namespace Leaf

/-- Whether a walk is short enough, and so is its own part. -/
def Fits (leaf : Leaf) (limits : Limits) : Prop :=
  leaf.walk.length ≤ limits.maxPathLength ∧ leaf.walk.length - leaf.common ≤ limits.maxSteps

/-- Whether limits refuse to go along a walk. All shorter beginnings of it are allowed, but one has too
many steps, or else too many hops. -/
def Refused (leaf : Leaf) (limits : Limits) (name : String) (err : Error) : Prop :=
  ∃ n, leaf.common < n ∧ n ≤ leaf.walk.length ∧
    (∀ k, leaf.common < k → k < n → k - leaf.common ≤ limits.maxSteps ∧ k ≤ limits.maxPathLength) ∧
    (limits.maxSteps < n - leaf.common ∧
        err = .malformed (.stepLimitExceeded name limits.maxSteps) ∨
      n - leaf.common ≤ limits.maxSteps ∧ limits.maxPathLength < n ∧
        err = .malformed (.pathTooLong name limits.maxPathLength))

end Leaf

namespace Limits

variable {limits : Limits} {name : String} {err : Error}

/-- Why there may not be so many steps, or so many hops. The steps are looked at first. -/
def refuses (limits : Limits) (name : String) (steps hops : Nat) : Option Error :=
  if limits.maxSteps < steps then some (.malformed (.stepLimitExceeded name limits.maxSteps))
  else if limits.maxPathLength < hops then some (.malformed (.pathTooLong name limits.maxPathLength))
  else none

/-- Why a walk may not go on by so many hops, if it may not. -/
def refusal (limits : Limits) (name : String) (steps hops : Nat) : Nat → Option Error
  | 0 => none
  | more + 1 =>
    match limits.refuses name (steps + 1) (hops + 1) with
    | some err => some err
    | none => refusal limits name (steps + 1) (hops + 1) more

/-- How a search comes along its leaves from where a path has a number of hops: the ends that it comes
to, and the error that stops it, if any. Some steps may have been taken on the way to the first leaf. -/
def course (limits : Limits) (name : String) (depth : Nat) :
    Nat → List Leaf → List (List Edge × Bool) × Option Error
  | _, [] => ([], none)
  | steps, leaf :: rest =>
    match limits.refusal name steps (depth + leaf.common) leaf.own with
    | some err => ([], some err)
    | none => (leaf.ending :: (course limits name depth 0 rest).1, (course limits name depth 0 rest).2)

lemma refuses_eq_none_iff {steps hops : Nat} :
    limits.refuses name steps hops = none ↔
      steps ≤ limits.maxSteps ∧ hops ≤ limits.maxPathLength := by
  unfold refuses
  split
  · simp; omega
  · split
    · simp; omega
    · simp; omega

lemma refuses_eq_some_iff {steps hops : Nat} :
    limits.refuses name steps hops = some err ↔
      limits.maxSteps < steps ∧ err = .malformed (.stepLimitExceeded name limits.maxSteps) ∨
      steps ≤ limits.maxSteps ∧ limits.maxPathLength < hops ∧
        err = .malformed (.pathTooLong name limits.maxPathLength) := by
  unfold refuses
  split
  · rename_i hsteps
    simp [hsteps, Nat.not_le.2 hsteps, eq_comm]
  · rename_i hsteps
    split
    · rename_i hhops
      simp [hsteps, hhops, Nat.not_lt.1 hsteps, eq_comm]
    · rename_i hhops
      simp [hsteps, hhops]

/-- A walk may go on by so many hops if it may have them all. -/
lemma refusal_eq_none_iff {steps hops more : Nat} (hmore : 0 < more) :
    limits.refusal name steps hops more = none ↔
      steps + more ≤ limits.maxSteps ∧ hops + more ≤ limits.maxPathLength := by
  induction more generalizing steps hops with
  | zero => omega
  | succ more ih =>
    rw [refusal]
    cases hfirst : limits.refuses name (steps + 1) (hops + 1) with
    | some err =>
      have hsome : limits.refuses name (steps + 1) (hops + 1) ≠ none := by simp [hfirst]
      rw [Ne, refuses_eq_none_iff] at hsome
      simp only [reduceCtorEq, false_iff]
      omega
    | none =>
      have hnone := refuses_eq_none_iff.1 hfirst
      cases more with
      | zero => simpa [refusal] using hnone
      | succ more =>
        simp only
        rw [ih (Nat.succ_pos more)]
        omega

/-- What refuses to let a walk go on refuses the first hop that is too many. -/
lemma exists_of_refusal {steps hops more : Nat} (h : limits.refusal name steps hops more = some err) :
    ∃ k, 0 < k ∧ k ≤ more ∧
      (∀ j, 0 < j → j < k → limits.refuses name (steps + j) (hops + j) = none) ∧
      limits.refuses name (steps + k) (hops + k) = some err := by
  induction more generalizing steps hops with
  | zero => cases h
  | succ more ih =>
    rw [refusal] at h
    cases hfirst : limits.refuses name (steps + 1) (hops + 1) with
    | some first =>
      rw [hfirst] at h
      obtain rfl := Option.some.inj h
      exact ⟨1, Nat.one_pos, Nat.succ_pos more, fun j hpos hlt => by omega, hfirst⟩
    | none =>
      rw [hfirst] at h
      obtain ⟨k, hpos, hle, hbefore, hat⟩ := ih h
      refine ⟨k + 1, Nat.succ_pos k, Nat.succ_le_succ hle, fun j hj hlt => ?_, ?_⟩
      · cases j with
        | zero => omega
        | succ j =>
          cases j with
          | zero => exact hfirst
          | succ j =>
            have hshift := hbefore (j + 1) (Nat.succ_pos j) (by omega)
            rwa [Nat.add_right_comm steps, Nat.add_right_comm hops] at hshift
      · rwa [Nat.add_right_comm steps, Nat.add_right_comm hops] at hat

/-! ## Courses -/

variable {depth steps : Nat} {ls : List Leaf}

lemma course_append_of_stop (ms : List Leaf) (h : (limits.course name depth steps ls).2 = some err) :
    limits.course name depth steps (ls ++ ms) = limits.course name depth steps ls := by
  induction ls generalizing steps with
  | nil => cases h
  | cons leaf ls ih =>
    rw [List.cons_append, course, course]
    rw [course] at h
    cases hleaf : limits.refusal name steps (depth + leaf.common) leaf.own with
    | some first => rfl
    | none =>
      rw [hleaf] at h
      simp only [ih h]

lemma course_append_of_pass (ms : List Leaf) (h : (limits.course name depth steps ls).2 = none)
    (hsteps : ls = [] → steps = 0) :
    limits.course name depth steps (ls ++ ms)
      = (ls.map Leaf.ending ++ (limits.course name depth 0 ms).1, (limits.course name depth 0 ms).2) := by
  induction ls generalizing steps with
  | nil =>
    rw [hsteps rfl]
    rfl
  | cons leaf ls ih =>
    rw [List.cons_append, course]
    rw [course] at h
    cases hleaf : limits.refusal name steps (depth + leaf.common) leaf.own with
    | some first =>
      rw [hleaf] at h
      cases h
    | none =>
      rw [hleaf] at h
      simp only [ih h fun _ => rfl]
      rfl

/-- A search comes to ends of leaves only. -/
lemma fst_course_subset : (limits.course name depth steps ls).1 ⊆ ls.map Leaf.ending := by
  induction ls generalizing steps with
  | nil => exact List.nil_subset _
  | cons leaf ls ih =>
    rw [course, List.map_cons]
    cases limits.refusal name steps (depth + leaf.common) leaf.own with
    | some err => exact List.nil_subset _
    | none => exact List.cons_subset_cons _ ih

/-- Nothing refuses a walk that fits. -/
lemma refusal_eq_none_iff_fits (name : String) {leaf : Leaf} (hown : leaf.common < leaf.walk.length) :
    limits.refusal name 0 (0 + leaf.common) leaf.own = none ↔ leaf.Fits limits := by
  have hpos : 0 < leaf.own := Nat.sub_pos_of_lt hown
  rw [refusal_eq_none_iff hpos, Leaf.Fits, Leaf.own]
  omega

/-- What refuses a walk does so at the first hop that is too many. -/
lemma refused_of_refusal {leaf : Leaf}
    (h : limits.refusal name 0 (0 + leaf.common) leaf.own = some err) :
    leaf.Refused limits name err := by
  obtain ⟨k, hpos, hle, hbefore, hat⟩ := exists_of_refusal h
  rw [Leaf.own] at hle
  refine ⟨leaf.common + k, by omega, by omega, fun n hn hlt => ?_, ?_⟩
  · have hn' := hbefore (n - leaf.common) (by omega) (by omega)
    rw [refuses_eq_none_iff] at hn'
    omega
  · rw [refuses_eq_some_iff] at hat
    rw [Nat.add_sub_cancel_left]
    rwa [Nat.zero_add, Nat.zero_add] at hat

/-- From the start a search comes to all leaves if all of them fit. -/
theorem course_eq_none_iff (name : String) (hown : ∀ leaf ∈ ls, leaf.common < leaf.walk.length) :
    (limits.course name 0 0 ls).2 = none ↔ ∀ leaf ∈ ls, leaf.Fits limits := by
  induction ls with
  | nil => simp [course]
  | cons leaf ls ih =>
    rw [List.forall_mem_cons] at hown
    rw [List.forall_mem_cons, ← ih hown.2, ← refusal_eq_none_iff_fits name hown.1, course]
    cases limits.refusal name 0 (0 + leaf.common) leaf.own <;> simp

/-- It is stopped on the way to the first leaf that does not. -/
theorem course_of_not_fits {before after : List Leaf} {leaf : Leaf}
    (hown : ∀ l ∈ before ++ leaf :: after, l.common < l.walk.length)
    (hbefore : ∀ l ∈ before, l.Fits limits) (hleaf : ¬ leaf.Fits limits) :
    ∃ err, leaf.Refused limits name err ∧
      limits.course name 0 0 (before ++ leaf :: after) = (before.map Leaf.ending, some err) := by
  rw [List.forall_mem_append, List.forall_mem_cons] at hown
  have hpass := (course_eq_none_iff name hown.1).2 hbefore
  rw [course_append_of_pass _ hpass fun _ => rfl, course]
  cases hrefusal : limits.refusal name 0 (0 + leaf.common) leaf.own with
  | none => exact absurd ((refusal_eq_none_iff_fits name hown.2.1).1 hrefusal) hleaf
  | some err => exact ⟨err, refused_of_refusal hrefusal, by simp⟩

lemma course_below (e : Edge) :
    limits.course name depth steps (ls.map (Leaf.below e))
      = ((limits.course name (depth + 1) steps ls).1.map fun t => (e :: t.1, t.2),
        (limits.course name (depth + 1) steps ls).2) := by
  induction ls generalizing steps with
  | nil => rfl
  | cons leaf ls ih =>
    have hown : (leaf.below e).own = leaf.own := by simp [Leaf.own, Leaf.below]
    have hdepth : depth + (leaf.below e).common = depth + 1 + leaf.common := by
      simp only [Leaf.below]
      omega
    rw [List.map_cons, course, course, hown, hdepth, ih]
    cases limits.refusal name steps (depth + 1 + leaf.common) leaf.own <;> rfl

/-- Along an edge that is refused, a search comes to no leaf. -/
lemma course_enter_of_refuses (hsome : xs ≠ [])
    (h : limits.refuses name (steps + 1) (depth + 1) = some err) :
    limits.course name depth steps (leaves (xs.map fun t => (e :: t.1, t.2))) = ([], some err) := by
  obtain ⟨⟨w, keep⟩, xs, rfl⟩ := List.exists_cons_of_ne_nil hsome
  have hrefusal : limits.refusal name steps depth (w.length + 1) = some err := by
    rw [refusal, h]
  rw [List.map_cons, leaves_cons, course]
  simp only [Leaf.own, List.length_cons, Nat.sub_zero, Nat.add_zero, hrefusal]

/-- Along an edge that is allowed, a search comes to the leaves below it. -/
lemma course_enter (hsome : xs ≠ []) (h : limits.refuses name (steps + 1) (depth + 1) = none) :
    limits.course name depth steps (leaves (xs.map fun t => (e :: t.1, t.2)))
      = ((limits.course name (depth + 1) (steps + 1) (leaves xs)).1.map fun t => (e :: t.1, t.2),
        (limits.course name (depth + 1) (steps + 1) (leaves xs)).2) := by
  obtain ⟨⟨w, keep⟩, xs, rfl⟩ := List.exists_cons_of_ne_nil hsome
  have hrefusal : limits.refusal name steps depth (w.length + 1)
      = limits.refusal name (steps + 1) (depth + 1) w.length := by
    rw [refusal, h]
  rw [List.map_cons, leaves_cons, leaves_cons, leavesAfter_below, course, course, course_below]
  simp only [Leaf.own, List.length_cons, Nat.sub_zero, Nat.add_zero, hrefusal]
  cases limits.refusal name (steps + 1) (depth + 1) w.length <;> rfl

end Limits

/-! ## Runs -/

/-- The budget after the walks to some leaves. -/
def Budget.after (b : Budget) (ls : List Leaf) : Budget :=
  { b with
    used := b.used + (ls.map Leaf.own).sum
    sinceEnd := if ls = [] then b.sinceEnd else 0 }

namespace Search

variable {G : Guide} {σ : Strategy} {edges pending later : List Edge} {onPath : List Visit}
  {s : Search} {visit : Visit} {rest : List Frame} {err : Error}

/-- A search when all edges from its latest node are taken, and the paths to given ends are listed. -/
def past (s : Search) (visit : Visit) (rest : List Frame) (ends : List (List Edge × Bool)) : Search :=
  { s with
    stack := ⟨visit, []⟩ :: rest
    found := (listed s.path ends).reverse ++ s.found
    budget := s.budget.after (leaves ends) }

/-- A step along an edge is refused by the limits, or it is taken. -/
lemma step_of_push? {path : Path} {move : Move} (hstack : s.stack = ⟨visit, e :: later⟩ :: rest)
    (hpush : s.path.push? e.hop = some path) (hmove : σ.move s.onPath e = .ok move) :
    s.step σ
      = match s.budget.limits.refuses s.budget.start (s.budget.sinceEnd + 1) (s.path.length + 1) with
        | some err => .error err
        | none => .ok (some (s.proceed visit later rest path move)) := by
  have hlength := Path.length_of_push? hpush
  unfold step
  simp only [hstack, take, Limits.refuses, Budget.checkSteps, Budget.checkLength, Budget.spend,
    hpush, hmove, orFault_some]
  by_cases hsteps : s.budget.limits.maxSteps < s.budget.sinceEnd + 1
  · simp [hsteps, bind, Except.bind, Except.map]
  · by_cases hhops : s.budget.limits.maxPathLength < s.path.length + 1
    · simp [hsteps, hhops, hlength, bind, Except.bind, Except.map]
    · simp [hsteps, hhops, hlength, bind, Except.bind, Except.map, pure, Except.pure]

/-- No end starts with an edge that is not among those to be taken. -/
lemma head?_ne_of_unfolds (h : Unfolds σ onPath later ends) (hnew : e ∉ later) :
    ∀ t ∈ ends, t.1.head? ≠ some e := by
  intro t ht hhead
  obtain ⟨f, hf, hhead'⟩ := Guide.exists_head_of_unfolds h t ht
  rw [hhead] at hhead'
  exact hnew (Option.some.inj hhead' ▸ hf)

/-- A guided search enters a node only along different edges that go on from it. -/
lemma next_of_enter (hσ : σ.KeepsTo G edges) (hdistinct : ∀ e ∈ edges, (G.next e).Nodup)
    {next : List Edge} (hthere : e ∈ edges) (hmove : σ.move onPath e = .ok (.enter visit next)) :
    next ≠ [] ∧ next ⊆ edges ∧ next.Nodup ∧ next ⊆ G.next e := by
  have hguided : G.move onPath e = .enter visit next :=
    Except.ok.inj ((hσ.move_eq e hthere onPath).symm.trans hmove)
  obtain ⟨rfl, rfl⟩ := Guide.enter_of_move hguided
  refine ⟨fun hnone => ?_, fun x hx => hσ.next_subset e hthere x (Guide.mem_ahead.1 hx).1,
    (hdistinct e hthere).filter _, fun x hx => (Guide.mem_ahead.1 hx).1⟩
  rw [Guide.move, if_pos (.inr (.inr hnone))] at hguided
  cases hguided

/-- The ends of a guided search are those of a tree. -/
lemma isTree_of_unfolds (hσ : σ.KeepsTo G edges) (hdistinct : ∀ e ∈ edges, (G.next e).Nodup)
    (h : Unfolds σ onPath pending ends) (hpending : pending ⊆ edges) (hnodup : pending.Nodup) :
    IsTree ends ∧ (pending ≠ [] → ends ≠ []) := by
  induction h with
  | done => exact ⟨.done, fun hsome => absurd rfl hsome⟩
  | finish hmove hlater ih =>
    rw [List.nodup_cons] at hnodup
    have htree := (ih (fun x hx => hpending (List.mem_cons_of_mem _ hx)) hnodup.2).1
    exact ⟨.finish (head?_ne_of_unfolds hlater hnodup.1) htree, fun _ => by simp⟩
  | enter hmove hbelow hlater ihbelow ihlater =>
    obtain ⟨hgo, hnext, hdifferent, -⟩ :=
      next_of_enter hσ hdistinct (hpending (List.mem_cons_self ..)) hmove
    rw [List.nodup_cons] at hnodup
    obtain ⟨hbelowTree, hsome⟩ := ihbelow hnext hdifferent
    have htree := (ihlater (fun x hx => hpending (List.mem_cons_of_mem _ hx)) hnodup.2).1
    refine ⟨.enter (hsome hgo) (head?_ne_of_unfolds hlater hnodup.1) hbelowTree htree, fun _ => ?_⟩
    simp [hsome hgo]

lemma listed_finish {p q : Path} (h : p.push? e.hop = some q) :
    listed p (([e], keep) :: ends) = (if keep = true then [q] else []) ++ listed p ends := by
  have halong : p.along [e] = q := Path.along_cons_of_push? h []
  cases keep with
  | false => rfl
  | true =>
    rw [← halong]
    rfl

/-- A search is past an edge that ends a walk when it is past the edges after it. -/
lemma past_finish {path : Path} (hpush : s.path.push? e.hop = some path)
    (hnew : ∀ t ∈ ends, t.1.head? ≠ some e) :
    (s.proceed visit later rest path (.finish keep)).past visit rest ends
      = s.past visit rest (([e], keep) :: ends) := by
  have hone : (Leaf.mk [e] keep 0).own = 1 := rfl
  have hfound : (if keep = true then path :: s.found else s.found)
      = (if keep = true then [path] else []).reverse ++ s.found := by
    cases keep <;> rfl
  simp only [past, proceed, Path.pop_of_push? hpush, listed_finish hpush, Budget.after, Budget.spend,
    Budget.endPath, leaves_finish hnew, List.map_cons, List.sum_cons, hone, hfound,
    List.reverse_append, List.append_assoc, reduceCtorEq, if_false, ite_self, Nat.add_assoc]

/-- The state in which all walks below an edge are ended and its node is left. -/
def back (s : Search) (visit : Visit) (later : List Edge) (rest : List Frame) (e : Edge)
    (below : List (List Edge × Bool)) : Search :=
  { s with
    stack := ⟨visit, later⟩ :: rest
    found := (listed s.path (below.map fun t => (e :: t.1, t.2))).reverse ++ s.found
    budget := s.budget.after (leaves (below.map fun t => (e :: t.1, t.2))) }

/-- Past the edges from a node that it entered, a search leaves the node. -/
lemma step_past_of_enter {path : Path} {entered : Visit} {next : List Edge}
    {below : List (List Edge × Bool)} (hpush : s.path.push? e.hop = some path) (hsome : below ≠ []) :
    ((s.proceed visit later rest path (.enter entered next)).past entered (⟨visit, later⟩ :: rest)
        below).step σ
      = .ok (some (s.back visit later rest e below)) := by
  simp only [step, past, proceed, leave, back, Path.pop_of_push? hpush, listed_below hpush,
    List.erase_cons_head, List.isEmpty_cons, Bool.false_eq_true, if_false, Budget.after,
    Budget.spend, sum_own_below hsome, leaves_eq_nil_iff, List.map_eq_nil_iff, hsome, Nat.add_assoc,
    Nat.add_comm 1]

/-- Past the edges after it, a search is past an edge below which it was. -/
lemma past_back {below : List (List Edge × Bool)} (hsome : below ≠ [])
    (hnew : ∀ t ∈ ends, t.1.head? ≠ some e) :
    (s.back visit later rest e below).past visit rest ends
      = s.past visit rest (below.map (fun t => (e :: t.1, t.2)) ++ ends) := by
  simp only [past, back, listed_append, leaves_below_append hnew, Budget.after, leaves_eq_nil_iff,
    List.map_eq_nil_iff, hsome, List.append_eq_nil_iff, false_and, if_false, ite_self,
    List.map_append, List.sum_append, List.reverse_append, List.append_assoc, Nat.add_assoc]

/-- How a search goes along the walks with given ends: limits stop it at the first hop that they refuse,
and then it has listed the paths to the ends before. Otherwise it comes past all of them. -/
structure GoesAlong (σ : Strategy) (s : Search) (visit : Visit) (rest : List Frame)
    (ends : List (List Edge × Bool)) : Prop where
  pass : (s.budget.limits.course s.budget.start s.path.length s.budget.sinceEnd (leaves ends)).2 = none →
    iterate (Search.step σ) s = iterate (Search.step σ) (s.past visit rest ends)
  stop : ∀ done err,
    s.budget.limits.course s.budget.start s.path.length s.budget.sinceEnd (leaves ends)
      = (done, some err) →
    (iterate (Search.step σ) s).result = .error err ∧
      (iterate (Search.step σ) s).last.found = (listed s.path done).reverse ++ s.found

lemma goesAlong_nil (hstack : s.stack = ⟨visit, []⟩ :: rest) : GoesAlong σ s visit rest [] where
  pass _ := by
    have hsame : s.past visit rest [] = s := by
      simp [past, listed, Budget.after, leaves, leavesAfter, ← hstack]
    rw [hsame]
  stop done err herr := by cases herr

/-- A search goes along an edge that ends a walk, and then along the edges after it. -/
lemma goesAlong_finish {path : Path} (hstack : s.stack = ⟨visit, e :: later⟩ :: rest)
    (hpush : s.path.push? e.hop = some path) (hmove : σ.move s.onPath e = .ok (.finish keep))
    (hnew : ∀ t ∈ ends, t.1.head? ≠ some e)
    (hrest : GoesAlong σ (s.proceed visit later rest path (.finish keep)) visit rest ends) :
    GoesAlong σ s visit rest (([e], keep) :: ends) := by
  have hstep := step_of_push? hstack hpush hmove
  have hpath : (s.proceed visit later rest path (.finish keep)).path = s.path :=
    Path.pop_of_push? hpush
  obtain ⟨hpass, hstop⟩ := hrest
  rw [hpath] at hpass hstop
  cases hrefuses : s.budget.limits.refuses s.budget.start (s.budget.sinceEnd + 1)
      (s.path.length + 1) with
  | some first =>
    rw [hrefuses] at hstep
    have hcourse : s.budget.limits.course s.budget.start s.path.length s.budget.sinceEnd
        (leaves (([e], keep) :: ends)) = ([], some first) := by
      simp [leaves_finish hnew, Limits.course, Limits.refusal, Leaf.own, hrefuses]
    constructor
    · intro hnone
      rw [hcourse] at hnone
      cases hnone
    · intro done err herr
      rw [hcourse, Prod.mk.injEq, Option.some.injEq] at herr
      obtain ⟨rfl, rfl⟩ := herr
      rw [iterate_of_error hstep]
      exact ⟨rfl, rfl⟩
  | none =>
    rw [hrefuses] at hstep
    have hcourse : s.budget.limits.course s.budget.start s.path.length s.budget.sinceEnd
        (leaves (([e], keep) :: ends))
          = (([e], keep) ::
              (s.budget.limits.course s.budget.start s.path.length 0 (leaves ends)).1,
            (s.budget.limits.course s.budget.start s.path.length 0 (leaves ends)).2) := by
      simp [leaves_finish hnew, Limits.course, Limits.refusal, Leaf.own, Leaf.ending, hrefuses]
    constructor
    · intro hnone
      rw [hcourse] at hnone
      rw [iterate_of_step hstep, hpass hnone, past_finish hpush hnew]
    · intro done err herr
      rw [hcourse, Prod.mk.injEq] at herr
      obtain ⟨rfl, herr⟩ := herr
      obtain ⟨hresult, hfound⟩ := hstop _ err (Prod.ext rfl herr)
      rw [iterate_of_step hstep]
      refine ⟨hresult, hfound.trans ?_⟩
      rw [listed_finish hpush, List.reverse_append, List.append_assoc]
      cases keep <;> rfl

/-- A search goes along an edge that enters a node, along the edges that go on from there, and then along
the edges after it. -/
lemma goesAlong_enter {path : Path} {entered : Visit} {next : List Edge}
    {below : List (List Edge × Bool)} (hstack : s.stack = ⟨visit, e :: later⟩ :: rest)
    (hpush : s.path.push? e.hop = some path) (hmove : σ.move s.onPath e = .ok (.enter entered next))
    (hsome : below ≠ []) (hnew : ∀ t ∈ ends, t.1.head? ≠ some e)
    (hbelow : GoesAlong σ (s.proceed visit later rest path (.enter entered next)) entered
      (⟨visit, later⟩ :: rest) below)
    (hrest : GoesAlong σ (s.back visit later rest e below) visit rest ends) :
    GoesAlong σ s visit rest (below.map (fun t => (e :: t.1, t.2)) ++ ends) := by
  have hstep := step_of_push? hstack hpush hmove
  have hdepth : (s.proceed visit later rest path (.enter entered next)).path.length
      = s.path.length + 1 := Path.length_of_push? hpush
  have hsince : (s.back visit later rest e below).budget.sinceEnd = 0 := by
    simp [back, Budget.after, leaves_eq_nil_iff, hsome]
  obtain ⟨hpass, hstop⟩ := hbelow
  obtain ⟨hpassRest, hstopRest⟩ := hrest
  rw [hdepth] at hpass hstop
  rw [hsince] at hpassRest hstopRest
  cases hrefuses : s.budget.limits.refuses s.budget.start (s.budget.sinceEnd + 1)
      (s.path.length + 1) with
  | some first =>
    rw [hrefuses] at hstep
    have henter := Limits.course_enter_of_refuses (e := e) hsome hrefuses
    have hcourse := Limits.course_append_of_stop (leaves ends) (congrArg Prod.snd henter)
    rw [← leaves_below_append hnew, henter] at hcourse
    constructor
    · intro hnone
      rw [hcourse] at hnone
      cases hnone
    · intro done err herr
      rw [hcourse, Prod.mk.injEq, Option.some.injEq] at herr
      obtain ⟨rfl, rfl⟩ := herr
      rw [iterate_of_error hstep]
      exact ⟨rfl, rfl⟩
  | none =>
    rw [hrefuses] at hstep
    have henter := Limits.course_enter (e := e) hsome hrefuses
    cases hbelow : s.budget.limits.course s.budget.start (s.path.length + 1)
        (s.budget.sinceEnd + 1) (leaves below) with
    | mk done end? =>
    rw [hbelow] at henter
    cases end? with
    | some first =>
      have hcourse := Limits.course_append_of_stop (leaves ends) (congrArg Prod.snd henter)
      rw [← leaves_below_append hnew, henter] at hcourse
      constructor
      · intro hnone
        rw [hcourse] at hnone
        cases hnone
      · intro done' err herr
        rw [hcourse, Prod.mk.injEq, Option.some.injEq] at herr
        obtain ⟨rfl, rfl⟩ := herr
        rw [iterate_of_step hstep, listed_below hpush]
        exact hstop done first hbelow
    | none =>
      have hback := (hpass (congrArg Prod.snd hbelow)).trans
        (iterate_of_step (step_past_of_enter hpush hsome))
      have hcourse := Limits.course_append_of_pass (leaves ends) (congrArg Prod.snd henter)
        fun hnil => absurd (List.map_eq_nil_iff.1 (leaves_eq_nil_iff.1 hnil)) hsome
      rw [← leaves_below_append hnew, map_ending_leaves] at hcourse
      constructor
      · intro hnone
        rw [hcourse] at hnone
        rw [iterate_of_step hstep, hback, hpassRest hnone, past_back hsome hnew]
      · intro done' err herr
        rw [hcourse, Prod.mk.injEq] at herr
        obtain ⟨rfl, herr⟩ := herr
        obtain ⟨hresult, hfound⟩ := hstopRest _ err (Prod.ext rfl herr)
        rw [iterate_of_step hstep, hback]
        refine ⟨hresult, hfound.trans ?_⟩
        rw [listed_append, List.reverse_append, List.append_assoc]
        rfl

/-- A guided search goes along all walks that its edges unfold to. -/
theorem goesAlong_of_unfolds (hσ : σ.KeepsTo G edges) (hdistinct : ∀ e ∈ edges, (G.next e).Nodup)
    (hjoin : ∀ e f, f ∈ G.next e → f.source = e.target) (h : Unfolds σ onPath pending ends)
    (hpending : pending ⊆ edges) (hnodup : pending.Nodup)
    (hstack : s.stack = ⟨visit, pending⟩ :: rest) (honPath : s.onPath = onPath)
    (hpush : ∀ e ∈ pending, ∃ path, s.path.push? e.hop = some path) :
    GoesAlong σ s visit rest ends := by
  induction h generalizing s visit rest with
  | done onPath => exact goesAlong_nil hstack
  | @finish onPath e later keep ends hmove hlater ih =>
    obtain ⟨path, hpath⟩ := hpush e (List.mem_cons_self ..)
    have hback : (s.proceed visit later rest path (.finish keep)).path = s.path :=
      Path.pop_of_push? hpath
    rw [List.nodup_cons] at hnodup
    refine goesAlong_finish hstack hpath (honPath ▸ hmove) (head?_ne_of_unfolds hlater hnodup.1) ?_
    refine ih (fun x hx => hpending (List.mem_cons_of_mem _ hx)) hnodup.2 rfl honPath ?_
    rw [hback]
    exact fun x hx => hpush x (List.mem_cons_of_mem _ hx)
  | @enter onPath e later next entered below ends hmove hbelow hlater ihbelow ihlater =>
    have hthere : e ∈ edges := hpending (List.mem_cons_self ..)
    obtain ⟨path, hpath⟩ := hpush e (List.mem_cons_self ..)
    obtain ⟨hgo, hnext, hdifferent, hfollow⟩ := next_of_enter hσ hdistinct hthere hmove
    rw [List.nodup_cons] at hnodup
    refine goesAlong_enter hstack hpath (honPath ▸ hmove)
      ((isTree_of_unfolds hσ hdistinct hbelow hnext hdifferent).2 hgo)
      (head?_ne_of_unfolds hlater hnodup.1) ?_ ?_
    · refine ihbelow hnext hdifferent rfl (congrArg (entered :: ·) honPath) fun f hf => ?_
      -- the longer path ends where the edges that follow begin
      obtain ⟨-, rfl⟩ := Path.push?_eq_some_iff.1 hpath
      refine ⟨_, Path.push?_eq_some_iff.2 ⟨fun node hnode => ?_, rfl⟩⟩
      obtain rfl : e.target = node := Option.some.inj hnode
      exact (hjoin e f (hfollow hf)).symm
    · exact ihlater (fun x hx => hpending (List.mem_cons_of_mem _ hx)) hnodup.2 rfl honPath
        fun x hx => hpush x (List.mem_cons_of_mem _ hx)

end Search

end WorkflowLoops

import WorkflowLoops.Iteration
import WorkflowLoops.Search.Budget

/-!
# Search with backtracking

Walking all paths from a node, depth first. The state holds one path that grows by a hop when the
search enters a node and shrinks when it leaves it again, what the path remembers of the nodes it
went through, and for every node on the path the edges that are still to be taken from there. What
ends a path, and where it goes on, is told by a `Strategy`.

The main statement is that every step lowers the `work` left, the size of the part of the search
tree still ahead; so a search always ends.
-/

namespace WorkflowLoops

/-- How a path remembers that it went through a node: by the node alone, or also by the role of the
input through which it came. -/
structure Visit where
  node : NodeId
  via : Option LoopRole := none
deriving DecidableEq, Repr

/-- What a search does after a hop. -/
inductive Move
  /-- The path ends here; it is listed or passed over. -/
  | finish (keep : Bool)
  /-- The path goes on from here along each of these edges. -/
  | enter (visit : Visit) (next : List Edge)
deriving DecidableEq, Repr

/-- The rules of one kind of search. -/
structure Strategy where
  /-- How the start is remembered. -/
  root : Visit
  /-- Whether coming back to the start counts as coming back onto the path. -/
  marksRoot : Bool
  /-- What to do after a hop along an edge, given what the path remembers. -/
  move : List Visit → Edge → Except Error Move

/-- A node on the path, and the edges still to be taken from it. -/
structure Frame where
  visit : Visit
  pending : List Edge
deriving DecidableEq, Repr

/-- The state of a search. -/
structure Search where
  /-- The nodes on the path, the latest one first, the start last. -/
  stack : List Frame := []
  path : Path := {}
  /-- What the path remembers. -/
  onPath : List Visit := []
  /-- The paths listed so far, the latest one first. -/
  found : List Path := []
  budget : Budget
deriving DecidableEq, Repr

namespace Search

/-- Start over along given edges. The budget goes on, and nothing is listed yet. -/
def restart (s : Search) (σ : Strategy) (first : List Edge) : Search :=
  { s with
    stack := [⟨σ.root, first⟩]
    onPath := if σ.marksRoot then σ.root :: s.onPath else s.onPath
    found := [] }

/-- Leave the latest node, all edges of which are taken. The start was not come to by a hop. -/
def leave (s : Search) (visit : Visit) (rest : List Frame) : Search :=
  { s with
    stack := rest
    onPath := s.onPath.erase visit
    path := if rest.isEmpty then s.path else s.path.pop }

/-- The state after a hop from the latest node, which made the path what it is: either the path ends
and the hop is taken back, or the search enters the node that it reached. -/
def proceed (s : Search) (visit : Visit) (later : List Edge) (rest : List Frame) (path : Path) :
    Move → Search
  | .finish keep =>
    { s with
      stack := ⟨visit, later⟩ :: rest
      path := path.pop
      found := if keep then path :: s.found else s.found
      budget := s.budget.spend.endPath }
  | .enter entered next =>
    { s with
      stack := ⟨entered, next⟩ :: ⟨visit, later⟩ :: rest
      path := path
      onPath := entered :: s.onPath
      budget := s.budget.spend }

/-- Take an edge from the latest node. -/
def take (s : Search) (σ : Strategy) (visit : Visit) (e : Edge) (later : List Edge)
    (rest : List Frame) : Except Error Search := do
  s.budget.spend.checkSteps
  let path ← orFault (.discontinuous e.source) (s.path.push? e.hop)
  s.budget.checkLength path.length
  let move ← σ.move s.onPath e
  pure (s.proceed visit later rest path move)

/-- One step: leave the latest node or take an edge from it. Nothing is left to do when no node is
on the stack. -/
def step (σ : Strategy) (s : Search) : Except Error (Option Search) :=
  match s.stack with
  | [] => .ok none
  | ⟨visit, []⟩ :: rest => .ok (some (s.leave visit rest))
  | ⟨visit, e :: later⟩ :: rest => (s.take σ visit e later rest).map some

/-! ## Termination -/

/-- The number of steps for taking edges from a node and leaving it: the size of the search tree
below it. -/
def workAt (σ : Strategy) (maxLength : Nat) (onPath : List Visit) (path : Path) :
    List Edge → Nat
  | [] => 1
  | e :: later =>
    let below :=
      match _pushed : path.push? e.hop with
      | none => 0
      | some longer =>
        if _short : longer.length ≤ maxLength then
          match σ.move onPath e with
          | .ok (.enter visit next) => workAt σ maxLength (visit :: onPath) longer next
          | _ => 0
        else 0
    1 + below + workAt σ maxLength onPath path later
termination_by pending => (maxLength - path.length, pending.length)
decreasing_by
  · have := Path.length_of_push? _pushed
    exact Prod.Lex.left _ _ (by omega)
  · exact Prod.Lex.right _ (by simp)

/-- The work at a node includes that of the node which its first edge leads into. -/
theorem workAt_cons_of_enter {σ : Strategy} {maxLength : Nat} {onPath : List Visit}
    {path longer : Path} {e : Edge} {visit : Visit} {next : List Edge} (later : List Edge)
    (hpush : path.push? e.hop = some longer) (hshort : longer.length ≤ maxLength)
    (hmove : σ.move onPath e = .ok (.enter visit next)) :
    workAt σ maxLength onPath path (e :: later)
      = 1 + workAt σ maxLength (visit :: onPath) longer next
          + workAt σ maxLength onPath path later := by
  rw [workAt.eq_2]
  split
  · simp_all
  · rename_i pushed hpushed
    obtain rfl : longer = pushed := by simpa [hpush] using hpushed
    simp [hshort, hmove]

/-- The number of steps for emptying a stack. -/
def workOf (σ : Strategy) (maxLength : Nat) :
    List Frame → List Visit → Path → Nat
  | [], _, _ => 0
  | f :: rest, onPath, path =>
    workAt σ maxLength onPath path f.pending
      + workOf σ maxLength rest (onPath.erase f.visit) (if rest.isEmpty then path else path.pop)

/-- The work left in a state. -/
def work (σ : Strategy) (s : Search) : Nat :=
  workOf σ s.budget.limits.maxPathLength s.stack s.onPath s.path

/-- An edge can be taken if there is a step left, the path goes on with its hop without getting too
long, and the strategy tells a move. -/
theorem take_eq_ok_iff {s t : Search} {σ : Strategy} {visit : Visit} {e : Edge}
    {later : List Edge} {rest : List Frame} :
    s.take σ visit e later rest = .ok t ↔
      s.budget.sinceEnd < s.budget.limits.maxSteps ∧
      ∃ path, s.path.push? e.hop = some path ∧ path.length ≤ s.budget.limits.maxPathLength ∧
        ∃ move, σ.move s.onPath e = .ok move ∧ s.proceed visit later rest path move = t := by
  unfold take
  simp only [bind_eq_ok_iff, orFault_eq_ok_iff, pure, Except.pure, Except.ok.injEq]
  constructor
  · rintro ⟨_, hsteps, path, hpush, _, hlen, move, hmove, rfl⟩
    exact ⟨(s.budget.spend.checkSteps_eq_ok_iff).1 hsteps, path, hpush,
      (s.budget.checkLength_eq_ok_iff _).1 hlen, move, hmove, rfl⟩
  · rintro ⟨hsteps, path, hpush, hlen, move, hmove, rfl⟩
    exact ⟨(), (s.budget.spend.checkSteps_eq_ok_iff).2 hsteps, path, hpush, (),
      (s.budget.checkLength_eq_ok_iff _).2 hlen, move, hmove, rfl⟩

/-- Every step lowers the work left. -/
theorem work_step {σ : Strategy} {s t : Search} (h : s.step σ = .ok (some t)) :
    t.work σ < s.work σ := by
  obtain ⟨stack, path, onPath, found, budget⟩ := s
  unfold step at h
  match stack with
  | [] => simp at h
  | ⟨visit, []⟩ :: rest =>
    obtain rfl : leave _ visit rest = t := by simpa using h
    simp [work, leave, workOf, workAt]
  | ⟨visit, e :: later⟩ :: rest =>
    simp only at h
    cases hu : take ⟨⟨visit, e :: later⟩ :: rest, path, onPath, found, budget⟩ σ visit e later
      rest with
    | error => simp [hu, Except.map] at h
    | ok u =>
      obtain rfl : u = t := by simpa [hu, Except.map] using h
      obtain ⟨-, longer, hpush, hshort, move, hmove, rfl⟩ := take_eq_ok_iff.1 hu
      cases move with
      | finish keep =>
        simp only [work, workOf, proceed, Budget.limits_endPath, Budget.limits_spend,
          Path.pop_of_push? hpush]
        rw [workAt.eq_2]
        omega
      | enter entered next =>
        have hcons := workAt_cons_of_enter later hpush hshort hmove
        simp [work, workOf, proceed, Path.pop_of_push? hpush] at hcons ⊢
        omega

/-- A search always ends: there is less work left after every step. -/
instance (σ : Strategy) : Terminates (step σ) where
  wf := Subrelation.wf (fun h => work_step h) (measure (work σ)).wf

end Search

end WorkflowLoops

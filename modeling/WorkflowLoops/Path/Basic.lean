import WorkflowLoops.Identifier

/-!
# Paths

A hop goes along one edge. A path is a run of hops, each starting where the one before it ends; it
grows and shrinks at its end, so the hops are kept with the latest one first. A cycle is a path that
ends where it starts.
-/

namespace WorkflowLoops

/-- A move along one edge, from an output of a node to an input of a node. -/
structure Hop where
  source : NodeId
  output : PortIdx
  target : NodeId
  input : PortIdx
  /-- The edge that the hop goes along. -/
  edge : EdgeId
deriving DecidableEq, Repr

/-- Whether each hop starts where the hop before it ends. -/
def Hop.chained : List Hop → Bool
  | a :: b :: rest => a.target == b.source && Hop.chained (b :: rest)
  | _ => true

/-- A run of hops, the latest one first. -/
structure Path where
  latestFirst : List Hop := []
deriving DecidableEq, Repr

namespace Path

/-- The hops in the order they are taken. -/
def hops (p : Path) : List Hop := p.latestFirst.reverse

/-- How many hops the path has. -/
def length (p : Path) : Nat := p.latestFirst.length

/-- Whether the path has no hop. -/
def isEmpty (p : Path) : Bool := p.latestFirst.isEmpty

/-- The hop taken first. -/
def first? (p : Path) : Option Hop := p.latestFirst.getLast?

/-- The hop taken last. -/
def last? (p : Path) : Option Hop := p.latestFirst.head?

/-- The node that the path starts from. -/
def origin? (p : Path) : Option NodeId := p.first?.map Hop.source

/-- The node that the path ends at. -/
def terminus? (p : Path) : Option NodeId := p.last?.map Hop.target

/-- Whether every hop starts where the one before it ends. -/
def isContinuous (p : Path) : Bool := Hop.chained p.hops

/-- Whether the path has a hop and ends where it starts. -/
def isClosed (p : Path) : Bool :=
  match p.origin?, p.terminus? with
  | some origin, some terminus => origin == terminus
  | _, _ => false

/-- The path made of given hops, if they follow one another. -/
def ofHops? (hops : List Hop) : Option Path :=
  if Hop.chained hops then some ⟨hops.reverse⟩ else none

/-- The path with one more hop, if that hop starts where the path ends. -/
def push? (p : Path) (h : Hop) : Option Path :=
  if p.terminus?.all (· == h.source) then some ⟨h :: p.latestFirst⟩ else none

/-- The path without its last hop. -/
def pop (p : Path) : Path := ⟨p.latestFirst.tail⟩

@[simp] theorem length_hops (p : Path) : p.hops.length = p.length := by
  simp [hops, length]

theorem push?_eq_some_iff {p q : Path} {h : Hop} :
    p.push? h = some q ↔ (∀ t ∈ p.terminus?, t = h.source) ∧ q = ⟨h :: p.latestFirst⟩ := by
  unfold push?
  cases p.terminus? with
  | none => simp [eq_comm (a := q)]
  | some t => simp [eq_comm (a := q)]

theorem length_of_push? {p q : Path} {h : Hop} (hq : p.push? h = some q) :
    q.length = p.length + 1 := by
  obtain ⟨_, rfl⟩ := push?_eq_some_iff.1 hq
  simp [length]

theorem hops_of_push? {p q : Path} {h : Hop} (hq : p.push? h = some q) :
    q.hops = p.hops ++ [h] := by
  obtain ⟨_, rfl⟩ := push?_eq_some_iff.1 hq
  simp [hops]

theorem pop_of_push? {p q : Path} {h : Hop} (hq : p.push? h = some q) : q.pop = p := by
  obtain ⟨_, rfl⟩ := push?_eq_some_iff.1 hq
  rfl

end Path

/-- A path that is continuous and closed. -/
structure Cycle where
  path : Path
deriving DecidableEq, Repr

/-- The cycle that a path forms, if it forms one. -/
def Cycle.close? (p : Path) : Option Cycle :=
  if p.isContinuous && p.isClosed then some ⟨p⟩ else none

end WorkflowLoops

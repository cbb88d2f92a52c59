import WorkflowLoops.Path.Basic

/-!
# Order of paths

Hops are ordered by source, output, target, input and edge, the first difference deciding. Paths are
ordered like words over hops: the first differing hop decides, and a path comes before every path
that continues it.
-/

namespace WorkflowLoops

/-- The order of hops. -/
def Hop.compare (a b : Hop) : Ordering :=
  (Ord.compare a.source b.source).then <|
  (Ord.compare a.output b.output).then <|
  (Ord.compare a.target b.target).then <|
  (Ord.compare a.input b.input).then <|
  Ord.compare a.edge b.edge

/-- The order of paths. -/
def Path.compare (p q : Path) : Ordering := List.compareLex Hop.compare p.hops q.hops

/-- Paths in ascending order; equal ones keep their places. -/
def Path.sort (ps : List Path) : List Path :=
  ps.mergeSort fun p q => (p.compare q).isLE

end WorkflowLoops

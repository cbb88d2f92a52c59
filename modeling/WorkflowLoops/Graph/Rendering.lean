import WorkflowLoops.Graph.Basic

/-!
# Hops and paths as text

A hop is written with execution ids and port names, a path as the list of its hops in brackets.
-/

namespace WorkflowLoops.Graph

/-- The text of a hop. -/
def renderHop (g : Graph) (h : Hop) : Except Error String := do
  let source ← g.nodeAt h.source
  let target ← g.nodeAt h.target
  let output ← source.outputAt h.output
  let input ← target.inputAt h.input
  pure (source.exeId ++ ":" ++ output.name ++ " -> " ++ target.exeId ++ ":" ++ input.name)

/-- The text of a path. -/
def renderPath (g : Graph) (p : Path) : Except Error String := do
  let hops ← p.hops.mapM g.renderHop
  pure ("[" ++ ", ".intercalate hops ++ "]")

end WorkflowLoops.Graph

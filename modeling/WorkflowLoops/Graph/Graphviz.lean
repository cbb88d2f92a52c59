import WorkflowLoops.Graph.Basic

/-!
# Graphviz output

A graph is drawn as a `digraph`: a statement per node, then a statement per edge, both in the order
of their numbers. Texts stand between quotes, with quotes and backslashes escaped.
-/

namespace WorkflowLoops

namespace Graphviz

/-- A statement of the drawing: a shape or an arrow, with its label and, if it has one, its
colour. -/
inductive Statement
  | shape (name label : String) (color : Option String)
  | arrow (source target label : String) (color : Option String)
deriving DecidableEq, Repr

/-- A character between quotes. -/
def escapeChar : Char → List Char
  | '\\' => ['\\', '\\']
  | '"' => ['\\', '"']
  | c => [c]

/-- A text between quotes. -/
def escape (s : String) : String := String.ofList (s.toList.flatMap escapeChar)

/-- A text in quotes. -/
def quoted (s : String) : String := "\"" ++ escape s ++ "\""

/-- The attributes of a shape or an arrow, and the end of its statement. -/
def attributes (label : String) (color : Option String) : String :=
  " [label=" ++ quoted label ++
    (match color with
    | some c => ", color=" ++ quoted c
    | none => "") ++ "];\n"

/-- The line for a statement. -/
def Statement.text : Statement → String
  | shape name label color => "  " ++ quoted name ++ attributes label color
  | arrow source target label color =>
    "  " ++ quoted source ++ " -> " ++ quoted target ++ attributes label color

/-- Drivers and controllers stand out. -/
def shapeColor : NodeKind → Option String
  | .driver => some "#AA3939"
  | .controller => some "#D4AA6A"
  | .plain => none

/-- Connections to an enclosing level, from one, and into a nested level stand out, the first of
these that applies. -/
def arrowColor (sourceRole targetRole : LoopRole) : Option String :=
  if targetRole = .outer then some "#55AA55"
  else if sourceRole = .outer then some "#4B698B"
  else if sourceRole.isInner || targetRole.isInner then some "#8B4B8B"
  else none

/-- The shape of a node. -/
def shapeOf (g : Graph) (n : Node) : Except Error Statement := do
  let kind ← g.kind n.id
  pure (.shape n.exeId n.name (shapeColor kind))

/-- The arrow of an edge, labelled with the names of the ports that it joins. -/
def arrowOf (g : Graph) (e : Edge) : Except Error Statement := do
  let source ← g.nodeAt e.source
  let target ← g.nodeAt e.target
  let output ← source.outputAt e.output
  let input ← target.inputAt e.input
  pure (.arrow source.exeId target.exeId (output.name ++ " > " ++ input.name)
    (arrowColor e.sourceRole e.targetRole))

/-- The statements of a graph. -/
def statements (g : Graph) : Except Error (List Statement) := do
  let shapes ← g.nodes.toList.mapM (shapeOf g)
  let arrows ← g.edges.toList.mapM (arrowOf g)
  pure (shapes ++ arrows)

/-- The text of a drawing. -/
def document (ss : List Statement) : String :=
  "digraph wf_graph \x7b\n"
    ++ "  node [shape=rectangle, fontsize=10, fontname=\"Consolas\"];\n"
    ++ "  edge [fontsize=10, fontname=\"Consolas\"];\n"
    ++ String.join (ss.map Statement.text) ++ "\x7d\n"

end Graphviz

/-- The drawing of a graph. -/
def Graph.toDot (g : Graph) : Except Error String := do
  let ss ← Graphviz.statements g
  pure (Graphviz.document ss)

end WorkflowLoops

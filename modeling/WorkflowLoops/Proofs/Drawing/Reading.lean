import Mathlib
import WorkflowLoops.Proofs.Drawing.Quoting
import WorkflowLoops.Proofs.Graph.Consistency

/-!
# Reading a drawing

The text of a drawing is read back statement by statement, whatever the texts are that it quotes: every
reader here gives back what was written, together with what follows it (`readStatement_text`). Since the
colours tell the kinds of nodes and the crossings of edges apart, a drawing tells its sketch
(`read_document`), which is what two graphs with the same drawing have in common
(`toDot_tells_sketch`).
-/

namespace WorkflowLoops

/-- How an edge crosses the levels of loops, by the roles that it plays at its ends. -/
inductive Crossing
  /-- It enters its target from the level around it. -/
  | toOuter
  /-- It comes from the level around its source. -/
  | fromOuter
  /-- It leads into a nested loop. -/
  | nested
  /-- It stays on one level. -/
  | level
deriving DecidableEq, Repr

/-- The crossing of an edge. Where several apply, the roles of the target come first, and the outer ones
before the inner ones. -/
def Wire.crossing (w : Wire) : Crossing :=
  match w.sourceRole, w.targetRole with
  | _, .outer => .toOuter
  | .outer, _ => .fromOuter
  | .inner, _ => .nested
  | _, .inner => .nested
  | .same, .same => .level

namespace Graphviz

/-- What a drawing tells of a node. -/
structure SketchNode where
  exeId : String
  name : String
  kind : NodeKind
deriving DecidableEq, Repr

/-- What a drawing tells of an edge. -/
structure SketchEdge where
  /-- The execution id of the source. -/
  source : String
  /-- The execution id of the target. -/
  target : String
  /-- The names of the ports that the edge joins. -/
  label : String
  crossing : Crossing
deriving DecidableEq, Repr

/-- What a drawing tells of a graph, in the order of the numbers. -/
structure Sketch where
  nodes : List SketchNode := []
  edges : List SketchEdge := []
deriving DecidableEq, Repr

/-- What a drawing tells of a node of a graph. -/
def sketchNode (g : Graph) (n : Node) : Except Error SketchNode := do
  let kind ← g.kind n.id
  pure ⟨n.exeId, n.name, kind⟩

/-- What a drawing tells of an edge of a graph. -/
def sketchEdge (g : Graph) (e : Edge) : Except Error SketchEdge := do
  let source ← g.nodeAt e.source
  let target ← g.nodeAt e.target
  let output ← source.outputAt e.output
  let input ← target.inputAt e.input
  pure ⟨source.exeId, target.exeId, output.name ++ " > " ++ input.name, e.crossing⟩

end Graphviz

/-- What the drawing of a graph tells. -/
def Graph.sketch (g : Graph) : Except Error Graphviz.Sketch := do
  let nodes ← g.nodes.toList.mapM (Graphviz.sketchNode g)
  let edges ← g.edges.toList.mapM (Graphviz.sketchEdge g)
  pure ⟨nodes, edges⟩

namespace Graphviz

/-! ## Colours -/

/-- The colour in which an edge is drawn. -/
def crossingColor : Crossing → Option String
  | .toOuter => some "#55AA55"
  | .fromOuter => some "#4B698B"
  | .nested => some "#8B4B8B"
  | .level => none

lemma arrowColor_eq (w : Wire) : arrowColor w.sourceRole w.targetRole = crossingColor w.crossing := by
  obtain ⟨source, output, sourceRole, target, input, targetRole⟩ := w
  cases sourceRole <;> cases targetRole <;> rfl

/-- The kind of node that has a colour. -/
def kindOfColor? (color : Option String) : Option NodeKind :=
  [NodeKind.driver, .controller, .plain].find? fun kind => shapeColor kind = color

/-- The crossing that has a colour. -/
def crossingOfColor? (color : Option String) : Option Crossing :=
  [Crossing.toOuter, .fromOuter, .nested, .level].find? fun crossing => crossingColor crossing = color

lemma kindOfColor?_shapeColor (kind : NodeKind) : kindOfColor? (shapeColor kind) = some kind := by
  cases kind <;> decide

lemma crossingOfColor?_crossingColor (crossing : Crossing) :
    crossingOfColor? (crossingColor crossing) = some crossing := by
  cases crossing <;> decide

/-! ## Statements -/

/-- What stands behind a word. -/
def skip (word : String) (cs : List Char) : Option (List Char) := word.toList.isPrefixOf? cs

/-- A text in quotes, and what stands behind it. -/
def readQuoted (cs : List Char) : Option (String × List Char) := do
  let cs ← skip "\"" cs
  let (text, cs) ← readText cs
  pure (.ofList text, cs)

/-- The colour of a statement, if it has one, and what stands behind it. -/
def readColor (cs : List Char) : Option (Option String × List Char) :=
  match skip ", color=" cs with
  | some cs => do
    let (color, cs) ← readQuoted cs
    pure (some color, cs)
  | none => pure (none, cs)

/-- The label and the colour of a statement, and what stands behind it. -/
def readAttributes (cs : List Char) : Option ((String × Option String) × List Char) := do
  let cs ← skip " [label=" cs
  let (label, cs) ← readQuoted cs
  let (color, cs) ← readColor cs
  let cs ← skip "];\n" cs
  pure ((label, color), cs)

/-- A statement, and what stands behind it. -/
def readStatement (cs : List Char) : Option (Statement × List Char) := do
  let cs ← skip "  " cs
  let (name, cs) ← readQuoted cs
  match skip " -> " cs with
  | some cs => do
    let (target, cs) ← readQuoted cs
    let ((label, color), cs) ← readAttributes cs
    pure (.arrow name target label color, cs)
  | none => do
    let ((label, color), cs) ← readAttributes cs
    pure (.shape name label color, cs)

/-- The statements up to the end of a drawing. -/
def readStatements (cs : List Char) : Option (List Statement) :=
  if skip "\x7d\n" cs = some [] then some []
  else
    match readStatement cs with
    | some (s, rest) =>
      if rest.length < cs.length then (readStatements rest).map (s :: ·) else none
    | none => none
termination_by cs.length

/-- What a drawing starts with. -/
def heading : String :=
  "digraph wf_graph \x7b\n"
    ++ "  node [shape=rectangle, fontsize=10, fontname=\"Consolas\"];\n"
    ++ "  edge [fontsize=10, fontname=\"Consolas\"];\n"

/-- The statements of a drawing. -/
def readDocument (text : String) : Option (List Statement) :=
  (skip heading text.toList).bind readStatements

@[simp] lemma skip_append (word : String) (cs : List Char) : skip word (word.toList ++ cs) = some cs :=
  List.isPrefixOf?_eq_some_iff_append_eq.2 rfl

lemma toList_quoted (s : String) (rest : List Char) :
    (quoted s).toList ++ rest = "\"".toList ++ (s.toList.flatMap escapeChar ++ '"' :: rest) := by
  rw [quoted, String.toList_append, String.toList_append, toList_escape, List.append_assoc,
    List.append_assoc]
  rfl

/-- A text in quotes is read back. -/
theorem readQuoted_quoted (s : String) (rest : List Char) :
    readQuoted ((quoted s).toList ++ rest) = some (s, rest) := by
  rw [toList_quoted, readQuoted, skip_append]
  simp [readText_escape]

theorem readColor_some (color : String) (rest : List Char) :
    readColor (", color=".toList ++ ((quoted color).toList ++ rest)) = some (some color, rest) := by
  rw [readColor, skip_append]
  simp only [readQuoted_quoted, Option.bind_eq_bind, Option.bind_some, pure]

/-- A statement that ends has no colour. -/
theorem readColor_none (rest : List Char) :
    readColor ("];\n".toList ++ rest) = some (none, "];\n".toList ++ rest) := by
  have hskip : skip ", color=" ("];\n".toList ++ rest) = none := rfl
  rw [readColor, hskip]
  rfl

section Parts

variable {cs cs₁ cs₂ cs₃ rest : List Char} {label name target : String} {color : Option String}

lemma readAttributes_of_parts (hword : skip " [label=" cs = some cs₁)
    (hlabel : readQuoted cs₁ = some (label, cs₂)) (hcolor : readColor cs₂ = some (color, cs₃))
    (hend : skip "];\n" cs₃ = some rest) : readAttributes cs = some ((label, color), rest) := by
  simp [readAttributes, hword, hlabel, hcolor, hend]

lemma readStatement_of_shape (hword : skip "  " cs = some cs₁)
    (hname : readQuoted cs₁ = some (name, cs₂)) (hshape : skip " -> " cs₂ = none)
    (hattributes : readAttributes cs₂ = some ((label, color), rest)) :
    readStatement cs = some (.shape name label color, rest) := by
  simp [readStatement, hword, hname, hshape, hattributes]

lemma readStatement_of_arrow (hword : skip "  " cs = some cs₁)
    (hname : readQuoted cs₁ = some (name, cs₂)) (harrow : skip " -> " cs₂ = some cs₃)
    {cs₄ : List Char} (htarget : readQuoted cs₃ = some (target, cs₄))
    (hattributes : readAttributes cs₄ = some ((label, color), rest)) :
    readStatement cs = some (.arrow name target label color, rest) := by
  simp [readStatement, hword, hname, harrow, htarget, hattributes]

end Parts

lemma toList_attributes_none (label : String) (rest : List Char) :
    (attributes label none).toList ++ rest
      = " [label=".toList ++ ((quoted label).toList ++ ("];\n".toList ++ rest)) := by
  simp only [attributes, String.append_empty, String.toList_append, List.append_assoc]

lemma toList_attributes_some (label color : String) (rest : List Char) :
    (attributes label (some color)).toList ++ rest
      = " [label=".toList ++ ((quoted label).toList ++ (", color=".toList ++ ((quoted color).toList
        ++ ("];\n".toList ++ rest)))) := by
  simp only [attributes, String.toList_append, List.append_assoc]

/-- The label and the colour of a statement are read back. -/
theorem readAttributes_attributes (label : String) (color : Option String) (rest : List Char) :
    readAttributes ((attributes label color).toList ++ rest) = some ((label, color), rest) := by
  cases color with
  | none =>
    rw [toList_attributes_none]
    exact readAttributes_of_parts (skip_append _ _) (readQuoted_quoted _ _) (readColor_none rest)
      (skip_append _ _)
  | some color =>
    rw [toList_attributes_some]
    exact readAttributes_of_parts (skip_append _ _) (readQuoted_quoted _ _) (readColor_some color _)
      (skip_append _ _)

/-- Behind its name, a shape goes on with its label, which no arrow does. -/
lemma skip_arrow_attributes (label : String) (color : Option String) (rest : List Char) :
    skip " -> " ((attributes label color).toList ++ rest) = none := by
  cases color with
  | none =>
    rw [toList_attributes_none]
    rfl
  | some color =>
    rw [toList_attributes_some]
    rfl

/-- A statement is read back. -/
theorem readStatement_text (s : Statement) (rest : List Char) :
    readStatement (s.text.toList ++ rest) = some (s, rest) := by
  cases s with
  | shape name label color =>
    have htext : (Statement.shape name label color).text.toList ++ rest
        = "  ".toList ++ ((quoted name).toList ++ ((attributes label color).toList ++ rest)) := by
      simp only [Statement.text, String.toList_append, List.append_assoc]
    rw [htext]
    exact readStatement_of_shape (skip_append _ _) (readQuoted_quoted _ _)
      (skip_arrow_attributes label color rest) (readAttributes_attributes label color rest)
  | arrow source target label color =>
    have htext : (Statement.arrow source target label color).text.toList ++ rest
        = "  ".toList ++ ((quoted source).toList ++ (" -> ".toList ++ ((quoted target).toList
          ++ ((attributes label color).toList ++ rest)))) := by
      simp only [Statement.text, String.toList_append, List.append_assoc]
    rw [htext]
    exact readStatement_of_arrow (skip_append _ _) (readQuoted_quoted _ _) (skip_append _ _)
      (readQuoted_quoted _ _) (readAttributes_attributes label color rest)

/-! ## Drawings -/

/-- Where a statement stands, the drawing does not end. -/
lemma skip_end_text (s : Statement) (rest : List Char) :
    skip "\x7d\n" (s.text.toList ++ rest) = none := by
  cases s with
  | shape name label color =>
    rw [Statement.text, String.toList_append, String.toList_append]
    rfl
  | arrow source target label color =>
    rw [Statement.text, String.toList_append, String.toList_append, String.toList_append,
      String.toList_append]
    rfl

lemma length_text_pos (s : Statement) : 0 < s.text.toList.length := by
  cases s <;> simp [Statement.text]

/-- The statements of a drawing are read back. -/
theorem readStatements_text (ss : List Statement) :
    readStatements ((ss.map Statement.text).flatMap String.toList ++ "\x7d\n".toList) = some ss := by
  induction ss with
  | nil =>
    rw [List.map_nil, List.flatMap_nil, List.nil_append, readStatements]
    exact if_pos rfl
  | cons s ss ih =>
    rw [List.map_cons, List.flatMap_cons, List.append_assoc, readStatements, skip_end_text,
      if_neg (by simp), readStatement_text]
    have hshorter : ∀ rest : List Char, rest.length < (s.text.toList ++ rest).length := fun rest => by
      rw [List.length_append]
      have hpos := length_text_pos s
      omega
    simp only [hshorter, if_true, ih, Option.map_some]

theorem readDocument_document (ss : List Statement) : readDocument (document ss) = some ss := by
  have htext : document ss = heading ++ String.join (ss.map Statement.text) ++ "\x7d\n" := rfl
  rw [readDocument, htext, String.toList_append, String.toList_append, List.append_assoc, skip_append,
    Option.bind_some, String.toList_join]
  exact readStatements_text ss

/-! ## Sketches -/

/-- The statement that draws a node. -/
def SketchNode.statement (n : SketchNode) : Statement := .shape n.exeId n.name (shapeColor n.kind)

/-- The statement that draws an edge. -/
def SketchEdge.statement (e : SketchEdge) : Statement :=
  .arrow e.source e.target e.label (crossingColor e.crossing)

/-- The statements that draw a graph. -/
def Sketch.statements (s : Sketch) : List Statement :=
  s.nodes.map SketchNode.statement ++ s.edges.map SketchEdge.statement

/-- The sketch that statements draw. -/
def Sketch.ofStatements? : List Statement → Option Sketch
  | [] => some {}
  | .shape name label color :: rest => do
    let kind ← kindOfColor? color
    let s ← ofStatements? rest
    pure { s with nodes := ⟨name, label, kind⟩ :: s.nodes }
  | .arrow source target label color :: rest => do
    let crossing ← crossingOfColor? color
    let s ← ofStatements? rest
    pure { s with edges := ⟨source, target, label, crossing⟩ :: s.edges }

/-- The sketch that the text of a drawing tells. -/
def Sketch.read (text : String) : Option Sketch := (readDocument text).bind ofStatements?

lemma ofStatements?_edges (edges : List SketchEdge) :
    Sketch.ofStatements? (edges.map SketchEdge.statement) = some ⟨[], edges⟩ := by
  induction edges with
  | nil => rfl
  | cons e edges ih =>
    simp [SketchEdge.statement, Sketch.ofStatements?, crossingOfColor?_crossingColor, ih]

theorem ofStatements?_statements (s : Sketch) : Sketch.ofStatements? s.statements = some s := by
  obtain ⟨nodes, edges⟩ := s
  rw [Sketch.statements]
  induction nodes with
  | nil => exact ofStatements?_edges edges
  | cons n nodes ih =>
    simp only at ih
    simp [SketchNode.statement, Sketch.ofStatements?, kindOfColor?_shapeColor, ih]

/-- A drawing tells its sketch. -/
theorem read_document (s : Sketch) : Sketch.read (document s.statements) = some s := by
  rw [Sketch.read, readDocument_document, Option.bind_some, ofStatements?_statements]

/-! ## Graphs -/

lemma shapeOf_eq_map (g : Graph) (n : Node) :
    shapeOf g n = (sketchNode g n).map SketchNode.statement := by
  unfold shapeOf sketchNode
  cases g.kind n.id <;> rfl

lemma arrowOf_eq_map (g : Graph) (e : Edge) :
    arrowOf g e = (sketchEdge g e).map SketchEdge.statement := by
  unfold arrowOf sketchEdge
  rw [arrowColor_eq]
  cases g.nodeAt e.source with
  | error err => rfl
  | ok source =>
    cases g.nodeAt e.target with
    | error err => rfl
    | ok target =>
      simp only [bind, Except.bind]
      cases source.outputAt e.output with
      | error err => rfl
      | ok output => cases target.inputAt e.input <;> rfl

/-- The drawing of a graph draws its sketch, and there is none if there is no sketch. -/
theorem toDot_eq_map (g : Graph) : g.toDot = g.sketch.map fun s => document s.statements := by
  have hshapes := mapM_map (sketchNode g) SketchNode.statement g.nodes.toList
  have harrows := mapM_map (sketchEdge g) SketchEdge.statement g.edges.toList
  simp only [← shapeOf_eq_map, ← arrowOf_eq_map] at hshapes harrows
  rw [Graph.toDot, statements, Graph.sketch, hshapes, harrows]
  cases g.nodes.toList.mapM (sketchNode g) with
  | error err => rfl
  | ok nodes => cases g.edges.toList.mapM (sketchEdge g) <;> rfl

/-- A graph that has a drawing has a sketch, and its drawing tells it. -/
theorem exists_sketch_of_toDot {g : Graph} {text : String} (h : g.toDot = .ok text) :
    ∃ sketch, g.sketch = .ok sketch ∧ Sketch.read text = some sketch := by
  rw [toDot_eq_map] at h
  cases hsketch : g.sketch with
  | error err => simp [hsketch, Except.map] at h
  | ok sketch =>
    obtain rfl : document sketch.statements = text := by simpa [hsketch, Except.map] using h
    exact ⟨sketch, rfl, read_document sketch⟩

/-- Every graph that is built has a drawing from which its sketch can be read: for each node its execution
id, its display name and its kind, and for each edge the execution ids of its ends, the names of its ports
and how it crosses levels, all in the order of their numbers. So graphs with the same drawing have the same
sketch.

No text can break out of its quotes. Escaping doubles the backslashes and then puts one in front of every
quote, it can be undone, and reading on from an opening quote, the first quote that is not escaped is
always the closing one. -/
theorem toDot_tells_sketch {source source' : Workflow} {g g' : Graph}
    (hbuilt : Graph.ofWorkflow source = .ok g) (hbuilt' : Graph.ofWorkflow source' = .ok g') :
    (∃ text sketch, g.toDot = .ok text ∧ g.sketch = .ok sketch ∧ Sketch.read text = some sketch) ∧
    (g.toDot = g'.toDot → g.sketch = g'.sketch) ∧
    (∀ s, escape s = replace (replace s '\\' "\\\\") '"' "\\\"") ∧
    Function.LeftInverse unescape escape ∧ Function.Injective escape ∧
    ∀ s rest, IsClosing ((escape s).toList ++ '"' :: rest) (escape s).toList.length := by
  obtain ⟨text, htext⟩ := (Graph.wellFormed_ofWorkflow hbuilt).exists_toDot
  obtain ⟨text', htext'⟩ := (Graph.wellFormed_ofWorkflow hbuilt').exists_toDot
  obtain ⟨sketch, hsketch, hread⟩ := exists_sketch_of_toDot htext
  obtain ⟨sketch', hsketch', hread'⟩ := exists_sketch_of_toDot htext'
  refine ⟨⟨text, sketch, htext, hsketch, hread⟩, fun hsame => ?_, escape_eq_replace, unescape_escape,
    Function.LeftInverse.injective unescape_escape, isClosing_escape⟩
  obtain rfl : text = text' := Except.ok.inj (htext.symm.trans (hsame.trans htext'))
  obtain rfl : sketch = sketch' := Option.some.inj (hread.symm.trans hread')
  exact hsketch.trans hsketch'.symm

end Graphviz

/-- A worker that hands over to a driver, with texts that look like parts of a drawing. The ids of ports
are not drawn. -/
def Workflow.lookalikes (portId : String) : Workflow where
  nodes := [
    { exeId := "work\"];\n  \"done", name := some "\\", outputs := [⟨portId, "\" -> \""⟩] },
    { exeId := "\\\"", inputs := [⟨portId, "]; "⟩], isDriver := true }]
  connections := [⟨⟨"work\"];\n  \"done", portId, .same⟩, ⟨"\\\"", portId, .outer⟩⟩]

namespace Graphviz

/-- Two workflows that differ in the ids of their ports are drawn alike. -/
theorem toDot_tells_sketch_lookalikes :
    ∃ g g', Graph.ofWorkflow (.lookalikes "p") = .ok g ∧ Graph.ofWorkflow (.lookalikes "q") = .ok g' ∧
      g.toDot = g'.toDot ∧ g.sketch = g'.sketch := by
  have hdrawn : (Graph.ofWorkflow (.lookalikes "p") >>= Graph.toDot).toOption
      = (Graph.ofWorkflow (.lookalikes "q") >>= Graph.toDot).toOption := by
    decide +kernel
  obtain ⟨g, hg⟩ := exists_ok_of_isOk (x := Graph.ofWorkflow (.lookalikes "p")) (by decide +kernel)
  obtain ⟨g', hg'⟩ := exists_ok_of_isOk (x := Graph.ofWorkflow (.lookalikes "q")) (by decide +kernel)
  obtain ⟨text, htext⟩ := (Graph.wellFormed_ofWorkflow hg).exists_toDot
  obtain ⟨text', htext'⟩ := (Graph.wellFormed_ofWorkflow hg').exists_toDot
  simp only [hg, hg', bind, Except.bind, htext, htext', Except.toOption, Option.some.injEq] at hdrawn
  subst hdrawn
  have hsame : g.toDot = g'.toDot := htext.trans htext'.symm
  exact ⟨g, g', hg, hg', hsame, (toDot_tells_sketch hg hg').2.1 hsame⟩

end Graphviz

end WorkflowLoops

import Std.Data.TreeSet
import WorkflowLoops.Declaration.Basic
import WorkflowLoops.Error

/-!
# Defects of one node's ports

A node must not have more ports on a side than can be numbered, its port ids must differ across both
sides, and its output names must differ, because results are listed under them.
-/

namespace WorkflowLoops

/-- The texts of a list that occurred in it before, one entry per repeated occurrence. -/
def repeats (texts : List String) : List String :=
  (texts.foldl note (({} : Std.TreeSet String), #[])).2.toList
where
  /-- Note one text: it is a repetition if it is among those seen. -/
  note : Std.TreeSet String × Array String → String → Std.TreeSet String × Array String
    | (seen, repeated), text =>
      if seen.contains text then (seen, repeated.push text)
      else (seen.insert text, repeated)

namespace NodeDecl

/-- The defect of having more ports on one side than can be numbered. -/
def overflow (n : NodeDecl) (side : Side) (ports : List Port) : List Defect :=
  if ports.length > PortIdx.maxPorts then [.tooManyPorts n.exeId side ports.length] else []

/-- All that is wrong with the ports of a node: first their number, then the port ids that are
declared again, then the output names that are used again. -/
def portDefects (n : NodeDecl) : List Defect :=
  n.overflow .input n.inputs ++ n.overflow .output n.outputs
    ++ (repeats ((n.inputs ++ n.outputs).map Port.id)).map (.duplicatePort n.exeId)
    ++ (repeats (n.outputs.map Port.name)).map (.duplicateOutputName n.exeId)

end NodeDecl

end WorkflowLoops

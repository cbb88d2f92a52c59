import WorkflowLoops.Identifier

/-!
# Arenas

An arena hands out a number for every value put into it and never takes a value back. Its view is
the list of its values in the order they came; the identifier of a value denotes its position.
-/

namespace WorkflowLoops

/-- Values of type `α` in the order they were added, addressed by identifiers of type `ι`. -/
structure Arena (ι α : Type) where
  values : Array α := #[]

namespace Arena

variable {ι α : Type}

/-- How many values the arena holds. -/
def size (a : Arena ι α) : Nat := a.values.size

/-- The values in the order they were added. -/
def toList (a : Arena ι α) : List α := a.values.toList

/-- The identifier that the next value gets. -/
def nextId [Numbering ι] (a : Arena ι α) : ι := Numbering.ofNat a.size

/-- Add a value behind all others. -/
def push (a : Arena ι α) (v : α) : Arena ι α := ⟨a.values.push v⟩

/-- Add values one after the other. -/
def pushAll (a : Arena ι α) (vs : List α) : Arena ι α := vs.foldl push a

/-- The value that an identifier addresses. -/
def get? [Numbering ι] (a : Arena ι α) (id : ι) : Option α := a.values[Numbering.toNat id]?

/-- Every value with its identifier, in the order they were added. -/
def enumerate [Numbering ι] (a : Arena ι α) : List (ι × α) :=
  a.toList.zipIdx.map fun (v, i) => (Numbering.ofNat i, v)

@[simp] theorem toList_push (a : Arena ι α) (v : α) : (a.push v).toList = a.toList ++ [v] := by
  simp [push, toList]

@[simp] theorem size_push (a : Arena ι α) (v : α) : (a.push v).size = a.size + 1 := by
  simp [push, size]

theorem size_eq_length (a : Arena ι α) : a.size = a.toList.length := by
  simp [size, toList]

theorem get?_eq_getElem? [Numbering ι] (a : Arena ι α) (id : ι) :
    a.get? id = a.toList[Numbering.toNat id]? := by
  simp [get?, toList]

end Arena

end WorkflowLoops

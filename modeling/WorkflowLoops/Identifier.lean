/-!
# Identifiers

Nodes, edges and ports are addressed by number: nodes and edges by 32 bits, the ports on one side
of a node by 16 bits. A number handed in from outside is cut down to its low bits; the numbers a
graph gives out are positions in its own tables, taken as they are, which is exact as long as the bits
are enough for them.
-/

namespace WorkflowLoops

/-- Number of a node within its graph. -/
structure NodeId where
  index : Nat
deriving DecidableEq, Repr, Inhabited

/-- Number of an edge within its graph. -/
structure EdgeId where
  index : Nat
deriving DecidableEq, Repr, Inhabited

/-- Position of a port among the inputs, or among the outputs, of its node. -/
structure PortIdx where
  index : Nat
deriving DecidableEq, Repr, Inhabited

/-- Kinds of number that address the entries of a table. -/
class Numbering (ι : Type) where
  /-- The identifier that a number of any size denotes. -/
  ofNat : Nat → ι
  /-- The position that an identifier addresses. -/
  toNat : ι → Nat

namespace NodeId

/-- Node numbers keep the low 32 bits. -/
def ofNat (n : Nat) : NodeId := ⟨n % 4294967296⟩

instance : Numbering NodeId := ⟨ofNat, index⟩

instance : Ord NodeId := ⟨fun a b => compare a.index b.index⟩

theorem index_ofNat (n : Nat) : (ofNat n).index = n % 4294967296 := rfl

end NodeId

namespace EdgeId

/-- Edge numbers keep the low 32 bits. -/
def ofNat (n : Nat) : EdgeId := ⟨n % 4294967296⟩

instance : Numbering EdgeId := ⟨ofNat, index⟩

instance : Ord EdgeId := ⟨fun a b => compare a.index b.index⟩

theorem index_ofNat (n : Nat) : (ofNat n).index = n % 4294967296 := rfl

end EdgeId

namespace PortIdx

/-- How many ports a node can have on either side: as many as 16 bits can address. -/
def maxPorts : Nat := 65536

/-- Port positions keep the low 16 bits. -/
def ofNat (n : Nat) : PortIdx := ⟨n % maxPorts⟩

instance : Numbering PortIdx := ⟨ofNat, index⟩

instance : Ord PortIdx := ⟨fun a b => compare a.index b.index⟩

theorem index_ofNat (n : Nat) : (ofNat n).index = n % maxPorts := rfl

/-- A position that fits is kept as it is. -/
theorem index_ofNat_of_lt {n : Nat} (h : n < maxPorts) : (ofNat n).index = n :=
  Nat.mod_eq_of_lt h

end PortIdx

end WorkflowLoops

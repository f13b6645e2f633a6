import TcpStack.ByteStream.Cells

/-! A ring of storage cells that holds a run of bytes. The run starts at `head` and may go past the
last cell, from where it goes on at the first one; `toList` reads it off in order. Reading and writing
a run takes at most two ranges of cells: up to the last cell, and from the first. -/

namespace TcpStack

structure Ring where
  cells : Cells
  head : Nat
  size : Nat

namespace Ring

def ofCapacity (capacity : Nat) : Ring := ⟨{ size := capacity }, 0, 0⟩

def capacity (ring : Ring) : Nat := ring.cells.size

def place (ring : Ring) (i : Nat) : Nat :=
  if ring.head + i < ring.capacity then ring.head + i else ring.head + i - ring.capacity

def toList (ring : Ring) : Bytes :=
  (List.range ring.size).map fun i => ring.cells.get (ring.place i)

/-- The head is a cell, unless there are none, and no more bytes are held than there are cells. -/
structure Valid (ring : Ring) : Prop where
  head_lt : ring.head < ring.capacity ∨ ring.head = 0
  size_le : ring.size ≤ ring.capacity

def append (ring : Ring) (bytes : Bytes) : Except Fault Ring := do
  let tail ← Count.rem (← Count.add ring.head ring.size) ring.capacity
  let first := min bytes.length (← Count.sub ring.capacity tail)
  let cells ← ring.cells.overwrite tail (bytes.take first)
  let cells ← cells.overwrite 0 (bytes.drop first)
  return { ring with cells, size := ← Count.add ring.size bytes.length }

def front (ring : Ring) (count : Nat) : Except Fault Bytes := do
  let count := min count ring.size
  if count = 0 then return []
  let first := min count (← Count.sub ring.capacity ring.head)
  let near ← ring.cells.slice ring.head (ring.head + first)
  let far ← ring.cells.slice 0 (count - first)
  return near ++ far

def dropFront (ring : Ring) (count : Nat) : Except Fault (Ring × Nat) := do
  let count := min count ring.size
  if count = 0 then return (ring, 0)
  let head ← Count.rem (← Count.add ring.head count) ring.capacity
  return ({ ring with head, size := ← Count.sub ring.size count }, count)

@[simp] theorem toList_ofCapacity (capacity : Nat) : (ofCapacity capacity).toList = [] := rfl

theorem valid_ofCapacity (capacity : Nat) : (ofCapacity capacity).Valid :=
  ⟨Or.inr rfl, Nat.zero_le _⟩

@[simp] theorem length_toList (ring : Ring) : ring.toList.length = ring.size := by
  simp [toList]

theorem getElem?_toList (ring : Ring) (i : Nat) :
    ring.toList[i]? =
      if i < ring.size then some (ring.cells.get (ring.place i)) else none :=
  Cells.getElem?_map_range _ _ _

end Ring
end TcpStack

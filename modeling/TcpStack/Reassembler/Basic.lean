import TcpStack.ByteStream.Basic
import TcpStack.Reassembler.Fragment

/-! Reassembly: pieces of a stream that come in any order, overlapping and repeated, leave it in
order. What cannot leave yet is pending. The bytes waiting to be read and the pending ones share one
capacity, and nothing at or past `nextIndex + capacity` is taken. An end mark counts only if all of
its piece was taken. -/

namespace TcpStack

structure Reassembler where
  pending : List Fragment := []
  unassembled : Nat := 0
  nextIndex : Nat := 0
  endIndex : Option Nat := none
  capacity : Nat
  output : ByteStream

namespace Reassembler

def ofCapacity (capacity : Nat) : Reassembler :=
  { capacity, output := ByteStream.ofCapacity capacity }

def create (capacity : Nat) : Except Fault Reassembler := do
  Cells.checkSize capacity
  return ofCapacity capacity

def isEmpty (r : Reassembler) : Bool := r.unassembled == 0

def finished (r : Reassembler) : Bool := r.output.ended

def window (r : Reassembler) : Nat := r.capacity - r.output.size

def checkedWindow (r : Reassembler) : Except Fault Nat := Count.sub r.capacity r.output.size

def closeIfFinished (r : Reassembler) : Reassembler :=
  match r.endIndex with
  | some stop => if stop ≤ r.nextIndex then { r with output := r.output.finish } else r
  | none => r

def insert (r : Reassembler) (fragment : Fragment) : Except Fault Reassembler := do
  let stop ← Count.add fragment.start fragment.bytes.length
  let (before, touching, after) := Fragment.around fragment.start stop r.pending
  let joined ← touching.foldlM Fragment.join fragment
  let kept ← touching.foldlM (fun count old => Count.sub count old.bytes.length) r.unassembled
  let unassembled ← Count.add kept joined.bytes.length
  return { r with pending := before ++ joined :: after, unassembled }

/-- Writes fragments out as long as the next one starts where the output stands. What the output does
not accept stays pending. -/
def deliver (r : Reassembler) : (pending : List Fragment) → Except Fault Reassembler
  | [] => return { r with pending := [] }
  | fragment :: rest =>
    if fragment.start = r.nextIndex then do
      let (output, accepted) ← r.output.write fragment.bytes
      let unassembled ← Count.sub r.unassembled accepted
      let nextIndex ← Count.add r.nextIndex accepted
      let r := { r with output, unassembled, nextIndex }
      if accepted < fragment.bytes.length then
        return { r with pending := ⟨nextIndex, fragment.bytes.drop accepted⟩ :: rest }
      deliver r rest
    else return { r with pending := fragment :: rest }

def push (r : Reassembler) (bytes : Bytes) (index : Nat) (isEnd : Bool) :
    Except Fault Reassembler := do
  let stop ← Count.add index bytes.length
  if stop ≤ r.nextIndex then
    let marked := isEnd && stop == r.nextIndex
    return (if marked then { r with endIndex := some stop } else r).closeIfFinished
  let start := max index r.nextIndex
  let fresh := bytes.drop (start - index)
  let windowEnd ← Count.add r.nextIndex r.capacity
  if windowEnd ≤ start then return r
  let held ← Count.add r.unassembled r.output.size
  let limit := min (r.capacity - held) (← Count.sub windowEnd start)
  let taken := fresh.take limit
  let marked := isEnd && taken.length == fresh.length
  let r := if marked then { r with endIndex := some stop } else r
  if taken.isEmpty then return r.closeIfFinished
  let r ← r.insert ⟨start, taken⟩
  return (← r.deliver r.pending).closeIfFinished

end Reassembler
end TcpStack

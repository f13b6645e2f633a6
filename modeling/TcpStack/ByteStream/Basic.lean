import TcpStack.ByteStream.Ring

/-! Byte streams: a bounded queue of bytes between a writer and a reader, with counts of what went in
and out, an end of input and an error mark. What does not fit is not accepted, and nothing is
accepted after the end of input. -/

namespace TcpStack

structure ByteStream where
  ring : Ring
  written : Nat := 0
  consumed : Nat := 0
  ended : Bool := false
  failed : Bool := false

namespace ByteStream

def ofCapacity (capacity : Nat) : ByteStream := { ring := Ring.ofCapacity capacity }

def create (capacity : Nat) : Except Fault ByteStream := do
  Cells.checkSize capacity
  return ofCapacity capacity

def capacity (stream : ByteStream) : Nat := stream.ring.capacity

def size (stream : ByteStream) : Nat := stream.ring.size

def room (stream : ByteStream) : Nat := stream.capacity - stream.size

def isEmpty (stream : ByteStream) : Bool := stream.size == 0

def atEnd (stream : ByteStream) : Bool := stream.ended && stream.isEmpty

def toList (stream : ByteStream) : Bytes := stream.ring.toList

def write (stream : ByteStream) (bytes : Bytes) : Except Fault (ByteStream × Nat) := do
  if stream.ended then return (stream, 0)
  let accepted := bytes.take (← Count.sub stream.capacity stream.size)
  if accepted.isEmpty then return (stream, 0)
  let ring ← stream.ring.append accepted
  let written ← Count.add stream.written accepted.length
  return ({ stream with ring, written }, accepted.length)

def peek (stream : ByteStream) (count : Nat) : Except Fault Bytes := stream.ring.front count

def pop (stream : ByteStream) (count : Nat) : Except Fault ByteStream := do
  let (ring, dropped) ← stream.ring.dropFront count
  let consumed ← Count.add stream.consumed dropped
  return { stream with ring, consumed }

def read (stream : ByteStream) (count : Nat) : Except Fault (ByteStream × Bytes) := do
  let bytes ← stream.peek count
  return (← stream.pop bytes.length, bytes)

def finish (stream : ByteStream) : ByteStream := { stream with ended := true }

def fail (stream : ByteStream) : ByteStream := { stream with failed := true }

end ByteStream
end TcpStack

import TcpStack.Wire.Word

/-! Cursors over a buffer: a reader takes words off the front of what is left, a writer puts bytes
into the buffer one after another. Neither goes past the end of its buffer. -/

namespace TcpStack.Wire

structure Reader where
  bytes : Bytes
  consumed : Nat := 0
deriving DecidableEq, Repr

def Reader.word? (reader : Reader) (count : Nat) : Option (Nat × Reader) :=
  let left := reader.bytes.drop reader.consumed
  if count ≤ left.length then
    some (Word.decode (left.take count), { reader with consumed := reader.consumed + count })
  else none

structure Writer where
  buffer : Bytes
  written : Nat := 0
deriving DecidableEq, Repr

def Writer.put? (writer : Writer) (bytes : Bytes) : Option Writer :=
  if writer.written + bytes.length ≤ writer.buffer.length then
    some
      { buffer := writer.buffer.take writer.written ++ bytes
          ++ writer.buffer.drop (writer.written + bytes.length)
        written := writer.written + bytes.length }
  else none

def Writer.word? (writer : Writer) (count value : Nat) : Option Writer :=
  writer.put? (Word.encode count value)

end TcpStack.Wire

import TcpStack.Segment
import TcpStack.Wire.Cursor

/-! The header of a segment on the wire: twenty bytes without options. A header that says it has
another length is refused; the two reserved flag bits, the checksum and the urgent pointer are read
over and written as zero. A frame is a segment as one string of bytes, its header followed by its payload. -/

namespace TcpStack

namespace Header

def size : Nat := 20

def sizeWords : Nat := size / 4

def flagByte (header : Header) : Nat :=
  32 * header.urg.toNat + 16 * header.ack.toNat + 8 * header.psh.toNat
    + 4 * header.rst.toNat + 2 * header.syn.toNat + header.fin.toNat

def encode (header : Header) : Bytes :=
  Wire.Word.encode 2 header.sourcePort.toNat
    ++ Wire.Word.encode 2 header.destPort.toNat
    ++ Wire.Word.encode 4 header.seqno.value.toNat
    ++ Wire.Word.encode 4 header.ackno.value.toNat
    ++ Wire.Word.encode 1 (sizeWords * 16)
    ++ Wire.Word.encode 1 header.flagByte
    ++ Wire.Word.encode 2 header.window.toNat
    ++ Wire.Word.encode 2 0
    ++ Wire.Word.encode 2 0

def decode? (bytes : Bytes) : Option (Header × Nat) := do
  let (sourcePort, reader) ← (Wire.Reader.mk bytes 0).word? 2
  let (destPort, reader) ← reader.word? 2
  let (seqno, reader) ← reader.word? 4
  let (ackno, reader) ← reader.word? 4
  let (length, reader) ← reader.word? 1
  let (flags, reader) ← reader.word? 1
  let (window, reader) ← reader.word? 2
  let (_, reader) ← reader.word? 2
  let (_, reader) ← reader.word? 2
  if length / 16 ≠ sizeWords then none
  else
    some
      ({ sourcePort := UInt16.ofNat sourcePort
         destPort := UInt16.ofNat destPort
         seqno := ⟨UInt32.ofNat seqno⟩
         ackno := ⟨UInt32.ofNat ackno⟩
         urg := flags.testBit 5
         ack := flags.testBit 4
         psh := flags.testBit 3
         rst := flags.testBit 2
         syn := flags.testBit 1
         fin := flags.testBit 0
         window := UInt16.ofNat window }, reader.consumed)

def write? (buffer : Bytes) (header : Header) : Option (Bytes × Nat) :=
  ((Wire.Writer.mk buffer 0).put? header.encode).map fun writer => (writer.buffer, writer.written)

@[simp] theorem length_encode (header : Header) : header.encode.length = size := by
  simp [encode, size]

end Header

namespace Segment

def toFrame (segment : Segment) : Bytes := segment.toHeader.encode ++ segment.payload

/-- The segment that a frame carries, unless it is too short or its header has options. -/
def ofFrame? (frame : Bytes) : Option Segment :=
  (Header.decode? frame).map fun (header, length) =>
    { toHeader := header, payload := frame.drop length }

end Segment
end TcpStack

import TcpStack.SeqNum

/-! Segments: the header fields that the connection reads and writes, and a payload. SYN and FIN
take one sequence number each, and every payload byte takes one. -/

namespace TcpStack

structure Header where
  sourcePort : UInt16 := 0
  destPort : UInt16 := 0
  seqno : SeqNum := {}
  ackno : SeqNum := {}
  urg : Bool := false
  ack : Bool := false
  psh : Bool := false
  rst : Bool := false
  syn : Bool := false
  fin : Bool := false
  window : UInt16 := 0
deriving DecidableEq, Repr, Inhabited

structure Segment extends Header where
  payload : Bytes := []
deriving DecidableEq, Repr, Inhabited

namespace Segment

def sequenceLength (segment : Segment) : Nat :=
  segment.payload.length + segment.syn.toNat + segment.fin.toNat

end Segment

namespace Header

def flags (header : Header) : List (Char × Bool) :=
  [('U', header.urg), ('A', header.ack), ('P', header.psh),
    ('R', header.rst), ('S', header.syn), ('F', header.fin)]

def text (header : Header) : String :=
  String.ofList (header.flags.map fun (letter, set) => if set then letter else '-')
    ++ " seqno=" ++ header.seqno.text
    ++ (if header.ack then " ackno=" ++ header.ackno.text else "")
    ++ " win=" ++ toString header.window.toNat

end Header

def Segment.text (segment : Segment) : String :=
  segment.toHeader.text ++ " len=" ++ toString segment.payload.length

end TcpStack

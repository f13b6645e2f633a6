import TcpStack.ByteStream.Call
import TcpStack.Receiver.Basic

/-! The calls on a reassembler and on the receiver around it, as data: pieces pushed into the one, segments that come
in or are looked at by the other, and calls on the inbound stream. -/

namespace TcpStack

namespace Reassembler

inductive Call where
  | push (bytes : Bytes) (index : Nat) (isEnd : Bool)
  | output (call : ByteStream.Call)
deriving DecidableEq, Repr

def perform (r : Reassembler) : Call → Except Fault (Reassembler × Reply)
  | .push bytes index isEnd => do return (← r.push bytes index isEnd, .done)
  | .output call => do
    let (output, reply) ← r.output.perform call
    return ({ r with output }, reply)

end Reassembler

namespace Receiver

inductive Call where
  | segment (segment : Segment)
  | inWindow (segment : Segment)
  | stream (call : ByteStream.Call)
deriving DecidableEq, Repr

def performStream (r : Receiver) (call : ByteStream.Call) : Except Fault (Receiver × Reply) := do
  let (output, reply) ← r.reassembler.output.perform call
  return ({ r with reassembler := { r.reassembler with output } }, reply)

def perform (r : Receiver) : Call → Run (Receiver × Reply)
  | .segment segment => do
    let (r, accepted) ← r.segmentReceived segment
    return (r, .verdict accepted)
  | .inWindow segment => do return (r, .verdict (← r.inWindow segment))
  | .stream call => liftM (r.performStream call)

end Receiver
end TcpStack

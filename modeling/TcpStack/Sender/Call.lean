import TcpStack.ByteStream.Call
import TcpStack.Sender.Basic

/-! The calls on a sender, as data: its own, and calls on the stream it sends. -/

namespace TcpStack.Sender

inductive Call where
  | fill
  | ack (ackno : SeqNum) (window : UInt16)
  | legal (ackno : SeqNum)
  | tick (elapsed : Nat)
  | sendEmpty
  | stream (call : ByteStream.Call)
deriving DecidableEq, Repr

def perform (s : Sender) : Call → Run (Sender × Reply)
  | .fill => do return (← s.fillWindow, .done)
  | .ack ackno window => do
    let (s, legal) ← s.ackReceived ackno window
    return (s, .verdict legal)
  | .legal ackno => do return (s, .verdict (← s.ackIsLegal ackno))
  | .tick elapsed => do return (← s.tick elapsed, .done)
  | .sendEmpty => return (s.sendEmpty, .done)
  | .stream call => do
    let (stream, reply) ← s.stream.perform call
    return ({ s with stream }, reply)

end TcpStack.Sender

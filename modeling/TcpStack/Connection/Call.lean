import TcpStack.Connection.Basic
import TcpStack.Reassembler.Call

/-! The calls on a connection, as data: those of the application, segments from the peer, the passing of
time, and calls on the inbound stream. -/

namespace TcpStack.Connection

inductive Call where
  | connect
  | write (bytes : Bytes)
  | finish
  | abort
  | segment (segment : Segment)
  | tick (elapsed : Nat)
  | inbound (call : ByteStream.Call)
deriving DecidableEq, Repr

def perform (c : Connection) : Call → Run (Connection × Reply)
  | .connect => do return (← c.connect, .done)
  | .write bytes => do
    let (c, accepted) ← c.write bytes
    return (c, .count accepted)
  | .finish => do return (← c.finish, .done)
  | .abort => do return (← c.abort, .done)
  | .segment segment => do return (← c.segmentReceived segment, .done)
  | .tick elapsed => do return (← c.tick elapsed, .done)
  | .inbound call => do
    let (receiver, reply) ← c.receiver.performStream call
    return ({ c with receiver }, reply)

end TcpStack.Connection

import TcpStack.ByteStream.Basic

/-! The calls that writers and readers of a byte stream make, as data, and what a call answers: a history of a stream
is a list of calls. -/

namespace TcpStack

inductive Reply where
  | done
  | count (n : Nat)
  | bytes (data : Bytes)
  | verdict (accepted : Bool)
deriving DecidableEq, Repr

namespace ByteStream

inductive Call where
  | write (bytes : Bytes)
  | peek (count : Nat)
  | pop (count : Nat)
  | read (count : Nat)
  | finish
  | fail
deriving DecidableEq, Repr

def perform (stream : ByteStream) : Call → Except Fault (ByteStream × Reply)
  | .write bytes => do
    let (stream, accepted) ← stream.write bytes
    return (stream, .count accepted)
  | .peek count => do return (stream, .bytes (← stream.peek count))
  | .pop count => do return (← stream.pop count, .done)
  | .read count => do
    let (stream, bytes) ← stream.read count
    return (stream, .bytes bytes)
  | .finish => return (stream.finish, .done)
  | .fail => return (stream.fail, .done)

end ByteStream
end TcpStack

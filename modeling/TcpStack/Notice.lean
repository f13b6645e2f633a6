import TcpStack.Net.Address
import TcpStack.Segment
import TcpStack.State

/-! Notices: what the library has to say about its work, as data. Only `text` puts them into words. -/

namespace TcpStack

inductive Level where
  | warn | debug | trace
deriving DecidableEq, Repr

namespace Level

def all : List Level := [.warn, .debug, .trace]

def rank : Level → Nat
  | .warn => 0
  | .debug => 1
  | .trace => 2

def text : Level → String
  | .warn => "WARN"
  | .debug => "DEBUG"
  | .trace => "TRACE"

end Level

inductive Notice where
  | sent (segment : Segment)
  | resent (segment : Segment) (attempt timeout : Nat)
  | peerInitial (isn : SeqNum)
  | passedIn (segment : Segment)
  | passedOut (segment : Segment)
  | closed
  | abortedLocally
  | resetByPeer
  | givingUp (resends : Nat)
  | timeWaitExpired
  | moved (before after : Summary)
  | droppedActive
  | connected (peer : Option Net.Address)
  | acceptedSyn (peer : Net.Address)
  | ignoredStranger (source : Net.Address)
  | droppedMalformed (source : Net.Address)
  | sendFailed (dest : Net.Address) (reason : String)
deriving DecidableEq, Repr

namespace Notice

def level : Notice → Level
  | .droppedActive => .warn
  | .closed | .abortedLocally | .resetByPeer | .givingUp _ | .timeWaitExpired | .moved .. => .debug
  | .connected _ | .acceptedSyn _ => .debug
  | .sent _ | .resent .. | .peerInitial _ | .passedIn _ | .passedOut _ => .trace
  | .ignoredStranger _ | .droppedMalformed _ | .sendFailed .. => .trace

def text : Notice → String
  | .sent segment => "send " ++ segment.text
  | .resent segment attempt timeout =>
    "resend " ++ segment.text ++ " (attempt " ++ toString attempt ++ ", rto "
      ++ toString timeout ++ "ms)"
  | .peerInitial isn => "peer isn " ++ isn.text
  | .passedIn segment => "in " ++ segment.text
  | .passedOut segment => "out " ++ segment.text
  | .closed => "closed"
  | .abortedLocally => "aborted locally"
  | .resetByPeer => "reset by peer"
  | .givingUp resends => "giving up after " ++ toString resends ++ " retransmissions"
  | .timeWaitExpired => "TIME_WAIT expired"
  | .moved before after => before.label ++ " -> " ++ after.label
  | .droppedActive => "connection dropped while active"
  | .connected peer => "connected to " ++ Net.Address.optionText peer
  | .acceptedSyn peer => "accepted SYN from " ++ peer.text
  | .ignoredStranger source => "ignored segment from stranger " ++ source.text
  | .droppedMalformed source => "dropped malformed frame from " ++ source.text
  | .sendFailed dest reason => "send to " ++ dest.text ++ " failed: " ++ reason

def line (notice : Notice) : String := notice.level.text ++ " " ++ notice.text

end Notice

def Level.lines (level : Level) (notices : List Notice) : List String :=
  (notices.filter fun notice => notice.level.rank ≤ level.rank).map Notice.line

end TcpStack

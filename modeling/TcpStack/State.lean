/-! The state of a connection. It is not stored but seen from outside: a summary of each half, and the
two marks `active` and `linger`. Twelve of the summaries are the named states of the protocol. -/

namespace TcpStack

inductive SendState where
  | error | closed | synSent | synAcked | finSent | finAcked
deriving DecidableEq, Repr

inductive ReceiveState where
  | error | listen | synReceived | finReceived
deriving DecidableEq, Repr

structure Summary where
  sender : SendState
  receiver : ReceiveState
  active : Bool
  linger : Bool
deriving DecidableEq, Repr

inductive State where
  | listen | synReceived | synSent | established | closeWait | lastAck
  | finWait1 | finWait2 | closing | timeWait | reset | closed
deriving DecidableEq, Repr

namespace SendState

def all : List SendState := [.error, .closed, .synSent, .synAcked, .finSent, .finAcked]

def text : SendState → String
  | .error => "error (connection was reset)"
  | .closed => "waiting for stream to begin (no SYN sent)"
  | .synSent => "stream started but nothing acknowledged"
  | .synAcked => "stream ongoing"
  | .finSent => "stream finished (FIN sent) but not fully acknowledged"
  | .finAcked => "stream finished and fully acknowledged"

end SendState

namespace ReceiveState

def all : List ReceiveState := [.error, .listen, .synReceived, .finReceived]

def text : ReceiveState → String
  | .error => "error (connection was reset)"
  | .listen => "waiting for stream to begin (listening for SYN)"
  | .synReceived => "stream started"
  | .finReceived => "stream finished"

end ReceiveState

namespace State

def all : List State :=
  [.listen, .synReceived, .synSent, .established, .closeWait, .lastAck,
    .finWait1, .finWait2, .closing, .timeWait, .reset, .closed]

def summary : State → Summary
  | .listen => ⟨.closed, .listen, true, true⟩
  | .synReceived => ⟨.synSent, .synReceived, true, true⟩
  | .synSent => ⟨.synSent, .listen, true, true⟩
  | .established => ⟨.synAcked, .synReceived, true, true⟩
  | .closeWait => ⟨.synAcked, .finReceived, true, false⟩
  | .lastAck => ⟨.finSent, .finReceived, true, false⟩
  | .finWait1 => ⟨.finSent, .synReceived, true, true⟩
  | .finWait2 => ⟨.finAcked, .synReceived, true, true⟩
  | .closing => ⟨.finSent, .finReceived, true, true⟩
  | .timeWait => ⟨.finAcked, .finReceived, true, true⟩
  | .reset => ⟨.error, .error, false, false⟩
  | .closed => ⟨.finAcked, .finReceived, false, false⟩

def text : State → String
  | .listen => "LISTEN"
  | .synReceived => "SYN_RCVD"
  | .synSent => "SYN_SENT"
  | .established => "ESTABLISHED"
  | .closeWait => "CLOSE_WAIT"
  | .lastAck => "LAST_ACK"
  | .finWait1 => "FIN_WAIT_1"
  | .finWait2 => "FIN_WAIT_2"
  | .closing => "CLOSING"
  | .timeWait => "TIME_WAIT"
  | .reset => "RESET"
  | .closed => "CLOSED"

def ofText? (name : String) : Option State := all.find? fun state => state.text == name

end State

namespace Summary

def named (summary : Summary) : Option State := State.all.find? fun state => state.summary == summary

def text (summary : Summary) : String :=
  "sender=\x60" ++ summary.sender.text ++ "\x60, receiver=\x60" ++ summary.receiver.text
    ++ "\x60, active=" ++ toString summary.active.toNat
    ++ ", linger_after_streams_finish=" ++ toString summary.linger.toNat
    ++ (match summary.named with
      | some state => " [" ++ state.text ++ "]"
      | none => "")

def label (summary : Summary) : String :=
  match summary.named with
  | some state => state.text
  | none => "(" ++ summary.text ++ ")"

end Summary

theorem State.named_summary (state : State) : state.summary.named = some state := by
  cases state <;> rfl

theorem Summary.named_eq_some_iff {summary : Summary} {state : State} :
    summary.named = some state ↔ state.summary = summary := by
  constructor
  · intro h
    simpa using List.find?_some h
  · rintro rfl
    exact State.named_summary state

end TcpStack

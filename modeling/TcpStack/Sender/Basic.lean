import TcpStack.ByteStream.Basic
import TcpStack.Run

/-! The sender cuts its stream into segments, remembers those in flight, and sends the oldest of them
again when the timer expires. Positions are absolute: everything before `highestAck` is
acknowledged, everything before `nextSeqno` was sent, and the window says how far `nextSeqno` may run
ahead. The timer knows no clock and ages only by what it is told. -/

namespace TcpStack

inductive Timer where
  | idle
  | running (remaining : Nat)
deriving DecidableEq, Repr

namespace Timer

def start (timer : Timer) (timeout : Nat) : Timer :=
  match timer with
  | .idle => .running timeout
  | .running remaining => .running remaining

def tick (timer : Timer) (elapsed : Nat) : Timer × Bool :=
  match timer with
  | .idle => (.idle, false)
  | .running remaining =>
    if remaining ≤ elapsed then (.idle, true) else (.running (remaining - elapsed), false)

end Timer

def maxPayload : Nat := 1000

structure Outstanding where
  endSeqno : Nat
  resends : Nat := 0
  segment : Segment
deriving DecidableEq, Repr

structure Sender where
  isn : SeqNum
  queued : List Segment := []
  initialTimeout : Nat
  timeout : Nat := initialTimeout
  timer : Timer := .idle
  stream : ByteStream
  nextSeqno : Nat := 0
  highestAck : Nat := 0
  window : UInt16 := 1
  inFlight : Nat := 0
  outstanding : List Outstanding := []
  finSent : Bool := false

namespace Sender

def initial (capacity timeout : Nat) (isn : SeqNum) : Sender :=
  { isn, initialTimeout := timeout, stream := ByteStream.ofCapacity capacity }

def create (capacity timeout : Nat) (isn : SeqNum) : Except Fault Sender := do
  Cells.checkSize capacity
  return initial capacity timeout isn

def nextWire (s : Sender) : SeqNum := SeqNum.wrap s.nextSeqno s.isn

def send (s : Sender) (segment : Segment) : Run Sender := do
  let segment := { segment with seqno := s.nextWire }
  let nextSeqno ← Count.add s.nextSeqno segment.sequenceLength
  let inFlight ← Count.add s.inFlight segment.sequenceLength
  Run.say (.sent segment)
  return { s with
    nextSeqno
    inFlight
    outstanding := s.outstanding ++ [{ endSeqno := nextSeqno, segment }]
    timer := s.timer.start s.timeout
    queued := s.queued ++ [segment] }

/-- Takes the next payload of at most `budget` bytes off the stream, and says whether the end of the
stream goes with it. The end takes the place of one byte, so it goes along only if a place is left
over. -/
def cut (stream : ByteStream) (budget : Nat) : Except Fault (ByteStream × Bytes × Bool) := do
  let (stream, payload) ← stream.read (← Count.sub budget 1)
  let (stream, last) ← stream.read 1
  return (stream, payload ++ last, last.isEmpty && stream.atEnd)

/-- Sends segments until the window is used up, the end of the stream is sent, or the stream has
nothing ready. Each takes at least one number of the window, so no more segments are tried than the
window has numbers. -/
def sendWithin (window : Nat) : (tries : Nat) → Sender → Run Sender
  | 0, s => pure s
  | tries + 1, s => do
    if s.finSent then return s
    let span ← Count.sub s.nextSeqno s.highestAck
    if window ≤ span then return s
    let room ← Count.sub window span
    let (stream, payload, fin) ← cut s.stream (min room maxPayload)
    if payload.isEmpty && !fin then return s
    let s ← send { s with stream, finSent := fin } { payload, fin }
    sendWithin window tries s

/-- Sends what the stream has and the window allows. The first segment is a lone SYN, and a window of
zero is probed with one byte. -/
def fillWindow (s : Sender) : Run Sender :=
  if s.nextSeqno = 0 then s.send { syn := true }
  else
    let window := max s.window.toNat 1
    sendWithin window window s

/-- An acknowledgment is legal if it covers nothing that was not sent. -/
def ackIsLegal (s : Sender) (ackno : SeqNum) : Except Fault Bool := do
  return (← ackno.unwrap s.isn s.highestAck) ≤ s.nextSeqno

/-- Drops the segments that are acknowledged in full, oldest first, and takes their numbers off the
count in flight. -/
def release (ack inFlight : Nat) : List Outstanding → Except Fault (Nat × List Outstanding)
  | [] => return (inFlight, [])
  | oldest :: rest =>
    if oldest.endSeqno ≤ ack then do
      release ack (← Count.sub inFlight oldest.segment.sequenceLength) rest
    else return (inFlight, oldest :: rest)

/-- Moves the acknowledged position on. If that releases a segment, the timeout falls back to its
first value and the timer starts anew, or stops if nothing is left in flight. -/
def advance (s : Sender) (ack : Nat) : Except Fault Sender := do
  let (inFlight, outstanding) ← release ack s.inFlight s.outstanding
  let s' := { s with highestAck := ack, inFlight, outstanding }
  if outstanding.length = s.outstanding.length then return s'
  return { s' with
    timeout := s.initialTimeout
    timer := if outstanding.isEmpty then .idle else .running s.initialTimeout }

/-- Takes in an acknowledgment. One of numbers never sent is refused, a stale one changes nothing, and
every other one updates the window and sends what now fits. -/
def ackReceived (s : Sender) (ackno : SeqNum) (window : UInt16) : Run (Sender × Bool) := do
  let ack ← ackno.unwrap s.isn s.highestAck
  if s.nextSeqno < ack then return (s, false)
  if ack < s.highestAck then return (s, true)
  let s := { s with window }
  let s ← if s.highestAck < ack then liftM (s.advance ack) else pure s
  return (← s.fillWindow, true)

/-- Ages the timer. When it expires the oldest segment in flight is sent again and the timeout
doubles. -/
def tick (s : Sender) (elapsed : Nat) : Run Sender := do
  let (timer, expired) := s.timer.tick elapsed
  let s := { s with timer }
  match expired, s.outstanding with
  | true, oldest :: rest =>
    let resends ← Count.nextAttempt oldest.resends
    Run.say (.resent oldest.segment resends s.timeout)
    let timeout := Count.double s.timeout
    return { s with
      outstanding := { oldest with resends } :: rest
      queued := s.queued ++ [oldest.segment]
      timeout
      timer := s.timer.start timeout }
  | _, _ => return s

def sendEmpty (s : Sender) : Sender :=
  { s with queued := s.queued ++ [{ seqno := s.nextWire }] }

def resends (s : Sender) : Nat :=
  match s.outstanding with
  | [] => 0
  | oldest :: _ => oldest.resends

def drain (s : Sender) : List Segment × Sender := (s.queued, { s with queued := [] })

def state (s : Sender) : SendState :=
  if s.stream.failed then .error
  else if s.nextSeqno = 0 then .closed
  else if s.nextSeqno = s.inFlight then .synSent
  else if !s.finSent then .synAcked
  else if 0 < s.inFlight then .finSent
  else .finAcked

end Sender
end TcpStack

import TcpStack.Reassembler.Basic
import TcpStack.Run

/-! The receiver puts the payload of inbound segments at its place in the stream, and works out the
acknowledgment number and the window to tell the other side. Positions in the stream count payload
bytes only, so they are one behind the absolute sequence numbers, whose first is that of the SYN. -/

namespace TcpStack

structure Receiver where
  reassembler : Reassembler
  isn : Option SeqNum := none

namespace Receiver

def ofCapacity (capacity : Nat) : Receiver := { reassembler := Reassembler.ofCapacity capacity }

def create (capacity : Nat) : Except Fault Receiver := do
  Cells.checkSize capacity
  return ofCapacity capacity

def stream (r : Receiver) : ByteStream := r.reassembler.output

def window (r : Receiver) : Nat := r.reassembler.window

/-- Where the first payload byte of a segment belongs. A segment without SYN that has the number of
the SYN belongs nowhere. -/
def streamIndex (r : Receiver) (isn : SeqNum) (segment : Segment) : Except Fault (Option Nat) :=
  if segment.syn then return some 0
  else do
    match ← segment.seqno.unwrap isn r.reassembler.nextIndex with
    | 0 => return none
    | absolute + 1 => return some absolute

/-- Some of the `length` bytes from `index` on are in the window. No bytes at all count as in it if
they stand at its start, whatever its size. -/
def overlapsWindow (r : Receiver) (index length : Nat) : Except Fault Bool := do
  let start := r.reassembler.nextIndex
  let stop ← Count.add start (← r.reassembler.checkedWindow)
  if length = 0 then return index == start || (start < index && index < stop)
  else if index < stop then return start < (← Count.add index length)
  else return false

/-- The number of the peer's first segment, which this one gives if it is that segment. Any other is
refused before it, and a second SYN is refused after it. -/
def synchronize (r : Receiver) (segment : Segment) : Run (Receiver × Option SeqNum) :=
  match r.isn, segment.syn with
  | some isn, false => return (r, some isn)
  | none, true => do
    Run.say (.peerInitial segment.seqno)
    return ({ r with isn := some segment.seqno }, some segment.seqno)
  | _, _ => return (r, none)

def segmentReceived (r : Receiver) (segment : Segment) : Run (Receiver × Bool) := do
  let (r, isn) ← r.synchronize segment
  let some isn := isn | return (r, false)
  if r.reassembler.finished && 0 < segment.sequenceLength then return (r, false)
  let some index ← r.streamIndex isn segment | return (r, false)
  let acceptable ←
    if segment.syn then pure true
    else liftM (r.overlapsWindow index segment.payload.length)
  if !acceptable then return (r, false)
  let reassembler ← r.reassembler.push segment.payload index segment.fin
  return ({ r with reassembler }, true)

def inWindow (r : Receiver) (segment : Segment) : Except Fault Bool := do
  let some isn := r.isn | return false
  let some index ← r.streamIndex isn segment | return false
  r.overlapsWindow index segment.payload.length

/-- The next absolute number expected from the peer: past the SYN, the bytes that left reassembly, and
the FIN once the stream has ended. -/
def ackPosition (r : Receiver) : Nat :=
  r.reassembler.nextIndex + 1 + r.reassembler.finished.toNat

def ackno (r : Receiver) : Option SeqNum := r.isn.map (SeqNum.wrap r.ackPosition)

def checkedAckno (r : Receiver) : Except Fault (Option SeqNum) := do
  let some isn := r.isn | return none
  let next ← Count.add r.reassembler.nextIndex 1
  return some (SeqNum.wrap (← Count.add next r.reassembler.finished.toNat) isn)

def widestWindow : Nat := UInt16.size - 1

def stamp (r : Receiver) (segment : Segment) : Except Fault Segment := do
  let some ackno ← r.checkedAckno | return segment
  let window ← r.reassembler.checkedWindow
  return { segment with ack := true, ackno, window := UInt16.ofNat (min window widestWindow) }

def state (r : Receiver) : ReceiveState :=
  if r.stream.failed then .error
  else if r.isn.isNone then .listen
  else if r.stream.ended then .finReceived
  else .synReceived

theorem ackno_of_checkedAckno {r : Receiver} {ackno : Option SeqNum}
    (h : r.checkedAckno = .ok ackno) : r.ackno = ackno := by
  unfold checkedAckno at h
  unfold Receiver.ackno ackPosition
  cases hisn : r.isn with
  | none =>
    simp only [hisn, pure, Except.pure, Except.ok.injEq] at h
    exact h
  | some isn =>
    simp only [hisn] at h
    cases hn : Count.add r.reassembler.nextIndex 1 with
    | error => simp [hn, bind, Except.bind] at h
    | ok next =>
      cases hp : Count.add next r.reassembler.finished.toNat with
      | error => simp [hn, hp, bind, Except.bind] at h
      | ok position =>
        simp only [hn, hp, bind, Except.bind, pure, Except.pure] at h
        rw [Count.add_eq_ok_iff] at hn hp
        cases h
        simp [hn.1, hp.1]

end Receiver
end TcpStack

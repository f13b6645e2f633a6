import TcpStack.Proofs.Connection.Acknowledging
import TcpStack.Proofs.Duplex.Integrity

/-! What is acknowledged was delivered. The position up to which one end counts its numbers as acknowledged
is never ahead of what the other end has taken in, however old the acknowledgments are that come in; so an
end that has come to its last state has brought over its whole stream. -/

namespace TcpStack

theorem Side.other_other (side : Side) : side.other.other = side := by
  cases side <;> rfl

theorem Side.eq_or_eq_other (side actor : Side) : side = actor ∨ side = actor.other := by
  cases side <;> cases actor <;> decide

/-- All that an end lets out, and has let out, acknowledges no more than it has taken in. -/
structure Endpoint.Vouches (e : Endpoint) : Prop where
  connection : e.connection.Vouches
  emitted : ∀ segment ∈ e.emitted, e.connection.receiver.Covers segment

theorem Endpoint.Vouches.step {e e' : Endpoint} {arriving : List Segment} (vouches : e.Vouches)
    (step : Endpoint.Step arriving e e') :
    e'.Vouches ∧ e.connection.receiver.Advances e'.connection.receiver := by
  have kept {connection : Connection} (reached : connection.Vouches ∧
      e.connection.receiver.Advances connection.receiver) :
      (∀ segment ∈ e.emitted, connection.receiver.Covers segment) :=
    fun segment member => reached.2.covers (vouches.emitted segment member)
  cases step with
  | @calls call connection reply own performs =>
    have within : call.within ByteStream.Call.reads = true := by
      cases call <;> first | rfl | exact own
    have reached := vouches.connection.performs within performs
    have same : (e.after call connection reply).connection = connection ∧
        (e.after call connection reply).emitted = e.emitted := by
      unfold after
      split <;> exact ⟨rfl, rfl⟩
    refine ⟨⟨?_, ?_⟩, ?_⟩
    · rw [same.1]
      exact reached.1
    · rw [same.1, same.2]
      exact kept reached
    · rw [same.1]
      exact reached.2
  | receives _ parts =>
    have reached := vouches.connection.parts parts
    exact ⟨⟨reached.1, kept reached⟩, reached.2⟩
  | emits count =>
    have queued := vouches.connection.queued
    refine ⟨⟨⟨vouches.connection.sound, vouches.connection.ledger, fun segment member => ?_⟩,
      fun segment member => ?_⟩, .refl _⟩
    · exact queued segment (List.mem_of_mem_drop member)
    · rcases List.mem_append.mp member with old | new
      · exact vouches.emitted segment old
      · exact queued segment (List.mem_of_mem_take new)

namespace Duplex

open Connection

variable {ended : Bool} {isn : SeqNum} {sender receiver : Endpoint}

theorem Conveys.acknowledged_le (conveys : Conveys ended isn sender receiver)
    (short : sender.accepted.length + 2 < SeqNum.half) :
    receiver.connection.receiver.acknowledged ≤ sender.accepted.length + 2 := by
  have next_le := (conveys.hears short).follows.reassembler.next_le
  have flag := receiver.connection.receiver.reassembler.finished.toNat_le
  unfold Receiver.acknowledged Receiver.ackPosition
  split <;> omega

theorem Conveys.offered (conveys : Conveys ended isn sender receiver)
    (short : sender.accepted.length + 2 < SeqNum.half) {segment : Segment}
    (covers : receiver.connection.receiver.Covers segment) (ack : segment.ack = true) :
    ∃ position, segment.ackno = SeqNum.wrap position isn ∧
      position ≤ receiver.connection.receiver.acknowledged := by
  obtain ⟨number, position, known, ackno, position_le, -⟩ := covers ack
  rw [(conveys.hears short).follows.isn number known] at ackno
  exact ⟨position, ackno, by simpa [Receiver.acknowledged, known] using position_le⟩

theorem Conveys.highestAck_le (conveys : Conveys ended isn sender receiver)
    (vouches : sender.Vouches) (covered : ∀ segment ∈ receiver.emitted,
      receiver.connection.receiver.Covers segment) {sender' : Endpoint}
    (step : Endpoint.Step receiver.emitted sender sender')
    (short : sender'.accepted.length + 2 < SeqNum.half)
    (below : sender.connection.sender.highestAck ≤ receiver.connection.receiver.acknowledged) :
    sender'.connection.sender.highestAck ≤ receiver.connection.receiver.acknowledged := by
  have speaks := conveys.speaks
  have ledger := vouches.connection.ledger
  cases step with
  | calls own performs =>
    cases performs with
    | connects acts | aborts acts | ticks _ acts =>
      exact acts.parts.highestAck_le speaks ledger short (conveys.acknowledged_le short) quiet below
    | receives => cases own
    | ignoresWrite | ignoresFinish | reads => exact below
    | @writes _ bytes stream count accepts replies =>
      have longer : sender.accepted.length ≤ (sender.accepted ++ bytes.take count).length := by
        simp
      change (sender.accepted ++ bytes.take count).length + 2 < SeqNum.half at short
      have limit_le := conveys.acknowledged_le (by omega)
      exact replies.parts.highestAck_le (speaks.write accepts)
        (vouches.connection.withStream stream).ledger short (by omega) quiet below
    | finishes replies =>
      exact replies.parts.highestAck_le speaks.finish
        (vouches.connection.withStream sender.connection.sender.stream.finish).ledger short
        (conveys.acknowledged_le short) quiet below
  | receives sent parts =>
    -- The segment may be old, but what it covers then, the receiver covers still.
    refine parts.highestAck_le speaks ledger short (conveys.acknowledged_le short) ?_ below
    intro segment came ack
    cases came
    exact conveys.offered short (covered _ sent) ack
  | emits => exact below

/-- One direction, with the acknowledgments that come back. -/
structure Agrees (sender receiver : Endpoint) : Prop where
  conveys : ∃ ended isn, Conveys ended isn sender receiver
  sender_vouches : sender.Vouches
  receiver_vouches : receiver.Vouches
  acknowledged : sender.accepted.length + 2 < SeqNum.half →
    sender.connection.sender.highestAck ≤ receiver.connection.receiver.acknowledged

theorem agrees_initial {config config' : Config} (isn isn' : SeqNum)
    (fits : config.capacity < Cells.limit) (fits' : config'.capacity < Cells.limit) :
    Agrees { connection := .initial config isn } { connection := .initial config' isn' } := by
  refine ⟨⟨_, _, conveys_initial isn isn' fits fits'⟩, ⟨vouches_initial isn fits, ?_⟩,
    ⟨vouches_initial isn' fits', ?_⟩, fun _ => Nat.zero_le _⟩
  · intro segment member
    cases member
  · intro segment member
    cases member

theorem Agrees.sender_step (agrees : Agrees sender receiver) {sender' : Endpoint}
    (step : Endpoint.Step receiver.emitted sender sender') : Agrees sender' receiver := by
  obtain ⟨ended, isn, conveys⟩ := agrees.conveys
  obtain ⟨ended', conveys'⟩ := conveys.sender_step step
  have vouches := (agrees.sender_vouches.step step).1
  refine ⟨⟨ended', isn, conveys'⟩, vouches, agrees.receiver_vouches, fun short => ?_⟩
  have shorter : sender.accepted.length ≤ sender'.accepted.length := step.accepted_le
  exact conveys.highestAck_le agrees.sender_vouches agrees.receiver_vouches.emitted step short
    (agrees.acknowledged (by omega))

theorem Agrees.receiver_step (agrees : Agrees sender receiver) {receiver' : Endpoint}
    (step : Endpoint.Step sender.emitted receiver receiver') : Agrees sender receiver' := by
  obtain ⟨ended, isn, conveys⟩ := agrees.conveys
  obtain ⟨vouches, advances⟩ := agrees.receiver_vouches.step step
  exact ⟨⟨ended, isn, conveys.receiver_step step⟩, agrees.sender_vouches, vouches,
    fun short => Nat.le_trans (agrees.acknowledged short) advances.acknowledged_le⟩

theorem Reachable.agrees {d : Duplex} (reachable : d.Reachable) (side : Side) :
    Agrees (d.endpoint side) (d.endpoint side.other) := by
  refine reachable.induction ?_ ?_ ?_ side
  · exact fun _ _ isn isn' fits fits' => agrees_initial isn isn' fits fits'
  · exact fun _ _ _ step agrees _ => agrees.sender_step step
  · exact fun _ _ _ step agrees _ => agrees.receiver_step step

theorem Agrees.finAcked (agrees : Agrees sender receiver)
    (short : sender.accepted.length + 2 < SeqNum.half)
    (state : sender.connection.sender.state = .finAcked) :
    receiver.connection.inbound.ended = true ∧ receiver.assembled = sender.accepted := by
  obtain ⟨ended, isn, conveys⟩ := agrees.conveys
  have all := (agrees.sender_vouches.connection.ledger.finAcked conveys.speaks.serves state).1
  have below := agrees.acknowledged short
  have hears := conveys.hears short
  have next_le := hears.follows.reassembler.next_le
  have finished : receiver.connection.receiver.reassembler.finished = true := by
    unfold Receiver.acknowledged Receiver.ackPosition at below
    cases finished : receiver.connection.receiver.reassembler.finished with
    | true => rfl
    | false =>
      rw [finished] at below
      split at below <;> simp at below <;> omega
  exact ⟨finished, (hears.spec.2 finished).2⟩

/-- What is acknowledged to `side` was delivered to the other, and a closed end has both streams behind
it. -/
theorem highestAck_le_delivered {d : Duplex} (reachable : d.Reachable)
    (short : ∀ side, (d.endpoint side).accepted.length < SeqNum.half - 2) (side : Side) :
    ((d.endpoint side.other).connection.receiver.isn = none →
      (d.endpoint side).connection.sender.highestAck = 0) ∧
    ((d.endpoint side.other).connection.receiver.isn ≠ none →
      (d.endpoint side).connection.sender.highestAck ≤
        (d.endpoint side.other).connection.receiver.reassembler.nextIndex + 1 +
          (d.endpoint side.other).connection.inbound.ended.toNat) ∧
    ((d.endpoint side).connection.sender.state = .finAcked →
      (d.endpoint side.other).connection.inbound.ended = true ∧
        (d.endpoint side.other).assembled = (d.endpoint side).accepted) ∧
    ((d.endpoint side).connection.summary.named = some .closed →
      (d.endpoint side.other).assembled = (d.endpoint side).accepted ∧
        (d.endpoint side).assembled = (d.endpoint side.other).accepted) := by
  have agrees := reachable.agrees side
  have near : (d.endpoint side).accepted.length + 2 < SeqNum.half := by
    have bound := short side
    omega
  have far : (d.endpoint side.other).accepted.length + 2 < SeqNum.half := by
    have bound := short side.other
    omega
  have below := agrees.acknowledged near
  unfold Receiver.acknowledged at below
  refine ⟨fun unknown => ?_, fun known => ?_, agrees.finAcked near, fun named => ?_⟩
  · simpa [unknown] using below
  · rwa [if_pos (Option.isSome_iff_ne_none.mpr known)] at below
  · have closed := (Summary.named_eq_some_iff.mp named).symm
    have sender_state := congrArg Summary.sender closed
    have receiver_state := congrArg Summary.receiver closed
    refine ⟨(agrees.finAcked near sender_state).2, ?_⟩
    obtain ⟨ended, isn, conveys⟩ := (reachable.agrees side.other).conveys
    rw [Side.other_other] at conveys
    exact ((conveys.spec far).2 (Receiver.ended_of_finReceived receiver_state)).2

theorem closed_after_answer : ∃ d : Duplex, d.Reachable ∧
    (∀ side, (d.endpoint side).accepted.length < SeqNum.half - 2) ∧
    (d.endpoint .second).connection.summary.named = some .closed ∧
    (d.endpoint .first).assembled = [120, 121] ∧
    (d.endpoint .second).assembled = [97, 98, 99] := by
  have seen : (fun d => (sight d .first, sight d .second)) <$> meeting (overtaken ++
      [.call .second (.write [120, 121]), .call .second .finish, .emit .second 9,
        .deliver .first 6, .deliver .first 5, .emit .first 9, .deliver .second 5]) =
      .ok (⟨[97, 98, 99], true, some .timeWait⟩, ⟨[120, 121], true, some .closed⟩) := by
    decide +kernel
  obtain ⟨d, reachable, first, second⟩ := sight_of_meeting seen
  have accepted : (d.endpoint .first).accepted = [97, 98, 99] := congrArg Sight.accepted first
  have accepted' : (d.endpoint .second).accepted = [120, 121] := congrArg Sight.accepted second
  have named : (d.endpoint .second).connection.summary.named = some .closed :=
    congrArg Sight.named second
  have short (side : Side) : (d.endpoint side).accepted.length < SeqNum.half - 2 := by
    cases side with
    | first =>
      rw [accepted]
      decide
    | second =>
      rw [accepted']
      decide
  obtain ⟨-, -, -, closed⟩ := highestAck_le_delivered reachable short .second
  obtain ⟨there, here⟩ := closed named
  exact ⟨d, reachable, short, named, there.trans accepted', here.trans accepted⟩

end Duplex
end TcpStack

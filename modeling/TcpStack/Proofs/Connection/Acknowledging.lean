import TcpStack.Proofs.Connection.Reachable
import TcpStack.Proofs.Connection.Stream
import TcpStack.Proofs.Receiver.Advance
import TcpStack.Proofs.Sender.Ledger

/-! What a connection acknowledges. Every segment that it lets out acknowledges no more than it had taken
in by then, and since that never falls, no more than it has taken in at any later time. In turn a sender
counts no more as acknowledged than the segments that came in say. -/

namespace TcpStack

namespace Connection

open Outcome

structure Vouches (c : Connection) : Prop where
  sound : c.inbound.Sound
  ledger : c.sender.Ledger
  queued : ∀ segment ∈ c.queued, c.receiver.Covers segment

theorem vouches_initial {config : Config} (isn : SeqNum) (fits : config.capacity < Cells.limit) :
    Vouches (initial config isn) := by
  refine ⟨ByteStream.sound_ofCapacity fits, Sender.ledger_initial _ _ _, ?_⟩
  intro segment member
  cases member

variable {incoming : Option Segment} {c after : Connection}

theorem Part.ledger (part : Part incoming c after) (ledger : c.sender.Ledger) :
    after.sender.Ledger := by
  cases part with
  | sends step => exact ledger.step step
  | takes | ages | checks | expires => exact ledger
  | flushes => exact ledger.of_same rfl rfl rfl rfl (by simp)
  | replaces => exact ledger.of_same rfl rfl rfl rfl (by simp)
  | kills => exact ledger.of_same rfl rfl rfl rfl ledger.plain

theorem Vouches.part (vouches : Vouches c) (part : Part incoming c after) :
    Vouches after ∧ c.receiver.Advances after.receiver := by
  have ledger := part.ledger vouches.ledger
  cases part with
  | sends | replaces | ages | checks | expires =>
    exact ⟨⟨vouches.sound, ledger, vouches.queued⟩, .refl _⟩
  | takes _ takes =>
    have advances := takes.advances vouches.sound
    obtain ⟨_, goes, -⟩ := takes.spec vouches.sound
    exact ⟨⟨goes.sound, ledger, fun segment member =>
      advances.covers (vouches.queued segment member)⟩, advances⟩
  | flushes stamps =>
    refine ⟨⟨vouches.sound, ledger, fun segment member => ?_⟩, .refl _⟩
    rcases List.mem_append.mp member with old | new
    · exact vouches.queued segment old
    · obtain ⟨plain, inside, hstamp⟩ := mem_of_mapM stamps new
      exact Receiver.covers_of_stamp (vouches.ledger.plain plain inside) hstamp
  | kills =>
    exact ⟨⟨vouches.sound.fail, ledger, vouches.queued⟩, fun _ known => known, Nat.le_refl _, id,
      Nat.le_refl _⟩

theorem Vouches.parts (vouches : Vouches c) (parts : Parts incoming c after) :
    Vouches after ∧ c.receiver.Advances after.receiver := by
  refine parts.induction (P := fun x => Vouches x ∧ c.receiver.Advances x.receiver)
    ⟨vouches, .refl _⟩ ?_
  rintro x y part ⟨vouches, advances⟩
  obtain ⟨vouches', advances'⟩ := vouches.part part
  exact ⟨vouches', advances.trans advances'⟩

theorem Vouches.withStream (vouches : Vouches c) (stream : ByteStream) :
    Vouches { c with sender := { c.sender with stream } } :=
  ⟨vouches.sound, vouches.ledger.of_same rfl rfl rfl rfl vouches.ledger.plain, vouches.queued⟩

theorem Vouches.performs (vouches : Vouches c) {call : Call} {reply : Reply}
    (within : call.within ByteStream.Call.reads = true) (performs : Performs c call after reply) :
    Vouches after ∧ c.receiver.Advances after.receiver := by
  cases performs with
  | connects acts | aborts acts | ticks _ acts => exact vouches.parts acts.parts
  | receives _ handles => exact vouches.parts handles.parts
  | ignoresWrite | ignoresFinish => exact ⟨vouches, .refl _⟩
  | @writes _ _ stream _ _ replies => exact (vouches.withStream stream).parts replies.parts
  | finishes replies => exact (vouches.withStream c.sender.stream.finish).parts replies.parts
  | @reads call output _ takes =>
    obtain ⟨count, drops, -⟩ := ByteStream.perform_drops vouches.sound within takes
    have advances : c.receiver.Advances { c.receiver with
        reassembler := { c.receiver.reassembler with output } } :=
      ⟨fun _ known => known, Nat.le_refl _, fun finished => drops.ended_eq.trans finished,
        Nat.add_le_add_left (Nat.sub_le_sub_left drops.size_le _) _⟩
    exact ⟨⟨drops.sound, vouches.ledger, fun segment member =>
      advances.covers (vouches.queued segment member)⟩, advances⟩

theorem Reachable.vouches (reachable : Reachable ByteStream.Call.reads c) : Vouches c := by
  induction reachable with
  | opened opens =>
    obtain ⟨rfl, -, fits⟩ := new?_eq_ok_iff.mp opens
    exact vouches_initial _ fits
  | called _ within performs ih => exact (ih.performs within (perform_performs performs)).1
  | emitted _ count ih =>
    exact ⟨ih.sound, ih.ledger, fun segment member =>
      ih.queued segment (List.mem_of_mem_drop member)⟩

end Connection

namespace Sender

variable {accepted : Bytes} {ended : Bool} {isn : SeqNum} {s after : Sender}

theorem Step.highestAck_le {offer : Option (SeqNum × UInt16)} {limit : Nat} (step : Step offer s after)
    (serves : Serves accepted ended isn s) (ledger : Ledger s)
    (short : accepted.length + 2 < SeqNum.half) (limit_le : limit ≤ accepted.length + 2)
    (offered : ∀ ackno window, offer = some (ackno, window) →
      ∃ position, ackno = SeqNum.wrap position isn ∧ position ≤ limit)
    (below : s.highestAck ≤ limit) : after.highestAck ≤ limit := by
  cases step with
  | opens | cuts | hears | ages | resends | replies => exact below
  | acks offer_eq hunwrap _ _ hadvance =>
    obtain ⟨position, rfl, position_le⟩ := offered _ _ offer_eq
    obtain ⟨_, _, _, _, _, rfl⟩ := advance_eq_ok hadvance
    have highestAck_le := ledger.highestAck_le
    have nextSeqno_le := serves.nextSeqno_le
    rw [serves.isn_eq] at hunwrap
    have found := SeqNum.unwrap_wrap_of_lt_half (by omega) (by omega) hunwrap
    simp only
    omega

end Sender

namespace Connection

variable {accepted : Bytes} {ended : Bool} {isn : SeqNum} {incoming : Option Segment}
  {c after : Connection}

theorem Part.highestAck_le {limit : Nat} (part : Part incoming c after)
    (speaks : Speaks accepted ended isn c) (ledger : c.sender.Ledger)
    (short : accepted.length + 2 < SeqNum.half) (limit_le : limit ≤ accepted.length + 2)
    (offered : ∀ segment, incoming = some segment → segment.ack = true →
      ∃ position, segment.ackno = SeqNum.wrap position isn ∧ position ≤ limit)
    (below : c.sender.highestAck ≤ limit) : after.sender.highestAck ≤ limit := by
  cases part with
  | takes | flushes | replaces | kills | ages | checks | expires => exact below
  | sends step =>
    refine step.highestAck_le speaks.serves ledger short limit_le (fun ackno window offer => ?_) below
    obtain ⟨segment, came, offer⟩ := Option.bind_eq_some_iff.mp offer
    unfold Segment.offer at offer
    split at offer
    · rename_i ack
      cases offer
      exact offered segment came ack
    · cases offer

theorem Parts.highestAck_le {limit : Nat} (parts : Parts incoming c after)
    (speaks : Speaks accepted ended isn c) (ledger : c.sender.Ledger)
    (short : accepted.length + 2 < SeqNum.half) (limit_le : limit ≤ accepted.length + 2)
    (offered : ∀ segment, incoming = some segment → segment.ack = true →
      ∃ position, segment.ackno = SeqNum.wrap position isn ∧ position ≤ limit)
    (below : c.sender.highestAck ≤ limit) : after.sender.highestAck ≤ limit := by
  have kept := parts.induction (P := fun x =>
    Speaks accepted ended isn x ∧ x.sender.Ledger ∧ x.sender.highestAck ≤ limit)
    ⟨speaks, ledger, below⟩ ?_
  · exact kept.2.2
  · rintro x y part ⟨speaks, ledger, below⟩
    exact ⟨speaks.part part, part.ledger ledger,
      part.highestAck_le speaks ledger short limit_le offered below⟩

end Connection
end TcpStack

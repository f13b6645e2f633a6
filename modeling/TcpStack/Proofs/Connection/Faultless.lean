import Mathlib.Algebra.Group.Nat.Defs
import TcpStack.Proofs.Connection.Trace
import TcpStack.Proofs.Connection.Returns

/-! No call of the application and no segment of the peer makes a connection fail. What a connection has put
together is no more than what came in, and what it has sent no more than what was written, so as long as
both together stay short every number that it works out has its place. -/

namespace TcpStack

namespace Receiver

variable {r after : Receiver} {segment : Segment} {accepted : Bool}

theorem Takes.gathered_le (takes : Takes r segment after accepted) (rests : r.reassembler.Rests) :
    after.reassembler.Rests ∧
      after.reassembler.gathered ≤ r.reassembler.gathered + segment.payload.length := by
  cases takes with
  | refused | late => exact ⟨rests, Nat.le_add_right _ _⟩
  | opens _ _ push | goesOn _ _ _ _ _ push =>
    exact ⟨(Reassembler.push_rests rests push).1, rests.gathered_push_le push⟩

end Receiver

namespace Connection

open Outcome

variable {events : List Event} {c after : Connection} {call : Call} {reply : Reply}
  {incoming : Option Segment} {accepted : Bytes} {ended : Bool} {isn : SeqNum}

structure Gathers (length : Nat) (c : Connection) : Prop where
  rests : c.receiver.reassembler.Rests
  gathered_le : c.receiver.reassembler.gathered ≤ length

theorem gathers_initial {config : Config} {isn : SeqNum} (fits : config.capacity < Cells.limit) :
    Gathers 0 (initial config isn) := ⟨Reassembler.rests_ofCapacity fits, Nat.le_refl _⟩

variable {length : Nat}

theorem Gathers.parts (gathers : Gathers length c) (parts : Parts none c after) :
    Gathers length after := by
  refine parts.induction gathers fun x y part gathers => ?_
  cases part with
  | takes came => cases came
  | sends | flushes | replaces | ages | checks | expires => exact ⟨gathers.rests, gathers.gathered_le⟩
  | kills =>
    have rests := gathers.rests
    exact ⟨rests.withOutput rests.sound.fail (Nat.le_refl _) rfl rfl rfl, gathers.gathered_le⟩

theorem Gathers.handles (gathers : Gathers length c) {segment : Segment}
    (handles : Handles c segment after) : Gathers (length + segment.payload.length) after := by
  have more {x : Connection} (same : Gathers length x) :
      Gathers (length + segment.payload.length) x :=
    ⟨same.rests, Nat.le_add_right_of_le same.gathered_le⟩
  have woken : Gathers length { c with idle := 0 } := ⟨gathers.rests, gathers.gathered_le⟩
  cases handles with
  | sleeps => exact more gathers
  | passes => exact more woken
  | ends => exact more (woken.parts (Part.kills _).parts)
  | answers _ _ _ _ replies => exact more (woken.parts replies.parts)
  | @takes sender receiver accepted _ _ _ _ _ takes replies =>
    obtain ⟨rests, gathered_le⟩ := takes.gathered_le gathers.rests
    have taken : Gathers (length + segment.payload.length)
        (checked { c with idle := 0, sender, receiver }) :=
      ⟨rests, Nat.le_trans gathered_le (Nat.add_le_add_right gathers.gathered_le _)⟩
    exact taken.parts replies.parts

theorem Gathers.performs (gathers : Gathers length c)
    (within : call.within ByteStream.Call.reads = true) (performs : Performs c call after reply) :
    Gathers (length + call.payload.length) after := by
  cases performs with
  | connects acts | aborts acts | ticks _ acts => exact gathers.parts acts.parts
  | receives _ handles => exact gathers.handles handles
  | ignoresWrite | ignoresFinish => exact gathers
  | @writes _ _ stream _ _ replies =>
    have same : Gathers length { c with sender := { c.sender with stream } } :=
      ⟨gathers.rests, gathers.gathered_le⟩
    exact same.parts replies.parts
  | finishes replies =>
    have same : Gathers length
        { c with sender := { c.sender with stream := c.sender.stream.finish } } :=
      ⟨gathers.rests, gathers.gathered_le⟩
    exact same.parts replies.parts
  | reads takes =>
    obtain ⟨_, drops, -⟩ := ByteStream.perform_drops gathers.rests.sound within takes
    exact ⟨gathers.rests.drops drops, gathers.gathered_le⟩

theorem Traced.gathers (traced : Traced ByteStream.Call.reads events c) :
    Gathers (received events).length c := by
  induction traced with
  | opened opens =>
    obtain ⟨rfl, -, fits⟩ := new?_eq_ok_iff.mp opens
    exact gathers_initial fits
  | called _ within performs ih =>
    rw [received_append, received_singleton, List.length_append]
    exact ih.performs within (perform_performs performs)
  | emitted _ _ ih => exact ⟨ih.rests, ih.gathered_le⟩

theorem inbound_returns (ready : c.receiver.Ready length) {call : ByteStream.Call}
    (reads : call.reads = true) :
    ∃ output reply, c.inbound.perform call = .ok (output, reply) := by
  have near := ready.near
  have cycle_eq := SeqNum.cycle_eq
  have written : c.inbound.written = c.receiver.reassembler.nextIndex := ready.rests.written
  exact ByteStream.perform_returns ready.rests.sound reads (by omega)

theorem perform_returns (ready : c.receiver.Ready call.payload.length)
    (runs : c.sender.Runs accepted ended isn)
    (short : accepted.length + c.outbound.room + 2 + 2 * SeqNum.cycle ≤ Count.bound)
    (within : call.within ByteStream.Call.reads = true) (timeless : ∀ elapsed, call ≠ .tick elapsed) :
    ∃ after reply, (c.perform call).result = .ok (after, reply) := by
  have stamps := ready.stamps
  cases call with
  | connect =>
    obtain ⟨_, after, connects⟩ := connect_returns stamps runs
    exact ⟨after, .done, perform_eq_ok_iff.mpr ⟨_, .connects connects⟩⟩
  | write bytes =>
    obtain ⟨_, after, count, writes⟩ := write_returns bytes stamps runs short
    exact ⟨after, .count count, perform_eq_ok_iff.mpr ⟨_, .writes writes⟩⟩
  | finish =>
    obtain ⟨_, after, finishes⟩ := finish_returns stamps runs
    exact ⟨after, .done, perform_eq_ok_iff.mpr ⟨_, .finishes finishes⟩⟩
  | abort =>
    obtain ⟨after, aborts⟩ := abort_returns stamps
    exact ⟨after, .done, perform_eq_ok_iff.mpr ⟨_, .aborts aborts⟩⟩
  | segment segment =>
    obtain ⟨after, h⟩ := segment_returns ready runs
    obtain ⟨_, receives⟩ := segmentReceived_eq_ok_iff.mp h
    exact ⟨after, .done, perform_eq_ok_iff.mpr ⟨_, .receives receives⟩⟩
  | tick elapsed => exact absurd rfl (timeless elapsed)
  | inbound call =>
    obtain ⟨output, reply, takes⟩ := inbound_returns ready within
    exact ⟨_, reply, perform_eq_ok_iff.mpr ⟨_, .reads takes⟩⟩

theorem Traced.ready (traced : Traced ByteStream.Call.reads events c)
    (short : (received events).length + length < 2 ^ 62) : c.receiver.Ready length := by
  have gathers := traced.gathers
  have gathered_le := gathers.gathered_le
  have fits := gathers.rests.sound.fits
  rw [gathers.rests.cells] at fits
  unfold Cells.limit at fits
  unfold Reassembler.gathered at gathered_le
  refine ⟨gathers.rests, ?_⟩
  simp only [SeqNum.cycle_eq, SeqNum.bound_eq] at *
  omega

/-- No segment and no call of the application makes a connection fail, whatever came before, as long as fewer
than 2^62 bytes have come in and were written in all. A connection can be had for every configuration that
is not refused. -/
theorem perform_never_faults :
    (∀ config isn, config.validate = .ok () → config.capacity < 2 ^ 62 →
      ∃ c, new? config isn = .ok (.ok c)) ∧
    ∀ events c call, Traced ByteStream.Call.reads events c →
      call.within ByteStream.Call.reads = true → (∀ elapsed, call ≠ .tick elapsed) →
      (received events).length + (written events).length + call.payload.length < 2 ^ 62 →
      ∃ after reply, (c.perform call).result = .ok (after, reply) := by
  constructor
  · intro config isn valid small
    refine ⟨_, new?_eq_ok_iff.mpr ⟨rfl, Config.validate_eq_ok_iff.mp valid, ?_⟩⟩
    unfold Cells.limit
    simp only [SeqNum.bound_eq]
    omega
  intro events c call traced within timeless short
  obtain ⟨⟨ended, isn, speaks⟩, counted⟩ := traced.speaks
  have sound : c.outbound.Sound := speaks.serves.sound
  have room_le : c.outbound.room ≤ c.outbound.capacity := Nat.sub_le _ _
  have fits := sound.fits
  unfold Cells.limit at fits
  have longest : (written events).length + c.outbound.room + 2 + 2 * SeqNum.cycle ≤ Count.bound := by
    simp only [SeqNum.cycle_eq, SeqNum.bound_eq] at *
    omega
  have runs : c.sender.Runs (written events) ended isn :=
    ⟨speaks.serves, traced.reachable.vouches.ledger, Nat.le_of_eq counted, by omega⟩
  exact perform_returns (traced.ready (by omega)) runs longest within timeless

theorem hostile_segments_return : ∃ events c, Traced ByteStream.Call.reads events c ∧
    c.active = true ∧
    (∃ after reply, (c.perform (.segment
      { syn := true, fin := true, ack := true, urg := true, ackno := ⟨4294967295⟩, payload := [1] }
      )).result = .ok (after, reply)) ∧
    ∃ after reply, (c.perform (.segment
      { fin := true, ack := true, seqno := ⟨5002⟩, ackno := ⟨1001⟩, payload := [98, 99, 100, 101] }
      )).result = .ok (after, reply) := by
  have seen : (fun log => (log.2.active, (received log.1).length, (written log.1).length)) <$>
      logOfDial 4 [.write [1, 2],
        .segment { ack := true, seqno := ⟨5003⟩, ackno := ⟨1001⟩, payload := [99] }] =
      .ok (true, 1, 2) := by decide +kernel
  obtain ⟨⟨events, c⟩, logged, look⟩ := map_eq_ok.mp seen
  simp only [Prod.mk.injEq] at look
  obtain ⟨active, came, wrote⟩ := look
  have traced : Traced ByteStream.Call.reads events c :=
    traced_logOfDial (by decide) (by decide) (by simp [Call.within]) logged
  refine ⟨events, c, traced, active, ?_, ?_⟩
  all_goals
    refine perform_never_faults.2 events c _ traced rfl (by simp) ?_
    rw [came, wrote]
    decide

end Connection
end TcpStack

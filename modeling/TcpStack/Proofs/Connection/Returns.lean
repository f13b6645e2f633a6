import TcpStack.Proofs.Connection.Pacing
import TcpStack.Proofs.Sender.Returns

/-! A connection always comes to a result when it deals with a segment, whatever that is, and when it is
called by its application, as long as the positions of neither stream come near the last counters. Neither
half counts away more than there is. -/

namespace TcpStack

open Outcome

open Sender (Progress Launched)

namespace Receiver

variable {p : Progress} {r after : Receiver} {segment : Segment} {length : Nat} {accepted : Bool}

def Acknowledges (r : Receiver) : Prop := r.isn ≠ none → r.ackPosition < Count.bound

/-- What it takes to fill in the acknowledgment fields of a segment. -/
structure Stamps (r : Receiver) : Prop where
  fits : r.stream.size ≤ r.reassembler.capacity
  short : r.reassembler.nextIndex + 2 < Count.bound

/-- Its positions stay far from the last counters even if `length` bytes come in. -/
structure Ready (length : Nat) (r : Receiver) : Prop where
  rests : r.reassembler.Rests
  near : r.reassembler.nextIndex + r.reassembler.capacity + length + 2 * SeqNum.cycle ≤ Count.bound

theorem Keeps.ready (keeps : Keeps p r) (short : p.sent.length + 2 < SeqNum.half)
    (le : length ≤ p.sent.length) : Ready length r := by
  have next_le := keeps.follows.reassembler.next_le
  have fits : r.reassembler.capacity < Cells.limit := keeps.rests.cells ▸ keeps.rests.sound.fits
  unfold Cells.limit at fits
  unfold SeqNum.half at short
  refine ⟨keeps.rests, ?_⟩
  simp only [SeqNum.cycle_eq, SeqNum.bound_eq] at *
  omega

theorem Ready.stamps (ready : Ready length r) : Stamps r := by
  have near := ready.near
  have cycle_eq := SeqNum.cycle_eq
  exact ⟨Nat.le_trans (Nat.le_add_left _ _) ready.rests.budget, by omega⟩

theorem Ready.takes (ready : Ready length r) (takes : Takes r segment after accepted) :
    Stamps after := by
  obtain ⟨delivered, goes, -⟩ := takes.spec ready.rests.sound
  have next_eq := goes.next_eq
  have capacity_eq := goes.capacity_eq
  have near := ready.near
  have cycle_eq := SeqNum.cycle_eq
  have fits : after.stream.size ≤ after.reassembler.capacity := by
    rw [capacity_eq, ← ready.rests.cells, ← goes.cells_eq]
    exact goes.sound.size_le
  have size_eq : after.stream.size = r.stream.size + delivered.length := goes.size_eq
  exact ⟨fits, by omega⟩

theorem length_le_of_launched (launched : Launched p r segment) :
    segment.payload.length ≤ p.sent.length := by
  by_cases nothing : segment.payload = []
  · rw [nothing]
    exact Nat.zero_le _
  · obtain ⟨index, -, piece, -, -⟩ := launched.block nothing
    exact Nat.le_trans (Nat.le_add_left _ _) (piece.stop_le nothing)

theorem Ready.segmentReceived_returns (ready : Ready segment.payload.length r) :
    ∃ after accepted, (r.segmentReceived segment).result = .ok (after, accepted) := by
  have near := ready.near
  have cycle_eq := SeqNum.cycle_eq
  unfold segmentReceived synchronize
  cases known : r.isn with
  | none =>
    cases syn : segment.syn with
    | false => exact ⟨_, _, rfl⟩
    | true =>
      simp only [Run.result_bind, Run.result_say, Run.result_pure, ok_bind]
      by_cases late : (r.reassembler.finished && decide (0 < segment.sequenceLength)) = true
      · rw [if_pos late]
        exact ⟨_, _, rfl⟩
      obtain ⟨reassembler, hpush⟩ :=
        Reassembler.push_returns segment.payload 0 segment.fin ready.rests (by omega) (by omega)
      simp only [if_neg late, streamIndex_of_syn syn, if_true, Run.result_bind, Run.result_lift,
        Run.result_pure, ok_bind, hpush]
      exact ⟨_, _, rfl⟩
  | some isn =>
    cases syn : segment.syn with
    | true =>
      simp only [pure_bind]
      exact ⟨_, _, rfl⟩
    | false =>
      simp only [pure_bind]
      by_cases late : (r.reassembler.finished && decide (0 < segment.sequenceLength)) = true
      · rw [if_pos late]
        exact ⟨_, _, rfl⟩
      have far : r.reassembler.nextIndex + 2 * SeqNum.cycle ≤ Count.bound := by omega
      obtain ⟨absolute, place⟩ := SeqNum.unwrap_returns segment.seqno isn far
      unfold streamIndex
      simp only [if_neg late, syn, Bool.false_eq_true, if_false, Run.result_bind, Run.result_lift,
        place, ok_bind]
      cases absolute with
      | zero => exact ⟨_, _, rfl⟩
      | succ index =>
        have far : r.reassembler.nextIndex + r.reassembler.capacity + segment.payload.length <
            Count.bound := by omega
        obtain ⟨overlaps, hoverlaps⟩ := overlapsWindow_returns index ready.stamps.fits far
        simp only [pure_bind, Run.result_bind, Run.result_lift, hoverlaps, ok_bind]
        cases overlaps with
        | false => exact ⟨_, _, rfl⟩
        | true =>
          have inside := (overlapsWindow_eq_ok hoverlaps).mp rfl
          have window_le : r.window ≤ r.reassembler.capacity := Nat.sub_le _ _
          have index_le : index ≤ r.reassembler.nextIndex + r.reassembler.capacity := by
            unfold Overlaps at inside
            split at inside <;> omega
          obtain ⟨reassembler, hpush⟩ := Reassembler.push_returns segment.payload index segment.fin
            ready.rests (by omega) (by omega)
          simp only [hpush]
          exact ⟨_, _, rfl⟩

theorem acknowledges_iff : r.Acknowledges ↔ ∃ ackno, r.checkedAckno = .ok ackno := by
  have flag := r.reassembler.finished.toNat_le
  unfold Acknowledges checkedAckno ackPosition
  cases r.isn with
  | none => simp
  | some isn =>
    constructor
    · intro place
      have place := place (Option.some_ne_none isn)
      have next : Count.add r.reassembler.nextIndex 1 = .ok (r.reassembler.nextIndex + 1) :=
        Count.add_eq_ok_iff.mpr ⟨rfl, by omega⟩
      have last := Count.add_eq_ok_iff.mpr ⟨rfl, place⟩
      exact ⟨_, by simp only [next, ok_bind, last]; rfl⟩
    · rintro ⟨ackno, next⟩ -
      simp only [bind_eq_ok, pure_eq_ok, Count.add_eq_ok_iff] at next
      obtain ⟨_, ⟨rfl, -⟩, _, ⟨-, place⟩, -⟩ := next
      exact place

theorem Acknowledges.stamp_returns (acknowledges : r.Acknowledges)
    (fits : r.stream.size ≤ r.reassembler.capacity) (segment : Segment) :
    ∃ stamped, r.stamp segment = .ok stamped := by
  obtain ⟨ackno, next⟩ := acknowledges_iff.mp acknowledges
  unfold stamp
  rw [next]
  cases ackno with
  | none => exact ⟨_, rfl⟩
  | some ackno =>
    have width : r.reassembler.checkedWindow = .ok r.window := Count.sub_eq_ok_iff.mpr ⟨rfl, fits⟩
    simp only [ok_bind, width]
    exact ⟨_, rfl⟩

theorem Stamps.acknowledges (stamps : Stamps r) : r.Acknowledges := by
  have short := stamps.short
  have flag := r.reassembler.finished.toNat_le
  unfold Acknowledges ackPosition
  omega

theorem Stamps.stamp_returns (stamps : Stamps r) (segment : Segment) :
    ∃ stamped, r.stamp segment = .ok stamped :=
  stamps.acknowledges.stamp_returns stamps.fits segment

end Receiver

namespace Connection

variable {p : Progress} {accepted : Bytes} {ended : Bool} {isn : SeqNum} {c : Connection}
  {segment : Segment}

theorem flush_of_stamps (fills : ∀ segment, ∃ stamped, c.receiver.stamp segment = .ok stamped) :
    ∃ after, Flushes c after := by
  obtain ⟨_, stamps⟩ := mapM_returns (l := c.sender.queued) fun segment _ => fills segment
  exact ⟨_, .moves stamps⟩

theorem flush_returns (stamps : c.receiver.Stamps) : ∃ after, Flushes c after :=
  flush_of_stamps stamps.stamp_returns

theorem reset_of_stamps (fills : ∀ segment, ∃ stamped, c.receiver.stamp segment = .ok stamped)
    (cause : Option ResetCause) : ∃ rst after, Resets c cause rst after := by
  obtain ⟨rst, stamps⟩ := fills { rst := true, seqno := c.sender.nextWire }
  exact ⟨rst, _, stamps, rfl⟩

theorem fill_returns (stamps : c.receiver.Stamps) (runs : c.sender.Runs accepted ended isn) :
    ∃ sender after, c.sender.fillWindow.result = .ok sender ∧ Flushes { c with sender } after := by
  obtain ⟨sender, fills⟩ := runs.fillWindow_returns
  obtain ⟨after, flushes⟩ := flush_returns (c := { c with sender }) stamps
  exact ⟨sender, after, fills, flushes⟩

theorem connect_returns (stamps : c.receiver.Stamps) (runs : c.sender.Runs accepted ended isn) :
    ∃ asked after, Connects c asked after := by
  obtain ⟨_, after, fills, flushes⟩ := fill_returns stamps runs
  cases active : c.active with
  | false => exact ⟨_, c, .settled (Or.inl active)⟩
  | true =>
    cases opened : c.opened with
    | true => exact ⟨_, c, .settled (Or.inr opened)⟩
    | false => exact ⟨_, after, .opens active opened fills flushes⟩

theorem spread_returns (stamps : c.receiver.Stamps) (runs : c.sender.Runs accepted ended isn) :
    ∃ asked after, Spreads c asked after := by
  obtain ⟨_, after, fills, flushes⟩ := fill_returns stamps runs
  cases opened : c.opened with
  | false => exact ⟨_, c, .waits opened⟩
  | true => exact ⟨_, after, .sends opened fills flushes⟩

theorem abort_returns (stamps : c.receiver.Stamps) : ∃ after, Aborts c after := by
  cases active : c.active with
  | false => exact ⟨c, .sleeps active⟩
  | true =>
    obtain ⟨_, after, resets⟩ := reset_of_stamps stamps.stamp_returns none
    exact ⟨after, .ends active resets⟩

theorem write_returns (bytes : Bytes) (stamps : c.receiver.Stamps)
    (runs : c.sender.Runs accepted ended isn)
    (short : accepted.length + c.outbound.room + 2 + 2 * SeqNum.cycle ≤ Count.bound) :
    ∃ asked after count, Writes c bytes asked after count := by
  cases active : c.active with
  | false => exact ⟨_, c, 0, .sleeps active⟩
  | true =>
    have written := runs.written
    have room : c.sender.stream.room = c.outbound.room := rfl
    have cycle_eq := SeqNum.cycle_eq
    obtain ⟨stream, count, writes⟩ :=
      ByteStream.write_returns bytes runs.serves.sound (by omega)
    have accepts := ByteStream.write_accepts runs.serves.sound writes
    have count_le := accepts.le
    have count_le_room : count ≤ c.sender.stream.room := by
      rw [accepts.accepted_eq]
      split
      · exact Nat.zero_le _
      · exact Nat.min_le_right _ _
    have length_eq : (accepted ++ bytes.take count).length = accepted.length + count := by
      rw [List.length_append, List.length_take, Nat.min_eq_left count_le]
    have runs' : Sender.Runs (accepted ++ bytes.take count) ended isn { c.sender with stream } := by
      refine ⟨runs.serves.write writes, runs.ledger.of_same rfl rfl rfl rfl runs.ledger.plain, ?_, ?_⟩
      · rw [length_eq]
        exact accepts.written_eq ▸ Nat.add_le_add_right written count
      · rw [length_eq]
        omega
    obtain ⟨_, after, spreads⟩ := spread_returns (c := { c with sender := { c.sender with stream } }) stamps runs'
    exact ⟨_, after, count, .accepts active writes spreads⟩

theorem finish_returns (stamps : c.receiver.Stamps) (runs : c.sender.Runs accepted ended isn) :
    ∃ asked after, Finishes c asked after := by
  have runs' : Sender.Runs accepted true isn { c.sender with stream := c.sender.stream.finish } :=
    ⟨runs.serves.finish, runs.ledger.of_same rfl rfl rfl rfl runs.ledger.plain, runs.written,
      runs.short⟩
  cases active : c.active with
  | false => exact ⟨_, c, .sleeps active⟩
  | true =>
    obtain ⟨_, after, spreads⟩ :=
      spread_returns (c := { c with sender := { c.sender with stream := c.sender.stream.finish } }) stamps runs'
    exact ⟨_, after, .ends active spreads⟩

theorem acknowledge_returns (stamps : c.receiver.Stamps) : ∃ asked after, Acknowledges c asked after := by
  cases active : c.active with
  | false => exact ⟨_, c, .ended active⟩
  | true =>
    by_cases none : c.sender.queued = []
    · obtain ⟨after, flushes⟩ := flush_returns (c := { c with sender := c.sender.sendEmpty }) stamps
      exact ⟨_, after, .answers active none flushes⟩
    · obtain ⟨after, flushes⟩ := flush_returns stamps
      exact ⟨_, after, .sends active none flushes⟩

theorem respond_returns (stamps : c.receiver.Stamps) (runs : c.sender.Runs accepted ended isn)
    (segment : Segment) : ∃ asked after, Responds c segment asked after := by
  cases active : c.active with
  | false => exact ⟨_, c, .ended active⟩
  | true =>
    obtain ⟨sender, fills⟩ := runs.fillWindow_returns
    by_cases owed : 0 < segment.sequenceLength ∧ sender.queued = []
    · obtain ⟨after, flushes⟩ := flush_returns (c := { c with sender := sender.sendEmpty }) stamps
      exact ⟨_, after, .answers active fills owed.1 owed.2 flushes⟩
    · obtain ⟨after, flushes⟩ := flush_returns (c := { c with sender }) stamps
      exact ⟨_, after, .sends active fills (not_and.mp owed) flushes⟩

theorem hear_returns (runs : c.sender.Runs accepted ended isn) (segment : Segment) :
    ∃ asked sender, Hearing c.sender segment asked sender ∧ sender.Runs accepted ended isn := by
  have heard : ∃ asked sender, Hearing c.sender segment asked sender := by
    cases ack : segment.ack with
    | false => exact ⟨_, _, .nothing ack⟩
    | true =>
      obtain ⟨sender, legal, hears⟩ := runs.ackReceived_returns segment.ackno segment.window
      exact ⟨_, sender, .acknowledgment ack hears⟩
  obtain ⟨asked, sender, hears⟩ := heard
  exact ⟨asked, sender, hears, runs.steps hears.steps⟩

theorem ackIsLegal_returns (runs : c.sender.Runs accepted ended isn) (ackno : SeqNum) :
    ∃ legal, c.sender.ackIsLegal ackno = .ok legal := by
  obtain ⟨ack, hunwrap⟩ := runs.unwrap_returns ackno
  unfold Sender.ackIsLegal
  rw [hunwrap]
  exact ⟨_, rfl⟩

theorem acceptsAck_returns (runs : c.sender.Runs accepted ended isn) (segment : Segment) :
    ∃ legal, c.acceptsAck segment = .ok legal := by
  unfold acceptsAck
  split
  · exact ackIsLegal_returns runs segment.ackno
  · exact ⟨_, rfl⟩

theorem answersOurs_returns (runs : c.sender.Runs accepted ended isn) (segment : Segment) :
    ∃ answers, c.answersOurs segment = .ok answers := by
  unfold answersOurs
  split
  · exact ackIsLegal_returns runs segment.ackno
  · exact ⟨_, rfl⟩

theorem receiveSynchronized_returns (ready : c.receiver.Ready segment.payload.length)
    (runs : c.sender.Runs accepted ended isn) {number : SeqNum} (known : c.receiver.isn = some number) :
    ∃ asked after, ReceivesSynchronized c segment asked after := by
  have stamps := ready.stamps
  obtain ⟨inside, place⟩ := Receiver.inWindow_returns segment known stamps.fits ready.near
  obtain ⟨probe, probes⟩ := isProbe_returns segment known stamps.short
  cases rst : segment.rst with
  | true =>
    by_cases counts : inside = true ∨ probe = true
    · exact ⟨_, _, .ends rst place probes counts⟩
    · simp only [not_or, Bool.not_eq_true] at counts
      obtain ⟨rfl, rfl⟩ := counts
      exact ⟨_, c, .ignores rst place probes⟩
  | false =>
    obtain ⟨legal, accepts⟩ := acceptsAck_returns runs segment
    by_cases reason : legal = false ∨ probe = true
    · obtain ⟨after, flushes⟩ := flush_returns (c := { c with sender := c.sender.sendEmpty }) stamps
      exact ⟨_, after, .answers rst place probes accepts reason flushes⟩
    · simp only [not_or, Bool.not_eq_false, Bool.not_eq_true] at reason
      obtain ⟨rfl, rfl⟩ := reason
      obtain ⟨_, sender, hears, runs'⟩ := hear_returns runs segment
      obtain ⟨receiver, _, receives⟩ := ready.segmentReceived_returns
      have stamps' := ready.takes (Receiver.segmentReceived_takes receives)
      obtain ⟨_, after, responds⟩ := respond_returns (c := checked { c with receiver, sender }) stamps' runs' segment
      exact ⟨_, after, .takes rst place probes accepts hears receives responds⟩

theorem receiveSynSent_returns (ready : c.receiver.Ready segment.payload.length)
    (runs : c.sender.Runs accepted ended isn) : ∃ asked after, ReceivesSynSent c segment asked after := by
  cases rst : segment.rst with
  | true =>
    obtain ⟨answers, legal⟩ := answersOurs_returns runs segment
    cases answers with
    | true => exact ⟨_, _, .ends rst legal⟩
    | false => exact ⟨_, c, .ignoresRst rst legal⟩
  | false =>
    obtain ⟨legal, accepts⟩ := acceptsAck_returns runs segment
    cases syn : segment.syn with
    | false => exact ⟨_, c, .ignores rst (Or.inl syn)⟩
    | true =>
      cases legal with
      | false => exact ⟨_, c, .ignores rst (Or.inr accepts)⟩
      | true =>
        obtain ⟨_, sender, hears, -⟩ := hear_returns runs segment
        obtain ⟨receiver, _, receives⟩ := ready.segmentReceived_returns
        have stamps := ready.takes (Receiver.segmentReceived_takes receives)
        obtain ⟨_, after, acknowledges⟩ := acknowledge_returns (c := checked { c with receiver, sender }) stamps
        exact ⟨_, after, .takes rst syn accepts receives hears acknowledges⟩

theorem receiveListening_returns (ready : c.receiver.Ready segment.payload.length)
    (runs : c.sender.Runs accepted ended isn) : ∃ asked after, ReceivesListening c segment asked after := by
  by_cases other : segment.rst = true ∨ segment.ack = true ∨ segment.syn = false
  · exact ⟨_, c, .ignores other⟩
  · simp only [not_or, Bool.not_eq_true, Bool.not_eq_false] at other
    obtain ⟨receiver, _, receives⟩ := ready.segmentReceived_returns
    have stamps := ready.takes (Receiver.segmentReceived_takes receives)
    obtain ⟨_, after, connects⟩ := connect_returns (c := checked { c with receiver }) stamps runs
    exact ⟨_, after, .takes other.1 other.2.1 other.2.2 receives connects⟩

theorem segment_returns (ready : c.receiver.Ready segment.payload.length)
    (runs : c.sender.Runs accepted ended isn) : ∃ after, (c.segmentReceived segment).result = .ok after := by
  have receives : ∃ asked after, Receives c segment asked after := by
    cases active : c.active with
    | false => exact ⟨_, c, .sleeps active⟩
    | true =>
      cases known : c.receiver.isn with
      | some number =>
        obtain ⟨_, after, receives⟩ := receiveSynchronized_returns (c := { c with idle := 0 }) ready runs known
        exact ⟨_, after, .synchronized active (known ▸ Option.some_ne_none number) receives⟩
      | none =>
        cases opened : c.opened with
        | true =>
          obtain ⟨_, after, receives⟩ := receiveSynSent_returns (c := { c with idle := 0 }) ready runs
          exact ⟨_, after, .synSent active known opened receives⟩
        | false =>
          obtain ⟨_, after, receives⟩ := receiveListening_returns (c := { c with idle := 0 }) ready runs
          exact ⟨_, after, .listening active known opened receives⟩
  obtain ⟨asked, after, receives⟩ := receives
  exact ⟨after, segmentReceived_eq_ok_iff.mpr ⟨asked, receives⟩⟩

theorem segmentReceived_returns (keeps : c.receiver.Keeps p)
    (launched : Launched p c.receiver segment) (short : p.sent.length + 2 < SeqNum.half)
    (runs : c.sender.Runs accepted ended isn) :
    ∃ after, (c.segmentReceived segment).result = .ok after :=
  segment_returns (keeps.ready short (Receiver.length_le_of_launched launched)) runs

theorem Speaks.written_eq {incoming : Option Segment} {after : Connection}
    (speaks : Speaks accepted ended isn c) (parts : Parts incoming c after) :
    after.outbound.written = c.outbound.written := by
  have kept := parts.induction (P := fun x =>
    Speaks accepted ended isn x ∧ x.outbound.written = c.outbound.written) ⟨speaks, rfl⟩ ?_
  · exact kept.2
  · rintro x y part ⟨speaks, same⟩
    refine ⟨speaks.part part, ?_⟩
    cases part with
    | sends step => exact (step.written_eq speaks.serves.sound).trans same
    | takes | flushes | replaces | kills | ages | checks | expires => exact same

end Connection
end TcpStack

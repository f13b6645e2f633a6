import TcpStack.Proofs.Sender.Ledger
import TcpStack.Proofs.SeqNum.Nearest

/-! A sender always comes to a result. As long as its stream ends two cycles before the last counter there is
a place for every number that it works out, and it never takes away more than there is. -/

namespace TcpStack.Sender

open Outcome

structure Runs (accepted : Bytes) (ended : Bool) (isn : SeqNum) (s : Sender) : Prop where
  serves : Serves accepted ended isn s
  ledger : Ledger s
  written : s.stream.written ≤ accepted.length
  short : accepted.length + 2 + 2 * SeqNum.cycle ≤ Count.bound

variable {accepted : Bytes} {ended : Bool} {isn : SeqNum} {s after : Sender}
  {offer : Option (SeqNum × UInt16)}

theorem Step.written_eq (step : Step offer s after) (sound : s.stream.Sound) :
    after.stream.written = s.stream.written := by
  cases step with
  | opens | hears | ages | resends | replies => rfl
  | cuts _ _ _ hcut => exact (cut_spec sound hcut).2.1.written_eq
  | acks _ _ _ _ hadvance =>
    obtain ⟨_, _, _, _, _, rfl⟩ := advance_eq_ok hadvance
    rfl

theorem Runs.step (runs : Runs accepted ended isn s) (step : Step offer s after) :
    Runs accepted ended isn after :=
  ⟨runs.serves.step step, runs.ledger.step step,
    step.written_eq runs.serves.sound ▸ runs.written, runs.short⟩

theorem Runs.steps (runs : Runs accepted ended isn s) (steps : Steps offer s after) :
    Runs accepted ended isn after := by
  induction steps with
  | refl => exact runs
  | tail _ last ih => exact ih.step last

theorem Runs.near (runs : Runs accepted ended isn s) :
    s.nextSeqno + 2 * SeqNum.cycle ≤ Count.bound :=
  Nat.le_trans (Nat.add_le_add_right runs.serves.nextSeqno_le _) runs.short

theorem Runs.unwrap_returns (runs : Runs accepted ended isn s) (ackno : SeqNum) :
    ∃ ack, ackno.unwrap s.isn s.highestAck = .ok ack := by
  have near := runs.near
  have highestAck_le := runs.ledger.highestAck_le
  exact SeqNum.unwrap_returns ackno s.isn (by omega)

theorem cut_returns {stream : ByteStream} {budget : Nat} (sound : stream.Sound)
    (short : stream.written < Count.bound) (some : 0 < budget) :
    ∃ after payload fin, cut stream budget = .ok (after, payload, fin) := by
  have less : Count.sub budget 1 = .ok (budget - 1) := Count.sub_eq_ok_iff.mpr ⟨rfl, some⟩
  obtain ⟨middle, head, hhead⟩ := ByteStream.read_returns (budget - 1) sound short
  have drops := (ByteStream.read_drops sound hhead).2
  obtain ⟨after, tail, htail⟩ := ByteStream.read_returns 1 drops.sound (drops.written_eq ▸ short)
  unfold cut
  simp only [less, hhead, htail, ok_bind]
  exact ⟨_, _, _, rfl⟩

theorem send_returns {segment : Segment} (next : s.nextSeqno + segment.sequenceLength < Count.bound)
    (inFlight_le : s.inFlight ≤ s.nextSeqno) : (s.send segment).result = .ok (s.afterSend segment) := by
  have next : Count.add s.nextSeqno segment.sequenceLength =
      .ok (s.nextSeqno + segment.sequenceLength) := Count.add_eq_ok_iff.mpr ⟨rfl, next⟩
  have inFlight : Count.add s.inFlight segment.sequenceLength =
      .ok (s.inFlight + segment.sequenceLength) := Count.add_eq_ok_iff.mpr ⟨rfl, by omega⟩
  have length_eq : Segment.sequenceLength { segment with seqno := s.nextWire } =
      segment.sequenceLength := rfl
  unfold send
  simp only [Run.result_bind, Run.result_lift, length_eq, next, inFlight, ok_bind]
  rfl

def reach (s : Sender) : Nat := s.nextSeqno + s.stream.size + (!s.finSent).toNat

structure Sendable (s : Sender) : Prop where
  sound : s.stream.Sound
  written_lt : s.stream.written < Count.bound
  highestAck_le : s.highestAck ≤ s.nextSeqno
  inFlight_le : s.inFlight ≤ s.nextSeqno
  reach_lt : s.reach < Count.bound

theorem reach_cuts {stream : ByteStream} {payload : Bytes} {fin : Bool} {budget : Nat}
    (sound : s.stream.Sound) (going : s.finSent = false)
    (hcut : cut s.stream budget = .ok (stream, payload, fin)) :
    s.nextSeqno + Segment.sequenceLength { payload, fin } ≤ s.reach ∧
      (afterSend { s with stream, finSent := fin } { payload, fin }).reach = s.reach := by
  obtain ⟨rfl, drops, -⟩ := cut_spec sound hcut
  have size_eq := drops.size_eq
  have flag : fin.toNat + (!fin).toNat = 1 := by cases fin <;> rfl
  simp only [reach, afterSend, Segment.sequenceLength, going, List.length_take,
    ByteStream.length_toList, Bool.not_false, Bool.toNat_false, Bool.toNat_true]
  omega

theorem Sendable.launch {segment : Segment} (sendable : Sendable s) (opened : 0 < s.nextSeqno)
    (launch : Launch s segment after) : Sendable after := by
  have highestAck_le := sendable.highestAck_le
  have inFlight_le := sendable.inFlight_le
  cases launch with
  | opens unopened => omega
  | cuts _ going _ hcut =>
    have drops := (cut_spec sendable.sound hcut).2.1
    refine ⟨drops.sound, drops.written_eq ▸ sendable.written_lt, Nat.le_add_right_of_le highestAck_le,
      Nat.add_le_add_right inFlight_le _, ?_⟩
    rw [(reach_cuts sendable.sound going hcut).2]
    exact sendable.reach_lt

theorem sendNext_returns (sendable : Sendable s) :
    ∃ next, (s.sendNext s.probingWindow).result = .ok next := by
  unfold sendNext
  by_cases ended : s.finSent = true
  · rw [if_pos ended]
    exact ⟨none, rfl⟩
  have span : Count.sub s.nextSeqno s.highestAck = .ok (s.nextSeqno - s.highestAck) :=
    Count.sub_eq_ok_iff.mpr ⟨rfl, sendable.highestAck_le⟩
  simp only [if_neg ended, Run.result_bind, Run.result_lift, span, ok_bind]
  by_cases full : s.probingWindow ≤ s.nextSeqno - s.highestAck
  · rw [if_pos full]
    exact ⟨none, rfl⟩
  have room : Count.sub s.probingWindow (s.nextSeqno - s.highestAck) =
      .ok (s.probingWindow - (s.nextSeqno - s.highestAck)) :=
    Count.sub_eq_ok_iff.mpr ⟨rfl, by omega⟩
  have some : 0 < s.budget := by
    unfold budget maxPayload
    omega
  obtain ⟨stream, payload, fin, hcut⟩ := cut_returns sendable.sound sendable.written_lt some
  change cut s.stream (min _ maxPayload) = _ at hcut
  simp only [if_neg full, Run.result_bind, Run.result_lift, room, hcut, ok_bind]
  by_cases nothing : (payload.isEmpty && !fin) = true
  · rw [if_pos nothing]
    exact ⟨none, rfl⟩
  have le_reach := (reach_cuts sendable.sound (Bool.eq_false_iff.mpr ended) hcut).1
  have sent : (send { s with stream, finSent := fin } { payload, fin }).result = .ok _ :=
    send_returns (Nat.lt_of_le_of_lt le_reach sendable.reach_lt) sendable.inFlight_le
  rw [if_neg nothing, Run.result_bind, sent, ok_bind]
  exact ⟨_, rfl⟩

theorem sendWithin_returns (sendable : Sendable s) (opened : 0 < s.nextSeqno) (tries : Nat) :
    ∃ after, (sendWithin s.probingWindow tries s).result = .ok after := by
  induction tries generalizing s with
  | zero => exact ⟨s, rfl⟩
  | succ tries ih =>
    obtain ⟨next, hnext⟩ := sendNext_returns sendable
    rw [sendWithin_succ, Run.result_bind, hnext, ok_bind]
    cases sendNext_round opened hnext with
    | ended | full | waits => exact ⟨s, rfl⟩
    | launches launch =>
      rw [← launch.probingWindow_eq]
      exact ih (sendable.launch opened launch) launch.opened

theorem Runs.sendable (runs : Runs accepted ended isn s) : Sendable s := by
  have cursor_le := runs.serves.cursor_le
  have written := runs.written
  have short := runs.short
  have cycle_eq := SeqNum.cycle_eq
  have size_eq : s.stream.size = accepted.length - s.cursor := by
    rw [← ByteStream.length_toList, runs.serves.waiting, List.length_drop]
  have flag : s.finSent.toNat + (!s.finSent).toNat = 1 := by cases s.finSent <;> rfl
  refine ⟨runs.serves.sound, by omega, runs.ledger.highestAck_le, runs.ledger.inFlight_le, ?_⟩
  unfold reach
  unfold cursor at *
  omega

theorem Runs.fillWindow_returns (runs : Runs accepted ended isn s) :
    ∃ after, s.fillWindow.result = .ok after := by
  unfold fillWindow
  by_cases unopened : s.nextSeqno = 0
  · have one : s.nextSeqno + Segment.sequenceLength { syn := true } < Count.bound := by
      rw [unopened]
      decide
    rw [if_pos unopened]
    exact ⟨_, send_returns one runs.ledger.inFlight_le⟩
  · rw [if_neg unopened]
    exact sendWithin_returns runs.sendable (Nat.pos_of_ne_zero unopened) _

theorem Contiguous.start_le {start stop : Nat} {outstanding : List Outstanding}
    (contiguous : Contiguous start outstanding stop) : start ≤ stop := by
  induction outstanding generalizing start with
  | nil => exact Nat.le_of_eq contiguous
  | cons oldest rest ih =>
    obtain ⟨place, -, others⟩ := contiguous
    have behind := ih others
    omega

theorem Contiguous.release_returns {start stop inFlight : Nat} {outstanding : List Outstanding}
    (contiguous : Contiguous start outstanding stop) (counted : stop = start + inFlight) (ack : Nat) :
    ∃ left rest, Sender.release ack inFlight outstanding = .ok (left, rest) := by
  induction outstanding generalizing start inFlight with
  | nil => exact ⟨inFlight, [], rfl⟩
  | cons oldest rest ih =>
    obtain ⟨place, -, others⟩ := contiguous
    have behind := others.start_le
    unfold Sender.release
    by_cases released : oldest.endSeqno ≤ ack
    · have less : Count.sub inFlight oldest.segment.sequenceLength =
          .ok (inFlight - oldest.segment.sequenceLength) := Count.sub_eq_ok_iff.mpr ⟨rfl, by omega⟩
      rw [if_pos released, less, ok_bind]
      exact ih others (by omega)
    · rw [if_neg released]
      exact ⟨_, _, rfl⟩

theorem Runs.advance_returns (runs : Runs accepted ended isn s) (ack : Nat) :
    ∃ after, s.advance ack = .ok after := by
  have inFlight_le := runs.ledger.inFlight_le
  have counted : s.nextSeqno = s.nextSeqno - s.inFlight + s.inFlight := by omega
  obtain ⟨left, rest, hrelease⟩ := runs.ledger.contiguous.release_returns counted ack
  unfold advance
  rw [hrelease, ok_bind]
  simp only
  split <;> exact ⟨_, rfl⟩

theorem Runs.ackReceived_returns (runs : Runs accepted ended isn s) (ackno : SeqNum)
    (window : UInt16) : ∃ after legal, (s.ackReceived ackno window).result = .ok (after, legal) := by
  obtain ⟨ack, hunwrap⟩ := runs.unwrap_returns ackno
  unfold ackReceived
  simp only [Run.result_bind, Run.result_lift, hunwrap, ok_bind]
  by_cases unsent : s.nextSeqno < ack
  · rw [if_pos unsent]
    exact ⟨_, _, rfl⟩
  by_cases stale : ack < s.highestAck
  · rw [if_neg unsent, if_pos stale]
    exact ⟨_, _, rfl⟩
  rw [if_neg unsent, if_neg stale]
  have heard : Runs accepted ended isn { s with window } :=
    runs.step (.hears rfl hunwrap (Nat.le_of_not_lt stale))
  by_cases ahead : s.highestAck < ack
  · obtain ⟨moved, hadvance⟩ := heard.advance_returns ack
    have acked := heard.step (.acks rfl hunwrap ahead (Nat.le_of_not_lt unsent) hadvance)
    obtain ⟨filled, hfill⟩ := acked.fillWindow_returns
    simp only [if_pos ahead, Run.result_bind, Run.result_lift, hadvance, hfill, ok_bind]
    exact ⟨_, _, rfl⟩
  · obtain ⟨filled, hfill⟩ := heard.fillWindow_returns
    simp only [if_neg ahead, Run.result_bind, Run.result_pure, hfill, ok_bind]
    exact ⟨_, _, rfl⟩

end TcpStack.Sender

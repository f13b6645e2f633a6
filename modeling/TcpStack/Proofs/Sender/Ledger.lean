import TcpStack.Proofs.Sender.Cursor

/-! What a sender keeps about the numbers in flight: the segments in flight stand one behind the other
up to the next number, and what was released in front of them is acknowledged. A sender that counts its
end as acknowledged was told so for every byte. -/

namespace TcpStack.Sender

open Outcome

/-- The segments take the numbers from `start` on, without a gap, and the next one is `stop`. -/
def Contiguous (start : Nat) : (outstanding : List Outstanding) → (stop : Nat) → Prop
  | [], stop => start = stop
  | oldest :: rest, stop =>
    oldest.endSeqno = start + oldest.segment.sequenceLength ∧ 0 < oldest.segment.sequenceLength ∧
      Contiguous oldest.endSeqno rest stop

theorem contiguous_append {start stop : Nat} {outstanding : List Outstanding} {item : Outstanding}
    (contiguous : Contiguous start outstanding stop)
    (place : item.endSeqno = stop + item.segment.sequenceLength)
    (some : 0 < item.segment.sequenceLength) :
    Contiguous start (outstanding ++ [item]) item.endSeqno := by
  induction outstanding generalizing start with
  | nil =>
    cases contiguous
    exact ⟨place, some, rfl⟩
  | cons oldest rest ih => exact ⟨contiguous.1, contiguous.2.1, ih contiguous.2.2⟩

theorem Contiguous.release {start stop ack inFlight left : Nat}
    {outstanding rest : List Outstanding} (contiguous : Contiguous start outstanding stop)
    (covered : start ≤ ack) (counted : stop = start + inFlight)
    (h : release ack inFlight outstanding = .ok (left, rest)) :
    ∃ start', Contiguous start' rest stop ∧ start' ≤ ack ∧ stop = start' + left := by
  -- The start moves along with the segments that go.
  induction outstanding generalizing start inFlight with
  | nil =>
    cases h
    exact ⟨start, contiguous, covered, counted⟩
  | cons oldest others ih =>
    unfold Sender.release at h
    by_cases released : oldest.endSeqno ≤ ack
    · rw [if_pos released, bind_eq_ok] at h
      simp only [Count.sub_eq_ok_iff] at h
      obtain ⟨count, ⟨rfl, enough⟩, h⟩ := h
      have place := contiguous.1
      exact ih contiguous.2.2 released (by omega) h
    · rw [if_neg released] at h
      cases h
      exact ⟨start, contiguous, covered, counted⟩

structure Ledger (s : Sender) : Prop where
  contiguous : Contiguous (s.nextSeqno - s.inFlight) s.outstanding s.nextSeqno
  inFlight_le : s.inFlight ≤ s.nextSeqno
  released_le : s.nextSeqno - s.inFlight ≤ s.highestAck
  highestAck_le : s.highestAck ≤ s.nextSeqno
  plain : ∀ segment ∈ s.queued, segment.ack = false
  plainInFlight : ∀ item ∈ s.outstanding, item.segment.ack = false

theorem ledger_initial (capacity timeout : Nat) (isn : SeqNum) :
    Ledger (initial capacity timeout isn) := by
  refine ⟨rfl, Nat.le_refl _, Nat.le_refl _, Nat.le_refl _, ?_, ?_⟩
  · intro segment member
    cases member
  · intro item member
    cases member

variable {s after : Sender}

theorem Ledger.afterSend (ledger : Ledger s) {segment : Segment}
    (some : 0 < segment.sequenceLength) (plain : segment.ack = false) :
    Ledger (s.afterSend segment) := by
  have inFlight_le := ledger.inFlight_le
  have released_le := ledger.released_le
  have highestAck_le := ledger.highestAck_le
  have start_eq : s.nextSeqno + segment.sequenceLength - (s.inFlight + segment.sequenceLength) =
      s.nextSeqno - s.inFlight := by omega
  refine ⟨?_, ?_, ?_, ?_, ?_, ?_⟩
  · change Contiguous (s.nextSeqno + segment.sequenceLength -
      (s.inFlight + segment.sequenceLength)) _ _
    rw [start_eq]
    exact contiguous_append ledger.contiguous rfl some
  · exact Nat.add_le_add_right inFlight_le _
  · exact start_eq ▸ released_le
  · exact Nat.le_add_right_of_le highestAck_le
  · exact forall_mem_concat ledger.plain plain
  · exact forall_mem_concat ledger.plainInFlight plain

theorem Ledger.of_same (ledger : Ledger s) (next_eq : after.nextSeqno = s.nextSeqno)
    (inFlight_eq : after.inFlight = s.inFlight) (ack_eq : after.highestAck = s.highestAck)
    (outstanding_eq : after.outstanding = s.outstanding)
    (plain : ∀ segment ∈ after.queued, segment.ack = false) : Ledger after := by
  refine ⟨?_, ?_, ?_, ?_, plain, ?_⟩
  · rw [next_eq, inFlight_eq, outstanding_eq]
    exact ledger.contiguous
  · rw [next_eq, inFlight_eq]
    exact ledger.inFlight_le
  · rw [next_eq, inFlight_eq, ack_eq]
    exact ledger.released_le
  · rw [next_eq, ack_eq]
    exact ledger.highestAck_le
  · rw [outstanding_eq]
    exact ledger.plainInFlight

theorem Ledger.advance (ledger : Ledger s) {ack : Nat} (ahead : s.highestAck < ack)
    (sent : ack ≤ s.nextSeqno) (h : s.advance ack = .ok after) : Ledger after := by
  have inFlight_le := ledger.inFlight_le
  have released_le := ledger.released_le
  obtain ⟨inFlight, outstanding, _, _, hrelease, rfl⟩ := advance_eq_ok h
  obtain ⟨start, contiguous, covered, counted⟩ :=
    ledger.contiguous.release (by omega) (by omega) hrelease
  have start_eq : s.nextSeqno - inFlight = start := by omega
  refine ⟨?_, ?_, ?_, sent, ledger.plain, fun item member =>
    ledger.plainInFlight item (mem_of_release hrelease member)⟩
  · exact start_eq ▸ contiguous
  · simp only
    omega
  · exact start_eq ▸ covered

theorem Ledger.step {offer : Option (SeqNum × UInt16)} (ledger : Ledger s) (step : Step offer s after) :
    Ledger after := by
  cases step with
  | opens => exact ledger.afterSend (by decide) rfl
  | @cuts stream payload fin _ _ _ _ some =>
    have same : Ledger { s with stream, finSent := fin } :=
      ledger.of_same rfl rfl rfl rfl ledger.plain
    exact same.afterSend (sequenceLength_pos some) rfl
  | hears | ages => exact ledger.of_same rfl rfl rfl rfl ledger.plain
  | acks _ _ ahead sent hadvance => exact ledger.advance ahead sent hadvance
  | @resends oldest rest attempt _ _ inFlight =>
    have contiguous := ledger.contiguous
    rw [inFlight] at contiguous
    have plain := ledger.plainInFlight oldest (by simp [inFlight])
    refine ⟨contiguous, ledger.inFlight_le, ledger.released_le, ledger.highestAck_le, ?_, ?_⟩
    · exact forall_mem_concat ledger.plain plain
    · intro item member
      rcases List.mem_cons.mp member with rfl | old
      · exact plain
      · exact ledger.plainInFlight item (by simp [inFlight, old])
  | replies =>
    exact ledger.of_same rfl rfl rfl rfl (forall_mem_concat ledger.plain rfl)

theorem Ledger.finAcked {accepted : Bytes} {ended : Bool} {isn : SeqNum} (ledger : Ledger s)
    (serves : Serves accepted ended isn s) (state : s.state = .finAcked) :
    s.highestAck = accepted.length + 2 ∧ ended = true := by
  unfold Sender.state at state
  split at state
  · cases state
  split at state
  · cases state
  rename_i opened
  split at state
  · cases state
  split at state
  · cases state
  rename_i sent
  split at state
  · cases state
  rename_i none
  have fin : s.finSent = true := by simpa using sent
  -- Nothing is in flight, so the released numbers reach up to the next one, which is behind the FIN.
  obtain ⟨-, hended, here⟩ := serves.finished fin
  have next_eq := serves.nextSeqno_eq (Nat.pos_of_ne_zero opened)
  have released_le := ledger.released_le
  have highestAck_le := ledger.highestAck_le
  rw [fin, Bool.toNat_true] at next_eq
  exact ⟨by omega, hended⟩

end TcpStack.Sender

import TcpStack.Proofs.Segment.Faithful
import TcpStack.Proofs.Sender.Step

/-! A sender sends nothing but the stream that it is given. Its next number fixes a cursor in that
stream: what stands before the cursor was cut into segments, what stands behind it still waits. -/

namespace TcpStack.Sender

open Outcome

theorem cut_spec {stream after : ByteStream} {budget : Nat} {payload : Bytes} {fin : Bool}
    (sound : stream.Sound) (h : cut stream budget = .ok (after, payload, fin)) :
    payload = stream.toList.take budget ∧ stream.Drops budget after ∧
      (fin = true → stream.ended = true ∧ stream.size < budget) := by
  unfold cut at h
  simp only [bind_eq_ok, pure_eq_ok, Count.sub_eq_ok_iff] at h
  obtain ⟨first, ⟨rfl, positive⟩, ⟨middle, head⟩, hhead, ⟨last, tail⟩, htail, h⟩ := h
  obtain ⟨rfl, before⟩ := ByteStream.read_drops sound hhead
  obtain ⟨rfl, later⟩ := ByteStream.read_drops before.sound htail
  cases h
  have whole := before.trans later
  rw [Nat.sub_add_cancel positive] at whole
  refine ⟨?_, whole, fun fin => ?_⟩
  · rw [before.toList_eq, ← List.take_add, Nat.sub_add_cancel positive]
  · have marks := Bool.and_eq_true_iff.mp fin
    have none := List.isEmpty_iff.mp marks.1
    have ended := (Bool.and_eq_true_iff.mp marks.2).1
    rw [before.toList_eq, List.take_eq_nil_iff, List.drop_eq_nil_iff,
      ByteStream.length_toList] at none
    exact ⟨by rw [← ended, whole.ended_eq], by omega⟩

theorem Step.stream_sound {offer : Option (SeqNum × UInt16)} {s after : Sender} (step : Step offer s after)
    (sound : s.stream.Sound) : after.stream.Sound ∧ after.stream.failed = s.stream.failed := by
  cases step with
  | opens | hears | ages | resends | replies => exact ⟨sound, rfl⟩
  | cuts _ _ _ hcut =>
    have drops := (cut_spec sound hcut).2.1
    exact ⟨drops.sound, drops.failed_eq⟩
  | acks _ _ _ _ hadvance =>
    obtain ⟨_, _, _, _, _, rfl⟩ := advance_eq_ok hadvance
    exact ⟨sound, rfl⟩

def cursor (s : Sender) : Nat := s.nextSeqno - (1 + s.finSent.toNat)

structure Serves (accepted : Bytes) (ended : Bool) (isn : SeqNum) (s : Sender) : Prop where
  isn_eq : s.isn = isn
  ended_eq : s.stream.ended = ended
  sound : s.stream.Sound
  waiting : s.stream.toList = accepted.drop s.cursor
  cursor_le : s.cursor ≤ accepted.length
  finished : s.finSent = true → 2 ≤ s.nextSeqno ∧ ended = true ∧ s.cursor = accepted.length
  queued : ∀ segment ∈ s.queued, segment.Faithful accepted ended isn
  inFlight : ∀ item ∈ s.outstanding, item.segment.Faithful accepted ended isn

theorem serves_initial {capacity timeout : Nat} (isn : SeqNum) (fits : capacity < Cells.limit) :
    Serves [] false isn (initial capacity timeout isn) := by
  refine ⟨rfl, rfl, ByteStream.sound_ofCapacity fits, ?_, Nat.le_refl _, ?_, ?_, ?_⟩
  · exact ByteStream.toList_ofCapacity capacity
  · intro h
    cases h
  · intro segment member
    cases member
  · intro item member
    cases member

variable {accepted : Bytes} {ended : Bool} {isn : SeqNum} {s after : Sender}

theorem Serves.nextSeqno_le (serves : Serves accepted ended isn s) :
    s.nextSeqno ≤ accepted.length + 2 := by
  have cursor_le := serves.cursor_le
  have flag := s.finSent.toNat_le
  unfold cursor at cursor_le
  omega

theorem Serves.nextSeqno_eq (serves : Serves accepted ended isn s) (opened : 0 < s.nextSeqno) :
    s.nextSeqno = s.cursor + 1 + s.finSent.toNat := by
  unfold cursor
  cases hfin : s.finSent with
  | false => simp; omega
  | true =>
    have two := (serves.finished hfin).1
    simp
    omega

theorem Serves.of_same (serves : Serves accepted ended isn s) (isn_eq : after.isn = s.isn)
    (stream_eq : after.stream = s.stream) (next_eq : after.nextSeqno = s.nextSeqno)
    (fin_eq : after.finSent = s.finSent)
    (queued : ∀ segment ∈ after.queued, segment.Faithful accepted ended isn)
    (inFlight : ∀ item ∈ after.outstanding, item.segment.Faithful accepted ended isn) :
    Serves accepted ended isn after := by
  have cursor_eq : after.cursor = s.cursor := by rw [cursor, cursor, next_eq, fin_eq]
  refine ⟨isn_eq.trans serves.isn_eq, ?_, ?_, ?_, ?_, ?_, queued, inFlight⟩
  · rw [stream_eq, serves.ended_eq]
  · rw [stream_eq]
    exact serves.sound
  · rw [stream_eq, cursor_eq, serves.waiting]
  · rw [cursor_eq]
    exact serves.cursor_le
  · rw [fin_eq, next_eq, cursor_eq]
    exact serves.finished

theorem Serves.nextWire_bare (serves : Serves accepted ended isn s) {segment : Segment}
    (syn : segment.syn = false) (seqno : segment.seqno = s.nextWire)
    (payload : segment.payload = []) (fin : segment.fin = false) :
    segment.Faithful accepted ended isn :=
  .bare s.nextSeqno serves.nextSeqno_le syn (by rw [seqno, nextWire, serves.isn_eq]) payload fin

theorem Serves.opens (serves : Serves accepted ended isn s) (unopened : s.nextSeqno = 0) :
    Serves accepted ended isn (s.afterSend { syn := true }) := by
  have going : s.finSent = false := by
    cases hfin : s.finSent with
    | false => rfl
    | true => have two := (serves.finished hfin).1; omega
  have truth : Segment.Faithful accepted ended isn { syn := true, seqno := s.nextWire } := by
    refine .opening rfl ?_ rfl rfl
    simp only
    rw [nextWire, unopened, SeqNum.wrap_zero, serves.isn_eq]
  have cursor_eq : (s.afterSend { syn := true }).cursor = s.cursor := by
    simp [cursor, afterSend, going, unopened, Segment.sequenceLength]
  refine ⟨serves.isn_eq, serves.ended_eq, serves.sound, ?_, ?_, ?_, ?_, ?_⟩
  · rw [cursor_eq]
    exact serves.waiting
  · rw [cursor_eq]
    exact serves.cursor_le
  · intro h
    rw [show (s.afterSend { syn := true }).finSent = false from going] at h
    cases h
  · exact forall_mem_concat serves.queued truth
  · exact forall_mem_concat serves.inFlight truth

theorem cursor_afterSend (opened : 0 < s.nextSeqno) (going : s.finSent = false) (stream : ByteStream)
    (payload : Bytes) (fin : Bool) :
    (afterSend { s with stream, finSent := fin } { payload, fin }).cursor =
      s.cursor + payload.length := by
  simp only [cursor, afterSend, Segment.sequenceLength, going, Bool.toNat_false]
  omega

theorem Serves.cuts (serves : Serves accepted ended isn s) {stream : ByteStream} {payload : Bytes}
    {fin : Bool} {budget : Nat} (opened : 0 < s.nextSeqno) (going : s.finSent = false)
    (hcut : cut s.stream budget = .ok (stream, payload, fin)) :
    Serves accepted ended isn (afterSend { s with stream, finSent := fin } { payload, fin }) := by
  obtain ⟨hpayload, drops, hfin⟩ := cut_spec serves.sound hcut
  have next_eq : s.nextSeqno = s.cursor + 1 := by simpa [going] using serves.nextSeqno_eq opened
  have length_payload : payload.length = min budget (accepted.length - s.cursor) := by
    rw [hpayload, List.length_take, serves.waiting, List.length_drop]
  have size_eq : s.stream.size = accepted.length - s.cursor := by
    rw [← ByteStream.length_toList, serves.waiting, List.length_drop]
  have cursor_le := serves.cursor_le
  have cursor_eq := cursor_afterSend opened going stream payload fin
  have last : fin = true → ended = true ∧ s.cursor + payload.length = accepted.length := by
    intro h
    obtain ⟨hended, short⟩ := hfin h
    exact ⟨serves.ended_eq ▸ hended, by omega⟩
  have truth : Segment.Faithful accepted ended isn { payload, fin, seqno := s.nextWire } := by
    refine .carries s.cursor cursor_le rfl ?_ ?_ last
    · simp only
      rw [nextWire, serves.isn_eq, next_eq]
    · simp only
      rw [hpayload, serves.waiting]
      exact Bytes.hasAt_drop_take accepted s.cursor budget
  refine ⟨serves.isn_eq, drops.ended_eq.trans serves.ended_eq, drops.sound, ?_, ?_, ?_, ?_, ?_⟩
  · rw [cursor_eq]
    refine drops.toList_eq.trans ?_
    rw [serves.waiting, List.drop_drop, length_payload]
    -- A budget beyond the end drops more than the payload is long, but there is nothing more to drop.
    by_cases short : budget ≤ accepted.length - s.cursor
    · rw [Nat.min_eq_left short]
    · rw [List.drop_of_length_le (by omega), List.drop_of_length_le (by omega)]
  · rw [cursor_eq, length_payload]
    omega
  · intro h
    refine ⟨?_, (last h).1, cursor_eq.trans (last h).2⟩
    have flag : fin.toNat = 1 := by rw [show fin = true from h]; rfl
    simp only [afterSend, Segment.sequenceLength, flag]
    omega
  · exact forall_mem_concat serves.queued truth
  · exact forall_mem_concat serves.inFlight truth

theorem Serves.step {offer : Option (SeqNum × UInt16)} (serves : Serves accepted ended isn s)
    (step : Step offer s after) : Serves accepted ended isn after := by
  cases step with
  | opens unopened => exact serves.opens unopened
  | cuts opened going _ hcut => exact serves.cuts opened going hcut
  | hears | ages => exact serves.of_same rfl rfl rfl rfl serves.queued serves.inFlight
  | acks _ _ _ _ hadvance =>
    obtain ⟨_, _, _, _, hrelease, rfl⟩ := advance_eq_ok hadvance
    exact serves.of_same rfl rfl rfl rfl serves.queued fun item member =>
      serves.inFlight item (mem_of_release hrelease member)
  | @resends oldest rest attempt _ _ inFlight =>
    -- The segment is as true now as when it was first sent, however the stream has grown since.
    have truth := serves.inFlight oldest (by simp [inFlight])
    refine serves.of_same rfl rfl rfl rfl ?_ ?_
    · exact forall_mem_concat serves.queued truth
    · intro item member
      rcases List.mem_cons.mp member with rfl | old
      · exact truth
      · exact serves.inFlight item (by simp [inFlight, old])
  | replies =>
    have truth : Segment.Faithful accepted ended isn { seqno := s.nextWire } :=
      serves.nextWire_bare rfl rfl rfl rfl
    exact serves.of_same rfl rfl rfl rfl (forall_mem_concat serves.queued truth) serves.inFlight

theorem Serves.eq_nil_of_ended (serves : Serves accepted ended isn s) {bytes : Bytes}
    {stream : ByteStream} {count : Nat} (h : s.stream.write bytes = .ok (stream, count))
    (hended : ended = true) : bytes.take count = [] := by
  have accepts := ByteStream.write_accepts serves.sound h
  rw [accepts.eq_zero_of_ended (serves.ended_eq.trans hended), List.take_zero]

theorem Serves.write (serves : Serves accepted ended isn s) {bytes : Bytes} {stream : ByteStream}
    {count : Nat} (h : s.stream.write bytes = .ok (stream, count)) :
    Serves (accepted ++ bytes.take count) ended isn { s with stream } := by
  have accepts := ByteStream.write_accepts serves.sound h
  have closed : ended = true → bytes.take count = [] := serves.eq_nil_of_ended h
  have cursor_le := serves.cursor_le
  refine ⟨serves.isn_eq, accepts.ended_eq.trans serves.ended_eq, accepts.sound, ?_, ?_, ?_, ?_, ?_⟩
  · refine accepts.toList_eq.trans ?_
    rw [serves.waiting]
    exact (List.drop_append_of_le_length cursor_le).symm
  · rw [List.length_append]
    exact Nat.le_add_right_of_le cursor_le
  · intro h
    obtain ⟨two, hended, here⟩ := serves.finished h
    refine ⟨two, hended, ?_⟩
    rw [closed hended, List.append_nil]
    exact here
  · exact fun segment member => (serves.queued segment member).grow closed
  · exact fun item member => (serves.inFlight item member).grow closed

theorem Serves.finish (serves : Serves accepted ended isn s) :
    Serves accepted true isn { s with stream := s.stream.finish } := by
  refine ⟨serves.isn_eq, rfl, serves.sound.finish, serves.waiting, serves.cursor_le, ?_, ?_, ?_⟩
  · intro h
    obtain ⟨two, -, here⟩ := serves.finished h
    exact ⟨two, rfl, here⟩
  · exact fun segment member => (serves.queued segment member).end_stream
  · exact fun item member => (serves.inFlight item member).end_stream

theorem Serves.fail (serves : Serves accepted ended isn s) :
    Serves accepted ended isn { s with stream := s.stream.fail } :=
  ⟨serves.isn_eq, serves.ended_eq, serves.sound.fail, serves.waiting, serves.cursor_le,
    serves.finished, serves.queued, serves.inFlight⟩

end TcpStack.Sender

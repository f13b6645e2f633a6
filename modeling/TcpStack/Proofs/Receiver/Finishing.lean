import TcpStack.Proofs.Connection.Returns
import TcpStack.Proofs.Reassembler.Marks
import TcpStack.Proofs.Receiver.Admission

/-! The FIN that a receiver expects next. The window is asked about the payload alone, so a FIN that comes
without any is taken at once, whatever the window, and one that comes behind bytes that have left already is
refused with them, also if only the FIN was missing. -/

namespace TcpStack.Receiver

open Outcome

variable {admits : Receiver → Segment → Prop} {r after : Receiver} {segment : Segment} {accepted : Bool}
  {index : Nat}

theorem Takes.outside (takes : Takes r segment after accepted) (known : r.isn ≠ none)
    (placed : r.place segment = some index) (apart : ¬r.Overlaps index segment.payload.length) :
    accepted = false ∧ after = r := by
  obtain ⟨isn, known'⟩ := Option.ne_none_iff_exists'.mp known
  obtain ⟨-, found⟩ := (place_eq_some known').mp placed
  cases takes with
  | refused => exact ⟨rfl, rfl⟩
  | late unknown | opens unknown => exact absurd unknown known
  | @goesOn reassembler isn' index' known'' _ place _ overlaps _ =>
    rw [known', Option.some.injEq] at known''
    subst known''
    rw [found, Except.ok.injEq, Nat.add_right_cancel_iff] at place
    subst place
    exact absurd ((overlapsWindow_eq_ok overlaps).mp rfl) apart

theorem ackno_of_place (going : r.reassembler.finished = false) (known : r.isn ≠ none)
    (placed : r.place segment = some index)
    (ends : index + segment.payload.length = r.reassembler.nextIndex) :
    r.ackno = some (segment.seqno + UInt32.ofNat segment.payload.length) := by
  obtain ⟨isn, known⟩ := Option.ne_none_iff_exists'.mp known
  have found := SeqNum.wrap_of_unwrap ((place_eq_some known).mp placed).2
  rw [ackno_of_known known, ← found, SeqNum.wrap_add, Option.some.injEq, ackPosition, going, ← ends]
  congr 1
  simp only [Bool.toNat_false]
  omega

/-- A FIN that has the number expected next is taken exactly if it comes without payload. Then the stream
ends and the acknowledgment moves by one; otherwise the segment changes nothing. -/
theorem expected_fin_taken_iff (fed : Fed admits r) (known : r.isn ≠ none)
    (going : r.reassembler.finished = false) (fin : segment.fin = true)
    (placed : r.place segment = some index)
    (ends : index + segment.payload.length = r.reassembler.nextIndex) :
    r.ackno = some (segment.seqno + UInt32.ofNat segment.payload.length) ∧
    (∀ after accepted, (r.segmentReceived segment).result = .ok (after, accepted) →
      if segment.payload = [] then
        accepted = true ∧ after.stream.ended = true ∧ after.ackPosition = r.ackPosition + 1 ∧
          after.ackno = r.ackno.map fun ackno => (ackno + (1 : UInt32) : SeqNum)
      else accepted = false ∧ after = r) ∧
    (r.reassembler.nextIndex + r.reassembler.capacity + segment.payload.length + 2 * SeqNum.cycle ≤
      Count.bound → ∃ after accepted, (r.segmentReceived segment).result = .ok (after, accepted)) := by
  have orderly := fed.orderly
  refine ⟨ackno_of_place going known placed ends, fun after accepted h => ?_,
    fun near => Ready.segmentReceived_returns ⟨orderly.rests, near⟩⟩
  have takes := segmentReceived_takes h
  by_cases bare : segment.payload = []
  · rw [bare, List.length_nil, Nat.add_zero] at ends
    subst ends
    have overlaps : r.Overlaps r.reassembler.nextIndex segment.payload.length := by
      unfold Overlaps
      rw [bare, if_pos List.length_nil]
      exact Or.inl rfl
    obtain ⟨taken, reassembler, push, rfl⟩ := takes.pushes known going placed overlaps
    rw [bare, fin] at push
    obtain ⟨ended, next_eq⟩ := Reassembler.push_end push
    have position_eq : ackPosition { r with reassembler } = r.ackPosition + 1 := by
      unfold ackPosition
      simp only [next_eq, Reassembler.finished, ended]
      unfold Reassembler.finished at going
      rw [going]
      rfl
    rw [if_pos bare]
    refine ⟨taken, ended, position_eq, ?_⟩
    unfold Receiver.ackno
    rw [position_eq, Option.map_map]
    exact congrArg (Option.map · r.isn) (funext fun isn => (SeqNum.wrap_add r.ackPosition 1 isn).symm)
  · have positive := List.length_pos_iff.mpr bare
    have apart : ¬r.Overlaps index segment.payload.length := by
      unfold Overlaps
      rw [if_neg (by omega)]
      omega
    rw [if_neg bare]
    exact takes.outside known placed apart

theorem fin_taken_by_closed_window : ∃ r after, Fed (fun _ _ => True) r ∧ r.window = 0 ∧
    (r.segmentReceived { fin := true, seqno := ⟨5004⟩ }).result = .ok (after, true) ∧
    after.stream.ended = true ∧ r.ackno = some ⟨5004⟩ ∧ after.ackno = some ⟨5005⟩ := by
  have seen : ∃ r ∈ feed (fun _ _ => True) (ofCapacity 3)
        [{ syn := true, seqno := ⟨5000⟩ }, { seqno := ⟨5001⟩, payload := [0x61, 0x62, 0x63] }],
      r.isn ≠ none ∧ r.reassembler.finished = false ∧ r.window = 0 ∧
      r.place { fin := true, seqno := ⟨5004⟩ } = some r.reassembler.nextIndex ∧
      ∃ step ∈ (r.segmentReceived { fin := true, seqno := ⟨5004⟩ }).result.toOption, True := by
    decide +kernel
  obtain ⟨r, run, known, going, closed, placed, ⟨after, accepted⟩, received, -⟩ := seen
  have makes : create 3 = .ok (ofCapacity 3) := rfl
  have made : Fed (fun _ _ => True) (ofCapacity 3) := .made makes
  have fed := made.feed run
  rw [mem_toOption] at received
  obtain ⟨expected, takes, -⟩ := expected_fin_taken_iff fed known going rfl placed rfl
  have taken := takes after accepted received
  rw [if_pos rfl] at taken
  obtain ⟨rfl, ended, -, next⟩ := taken
  rw [expected] at next
  exact ⟨r, after, fed, closed, received, ended, expected, next⟩

def repeated : Segment := { fin := true, seqno := ⟨5001⟩, payload := [0x61, 0x62, 0x63] }

/-- The FIN has the number that the receiver asks for, and is refused. -/
theorem fin_refused_behind_payload : ∃ r, Fed (fun _ _ => True) r ∧ r.isn ≠ none ∧
    r.reassembler.finished = false ∧ r.window = 7 ∧ r.place repeated = some 0 ∧
    r.reassembler.nextIndex = 3 ∧
    r.ackno = some (repeated.seqno + UInt32.ofNat repeated.payload.length) ∧
    ∃ after, (r.segmentReceived repeated).result = .ok (after, false) ∧
      after.stream.ended = false ∧ after.ackno = r.ackno := by
  have seen : ∃ r ∈ feed (fun _ _ => True) (ofCapacity 10)
        [{ syn := true, seqno := ⟨5000⟩ }, { seqno := ⟨5001⟩, payload := [0x61, 0x62, 0x63] }],
      r.isn ≠ none ∧ r.reassembler.finished = false ∧ r.window = 7 ∧ r.place repeated = some 0 ∧
      r.reassembler.nextIndex = 3 ∧
      r.ackno = some (repeated.seqno + UInt32.ofNat repeated.payload.length) ∧
      ∃ step ∈ (r.segmentReceived repeated).result.toOption, step.2 = false ∧
        step.1.stream.ended = false ∧ step.1.ackno = r.ackno := by decide +kernel
  obtain ⟨r, run, known, going, wide, placed, next, expected, ⟨after, accepted⟩, received, rfl, open',
    same⟩ := seen
  have makes : create 10 = .ok (ofCapacity 10) := rfl
  have made : Fed (fun _ _ => True) (ofCapacity 10) := .made makes
  exact ⟨r, made.feed run, known, going, wide, placed, next, expected, after,
    mem_toOption.mp received, open', same⟩

end TcpStack.Receiver

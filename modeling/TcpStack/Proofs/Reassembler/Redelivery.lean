import TcpStack.Proofs.Reassembler.Marks

/-! The same piece twice. After a push of a piece that there is room for, every byte of it has left or is
pending as it came, and its end mark is kept if it counts. Reading takes none of that away, so a second push of
the piece writes over each byte what is there, however much of the piece there is room for then, and the store
comes out as it was. -/

namespace TcpStack.Reassembler

open Outcome

/-- All of the piece is there: what has not left of it is pending, and its end mark, if it counts, is the one
that is kept. -/
structure Carries (r : Reassembler) (bytes : Bytes) (index : Nat) (isEnd : Bool) : Prop where
  held : ∀ i b, r.nextIndex ≤ i → Fragment.byte? ⟨index, bytes⟩ i = some b →
    Fragment.lookup r.pending i = some b
  marked : isEnd = true → r.Reaches bytes index → r.endIndex = some (index + bytes.length)

variable {capacity : Nat} {read read' : Bytes} {r after later again : Reassembler} {bytes : Bytes}
  {index : Nat} {isEnd : Bool} {calls : List Call}

section same

theorem Rests.deliver_eq (rests : Rests r) (h : r.deliver r.pending = .ok after) : after = r := by
  cases pending_eq : r.pending with
  | nil =>
    rw [pending_eq, deliver, pure_eq_ok, ← pending_eq] at h
    exact h.symm
  | cons fragment rest =>
    have positive := List.length_pos_iff.mpr (rests.some fragment (by simp [pending_eq]))
    rw [pending_eq, deliver] at h
    by_cases here : fragment.start = r.nextIndex
    · -- the next byte is there, so nothing kept it back but the end
      have ended : r.output.ended = true := by
        by_contra going
        refine Fragment.lookup_ne_none_iff.mpr ⟨fragment, by simp [pending_eq], Nat.le_of_eq here, ?_⟩
          (rests.missing (Bool.eq_false_iff.mpr going))
        unfold Fragment.stop
        omega
      have stays : (⟨r.nextIndex, fragment.bytes⟩ : Fragment) = fragment := by rw [← here]
      simp only [if_pos here, ByteStream.write_of_ended _ ended, ok_bind, bind_eq_ok,
        Count.sub_eq_ok_iff, Count.add_eq_ok_iff] at h
      obtain ⟨_, ⟨rfl, -⟩, _, ⟨rfl, -⟩, h⟩ := h
      rw [if_pos positive, pure_eq_ok, Nat.sub_zero, Nat.add_zero, List.drop_zero, stays,
        ← pending_eq] at h
      exact h.symm
    · rw [if_neg here, pure_eq_ok, ← pending_eq] at h
      exact h.symm

theorem Stores.insert_eq {fragment : Fragment} (stores : Stores r) (filled : fragment.bytes ≠ [])
    (ahead : r.nextIndex ≤ fragment.start) (within : fragment.stop ≤ r.nextIndex + r.capacity)
    (budget : r.unassembled + fragment.bytes.length + r.output.size ≤ r.capacity)
    (held : ∀ i, ∀ b ∈ fragment.byte? i, Fragment.lookup r.pending i = b)
    (h : r.insert fragment = .ok after) : after = r := by
  obtain ⟨stores', lookup_eq⟩ := stores.insert filled ahead within budget h
  have pending_eq : after.pending = r.pending := by
    refine stores'.apart.eq_of_lookup stores.apart stores'.some stores.some fun i => ?_
    rw [lookup_eq]
    cases byte : fragment.byte? i with
    | none => exact Option.none_or
    | some b => rw [held i b byte, Option.some_or]
  have unassembled_eq : after.unassembled = r.unassembled := by
    rw [stores'.counted, stores.counted, pending_eq]
  rw [(insert_spec h []).1, pending_eq, unassembled_eq]

end same

theorem byte?_of_taken {i : Nat} {b : UInt8}
    (taken : Fragment.byte? ⟨max index r.nextIndex, r.taken bytes index⟩ i = some b) :
    r.nextIndex ≤ i ∧ Fragment.byte? ⟨index, bytes⟩ i = some b := by
  have starts := (Fragment.byte?_ne_none_iff.mp (ne_of_eq_of_ne taken (Option.some_ne_none b))).1
  rw [Reassembler.taken, Fragment.byte?_take, byte?_fresh, if_pos starts] at taken
  refine ⟨Nat.le_trans (Nat.le_max_right _ _) starts, ?_⟩
  split at taken
  · exact taken
  · cases taken

theorem reaches_of_push (rests : Rests r) (h : r.push bytes index isEnd = .ok after)
    (reaches : after.Reaches bytes index) : r.Reaches bytes index := by
  obtain ⟨_, _, -, -, goes⟩ := push_delivery rests h
  have next_eq := goes.next_eq
  have capacity_eq := goes.capacity_eq
  unfold Reaches at reaches ⊢
  cases push_cases h with
  | behind => omega
  | beyond => exact reaches
  | untaken new near | takes new near => exact Or.inr ⟨new, near⟩

theorem push_carries (rests : Rests r) (fits : r.Fits bytes index)
    (h : r.push bytes index isEnd = .ok after) : after.Carries bytes index isEnd := by
  obtain ⟨store, run, stored, delivery, goes⟩ := push_delivery rests h
  refine ⟨fun i b ahead here => ?_, fun ends reaches => ?_⟩
  · have next_le := goes.next_eq ▸ ahead
    have starts := (Fragment.byte?_ne_none_iff.mp (ne_of_eq_of_ne here (Option.some_ne_none b))).1
    have new : Fragment.byte? ⟨max index r.nextIndex, r.taken bytes index⟩ i = some b := by
      rw [fits.taken_eq, byte?_fresh, if_pos (Nat.max_le.mpr ⟨starts, by omega⟩), here]
    rw [delivery.kept_eq stored.apart, if_neg fun left => Nat.not_lt_of_le next_le left.2,
      stored.lookup_eq, new, Option.some_or]
  · have counts := (counts_iff r bytes index).mpr ⟨reaches_of_push rests h reaches, fits⟩
    rw [push_endIndex rests.sound h, ends, counts]
    rfl

theorem Carries.withOutput (carries : r.Carries bytes index isEnd) (output : ByteStream) :
    Carries { r with output } bytes index isEnd :=
  ⟨carries.held, carries.marked⟩

theorem Carries.mark_eq (carries : r.Carries bytes index isEnd) {here : Bool}
    (counts : here = true → isEnd = true ∧ r.Reaches bytes index) :
    r.mark (index + bytes.length) here = r := by
  cases here with
  | false => rfl
  | true =>
    obtain ⟨ends, reaches⟩ := counts rfl
    rw [mark, if_pos rfl, ← carries.marked ends reaches]

theorem Carries.push_eq (carries : r.Carries bytes index isEnd) (rests : Rests r) (prompt : r.Prompt)
    (h : r.push bytes index isEnd = .ok after) : after = r := by
  cases push_cases h with
  | behind =>
    rw [carries.mark_eq, prompt.close]
    intro here
    rw [Bool.and_eq_true, beq_iff_eq] at here
    exact ⟨here.1, Or.inl here.2⟩
  | beyond => rfl
  | untaken new near =>
    rw [carries.mark_eq, prompt.close]
    exact fun here => ⟨(Bool.and_eq_true_iff.mp here).1, Or.inr ⟨new, near⟩⟩
  | takes new near some hinsert hdeliver =>
    rw [carries.mark_eq fun here => ⟨(Bool.and_eq_true_iff.mp here).1, Or.inr ⟨new, near⟩⟩] at hinsert
    obtain ⟨within, budget⟩ := taken_fits bytes rests near
    obtain rfl := rests.toStores.insert_eq some (Nat.le_max_right _ _) within budget
      (fun i b taken => (byte?_of_taken taken).elim (carries.held i b)) hinsert
    rw [rests.deliver_eq hdeliver, prompt.close]

/-- A piece that there was room for may come again, at once or after reads: it changes nothing. -/
theorem push_again_changes_nothing (reading : ∀ call ∈ calls, call.readsOutput = true)
    (h : history capacity calls = .ok (read, r)) (fits : r.Fits bytes index)
    (first : r.push bytes index isEnd = .ok after) {reads : List ByteStream.Call}
    (only : ∀ call ∈ reads, call.reads = true)
    (between : (reads.map Call.output).foldlM record (read, after) = .ok (read', later)) :
    (∀ again, later.push bytes index isEnd = .ok again → again = later) ∧
    (later.nextIndex + capacity < Count.bound → later.push bytes index isEnd = .ok later) := by
  have before := history_reached reading h
  have kept : Reached capacity read' later ∧ later.Carries bytes index isEnd := by
    refine foldlM_induction
      (P := fun point => Reached capacity point.1 point.2 ∧ point.2.Carries bytes index isEnd) between
      ⟨before.push first, push_carries before.rests fits first⟩ ?_
    rintro call member ⟨_, before⟩ ⟨_, after⟩ step ⟨reached, carries⟩
    obtain ⟨taking, inside, rfl⟩ := List.mem_map.mp member
    have quiet : (Call.output taking).readsOutput = true := only taking inside
    have taken := record_records reached.rests.sound quiet step
    refine ⟨reached.records taken, ?_⟩
    cases taken with
    | reads => exact carries.withOutput _
  obtain ⟨reached, carries⟩ := kept
  have same (again : Reassembler) (h : later.push bytes index isEnd = .ok again) : again = later :=
    carries.push_eq reached.rests reached.prompt h
  refine ⟨same, fun short => ?_⟩
  have stop_short : index + bytes.length < Count.bound := by
    unfold push at first
    simp only [bind_eq_ok, Count.add_eq_ok_iff] at first
    obtain ⟨_, ⟨-, stop_short⟩, -⟩ := first
    exact stop_short
  obtain ⟨again, h⟩ :=
    push_returns bytes index isEnd reached.rests stop_short (reached.capacity_eq.symm ▸ short)
  rw [h, same again h]

def gapped : List Call := [.push [0x61] 0 false, .push [0x65, 0x66] 4 false]

theorem again_without_room : ∃ read r after read' later, history 7 gapped = .ok (read, r) ∧
    r.Fits [0x63, 0x64, 0x65, 0x66] 2 ∧
    r.push [0x63, 0x64, 0x65, 0x66] 2 true = .ok after ∧
    ([.read 1].map Call.output).foldlM record (read, after) = .ok (read', later) ∧
    ¬later.Fits [0x63, 0x64, 0x65, 0x66] 2 ∧ later.endIndex = some 6 ∧
    later.push [0x63, 0x64, 0x65, 0x66] 2 true = .ok later := by
  have seen : ∃ point ∈ (history 7 gapped).toOption, point.2.Fits [0x63, 0x64, 0x65, 0x66] 2 ∧
      ∃ after ∈ (point.2.push [0x63, 0x64, 0x65, 0x66] 2 true).toOption,
      ∃ last ∈ (([.read 1].map Call.output).foldlM record (point.1, after)).toOption,
        ¬last.2.Fits [0x63, 0x64, 0x65, 0x66] 2 ∧ last.2.endIndex = some 6 ∧
        last.2.nextIndex + 7 < Count.bound := by decide +kernel
  obtain ⟨⟨read, r⟩, h, fits, after, first, ⟨read', later⟩, between, full, marked, short⟩ := seen
  rw [mem_toOption] at h first between
  have reading : ∀ call ∈ gapped, call.readsOutput = true := by decide
  have only : ∀ call ∈ [ByteStream.Call.read 1], call.reads = true := by decide
  exact ⟨read, r, after, read', later, h, fits, first, between, full, marked,
    (push_again_changes_nothing reading h fits first only between).2 short⟩

end TcpStack.Reassembler

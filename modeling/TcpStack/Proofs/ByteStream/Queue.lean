import TcpStack.ByteStream.Call
import TcpStack.ByteStream.Ring.Lemmas
import TcpStack.Proofs.Outcome

/-! A byte stream as a queue. Of a sound stream, what is written goes behind the bytes that wait, and
what is read or popped is taken from the front of them. Statements are about calls that come to a
value; sound streams are those that a stream of a size that can be had turns into. -/

namespace TcpStack.ByteStream

open Outcome

structure Sound (stream : ByteStream) : Prop where
  ring : stream.ring.Valid
  fits : stream.capacity < Cells.limit
  counted : stream.written = stream.consumed + stream.size

@[simp] theorem length_toList (stream : ByteStream) : stream.toList.length = stream.size :=
  Ring.length_toList stream.ring

theorem Sound.size_le {stream : ByteStream} (sound : stream.Sound) :
    stream.size ≤ stream.capacity := sound.ring.size_le

@[simp] theorem toList_ofCapacity (capacity : Nat) : (ofCapacity capacity).toList = [] :=
  Ring.toList_ofCapacity capacity

theorem sound_ofCapacity {capacity : Nat} (fits : capacity < Cells.limit) :
    (ofCapacity capacity).Sound := ⟨Ring.valid_ofCapacity capacity, fits, rfl⟩

theorem Sound.finish {stream : ByteStream} (sound : stream.Sound) : stream.finish.Sound :=
  ⟨sound.ring, sound.fits, sound.counted⟩

theorem Sound.fail {stream : ByteStream} (sound : stream.Sound) : stream.fail.Sound :=
  ⟨sound.ring, sound.fits, sound.counted⟩

@[simp] theorem toList_finish (stream : ByteStream) : stream.finish.toList = stream.toList := rfl

theorem finish_of_ended {stream : ByteStream} (ended : stream.ended = true) : stream.finish = stream := by
  unfold finish
  rw [← ended]

theorem write_of_ended {stream : ByteStream} (bytes : Bytes) (ended : stream.ended = true) :
    stream.write bytes = .ok (stream, 0) := by
  unfold write
  rw [if_pos ended]
  rfl

structure Accepts (stream : ByteStream) (bytes : Bytes) (after : ByteStream) (accepted : Nat) :
    Prop where
  accepted_eq : accepted = if stream.ended then 0 else min bytes.length stream.room
  toList_eq : after.toList = stream.toList ++ bytes.take accepted
  capacity_eq : after.capacity = stream.capacity
  written_eq : after.written = stream.written + accepted
  consumed_eq : after.consumed = stream.consumed
  ended_eq : after.ended = stream.ended
  failed_eq : after.failed = stream.failed
  sound : after.Sound

theorem Accepts.le {stream after : ByteStream} {bytes : Bytes} {accepted : Nat}
    (accepts : Accepts stream bytes after accepted) : accepted ≤ bytes.length := by
  rw [accepts.accepted_eq]
  split
  · exact Nat.zero_le _
  · exact Nat.min_le_left _ _

theorem Accepts.size_eq {stream after : ByteStream} {bytes : Bytes} {accepted : Nat}
    (accepts : Accepts stream bytes after accepted) : after.size = stream.size + accepted := by
  rw [← length_toList, accepts.toList_eq, List.length_append, List.length_take,
    Nat.min_eq_left accepts.le, length_toList]

theorem Accepts.eq_zero_of_ended {stream after : ByteStream} {bytes : Bytes} {accepted : Nat}
    (accepts : Accepts stream bytes after accepted) (ended : stream.ended = true) :
    accepted = 0 := by
  rw [accepts.accepted_eq, if_pos ended]

theorem Accepts.nothing {stream : ByteStream} (sound : stream.Sound) {bytes : Bytes}
    (none : (if stream.ended then 0 else min bytes.length stream.room) = 0) :
    Accepts stream bytes stream 0 :=
  ⟨none.symm, by simp, rfl, rfl, rfl, rfl, rfl, sound⟩

theorem write_accepts {stream after : ByteStream} {bytes : Bytes} {accepted : Nat}
    (sound : stream.Sound) (h : stream.write bytes = .ok (after, accepted)) :
    Accepts stream bytes after accepted := by
  unfold write at h
  by_cases ended : stream.ended = true
  · rw [if_pos ended, pure_eq_ok] at h
    cases h
    exact Accepts.nothing sound (if_pos ended)
  rw [if_neg ended] at h
  simp only [bind_eq_ok, Count.sub_eq_ok_iff] at h
  obtain ⟨room, ⟨hroom, -⟩, h⟩ := h
  have length_taken : (bytes.take room).length = min bytes.length stream.room := by
    rw [List.length_take, hroom, Nat.min_comm, ByteStream.room]
  by_cases empty : (bytes.take room).isEmpty = true
  · rw [if_pos empty, pure_eq_ok] at h
    cases h
    refine Accepts.nothing sound ?_
    rw [if_neg ended, ← length_taken, List.isEmpty_iff.mp empty, List.length_nil]
  rw [if_neg empty] at h
  simp only [bind_eq_ok, pure_eq_ok, Count.add_eq_ok_iff] at h
  obtain ⟨ring, hring, written, ⟨rfl, -⟩, h⟩ := h
  cases h
  have some : 0 < (bytes.take room).length := by
    rw [List.isEmpty_iff, ← List.length_eq_zero_iff] at empty
    omega
  have fits : stream.ring.size + (bytes.take room).length ≤ stream.ring.capacity := by
    have size_le := sound.size_le
    simp only [length_taken, ByteStream.room, size, capacity] at *
    omega
  obtain ⟨ring', hring', toList_eq, capacity_eq, size_eq, valid⟩ :=
    Ring.append_eq_ok sound.ring some fits sound.fits
  rw [hring] at hring'
  cases hring'
  refine ⟨?_, ?_, capacity_eq, rfl, rfl, rfl, rfl, ⟨valid, ?_, ?_⟩⟩
  · rw [if_neg ended, length_taken]
  · rw [List.length_take, ← List.take_take, List.take_length]
    exact toList_eq
  · exact lt_of_eq_of_lt capacity_eq sound.fits
  · have counted := sound.counted
    simp only [size] at *
    omega

theorem write_short {stream after : ByteStream} {bytes : Bytes} {accepted : Nat}
    (short : stream.written < Count.bound) (h : stream.write bytes = .ok (after, accepted)) :
    after.written < Count.bound := by
  unfold write at h
  split at h
  · cases h
    exact short
  simp only [bind_eq_ok] at h
  obtain ⟨room, -, h⟩ := h
  split at h
  · cases h
    exact short
  simp only [bind_eq_ok, pure_eq_ok, Count.add_eq_ok_iff] at h
  obtain ⟨ring, -, written, ⟨rfl, fits⟩, h⟩ := h
  cases h
  exact fits

theorem write_eq_add {stream : ByteStream} {bytes : Bytes} (sound : stream.Sound)
    (open' : stream.ended = false) (some : 0 < min stream.room bytes.length) :
    ∃ ring, stream.write bytes = do
      let written ← Count.add stream.written (min stream.room bytes.length)
      return ({ stream with ring, written }, min stream.room bytes.length) := by
  have length_taken : (bytes.take stream.room).length = min stream.room bytes.length := List.length_take
  have room : Count.sub stream.capacity stream.size = .ok stream.room :=
    Count.sub_eq_ok_iff.mpr ⟨rfl, sound.size_le⟩
  have nonempty : ¬ (bytes.take stream.room).isEmpty = true := by
    rw [List.isEmpty_iff, ← List.length_eq_zero_iff]
    omega
  have fits : stream.ring.size + (bytes.take stream.room).length ≤ stream.ring.capacity := by
    have size_le := sound.size_le
    simp only [length_taken, ByteStream.room, size, capacity] at *
    omega
  obtain ⟨ring, hring, -⟩ := Ring.append_eq_ok sound.ring (by omega) fits sound.fits
  refine ⟨ring, ?_⟩
  unfold write
  simp only [open', Bool.false_eq_true, if_false, room, ok_bind, if_neg nonempty, hring, length_taken]

theorem write_of_no_room {stream : ByteStream} {bytes : Bytes} (sound : stream.Sound)
    (none : min stream.room bytes.length = 0) : stream.write bytes = .ok (stream, 0) := by
  have room : Count.sub stream.capacity stream.size = .ok stream.room :=
    Count.sub_eq_ok_iff.mpr ⟨rfl, sound.size_le⟩
  have empty : (bytes.take stream.room).isEmpty = true := by
    rw [List.isEmpty_iff, ← List.length_eq_zero_iff, List.length_take, none]
  cases ended : stream.ended
  · unfold write
    simp only [ended, Bool.false_eq_true, if_false, room, ok_bind, if_pos empty]
    rfl
  · exact write_of_ended bytes ended

theorem write_returns {stream : ByteStream} (bytes : Bytes) (sound : stream.Sound)
    (short : stream.written + min stream.room bytes.length < Count.bound) :
    ∃ after accepted, stream.write bytes = .ok (after, accepted) := by
  cases ended : stream.ended
  · rcases Nat.eq_zero_or_pos (min stream.room bytes.length) with none | some
    · exact ⟨_, _, write_of_no_room sound none⟩
    · obtain ⟨ring, hwrite⟩ := write_eq_add sound ended some
      rw [hwrite, Count.add_eq_ok_iff.mpr ⟨rfl, short⟩]
      exact ⟨_, _, rfl⟩
  · exact ⟨_, _, write_of_ended bytes ended⟩

theorem write_overflows {stream : ByteStream} {bytes : Bytes} (sound : stream.Sound)
    (open' : stream.ended = false) (short : stream.written < Count.bound)
    (long : Count.bound ≤ stream.written + min stream.room bytes.length) :
    stream.write bytes = .error (.overflow .addition) := by
  obtain ⟨ring, hwrite⟩ := write_eq_add sound open' (by omega : 0 < min stream.room bytes.length)
  rw [hwrite]
  unfold Count.add
  rw [if_neg (by omega)]
  rfl

theorem peek_eq_ok {stream : ByteStream} (sound : stream.Sound) (count : Nat) :
    stream.peek count = .ok (stream.toList.take count) :=
  Ring.front_eq_ok sound.ring count

structure Drops (stream : ByteStream) (count : Nat) (after : ByteStream) : Prop where
  toList_eq : after.toList = stream.toList.drop count
  capacity_eq : after.capacity = stream.capacity
  written_eq : after.written = stream.written
  consumed_eq : after.consumed = stream.consumed + min count stream.size
  ended_eq : after.ended = stream.ended
  failed_eq : after.failed = stream.failed
  sound : after.Sound

theorem Drops.size_eq {stream after : ByteStream} {count : Nat} (drops : Drops stream count after) :
    after.size = stream.size - count := by
  rw [← length_toList, drops.toList_eq, List.length_drop, length_toList]

theorem Drops.size_le {stream after : ByteStream} {count : Nat} (drops : Drops stream count after) :
    after.size ≤ stream.size := by
  rw [drops.size_eq]
  exact Nat.sub_le _ _

theorem pop_drops {stream after : ByteStream} {count : Nat} (sound : stream.Sound)
    (h : stream.pop count = .ok after) : Drops stream count after := by
  obtain ⟨ring, hring, toList_eq, capacity_eq, size_eq, valid⟩ :=
    Ring.dropFront_eq_ok sound.ring count sound.fits
  unfold pop at h
  simp only [hring, bind_eq_ok, pure_eq_ok, Except.ok.injEq, exists_eq_left',
    Count.add_eq_ok_iff] at h
  obtain ⟨consumed, ⟨rfl, -⟩, rfl⟩ := h
  refine ⟨toList_eq, capacity_eq, rfl, rfl, rfl, rfl, ⟨valid, ?_, ?_⟩⟩
  · exact lt_of_eq_of_lt capacity_eq sound.fits
  · have counted := sound.counted
    simp only [size] at *
    omega

theorem read_drops {stream after : ByteStream} {count : Nat} {bytes : Bytes}
    (sound : stream.Sound) (h : stream.read count = .ok (after, bytes)) :
    bytes = stream.toList.take count ∧ Drops stream count after := by
  unfold read at h
  simp only [peek_eq_ok sound, bind_eq_ok, pure_eq_ok, Except.ok.injEq, exists_eq_left'] at h
  obtain ⟨after', hpop, h⟩ := h
  cases h
  have drops := pop_drops sound hpop
  have length_taken : (stream.toList.take count).length = min count stream.size := by
    rw [List.length_take, length_toList]
  rw [length_taken] at drops
  refine ⟨rfl, { drops with toList_eq := ?_, consumed_eq := ?_ }⟩
  · rw [drops.toList_eq, ← length_toList, ← List.drop_eq_drop_min]
  · rw [drops.consumed_eq, Nat.min_assoc, Nat.min_self]

theorem pop_returns {stream : ByteStream} (count : Nat) (sound : stream.Sound)
    (short : stream.written < Count.bound) : ∃ after, stream.pop count = .ok after := by
  obtain ⟨ring, hring, -⟩ := Ring.dropFront_eq_ok sound.ring count sound.fits
  have counted : stream.written = stream.consumed + stream.ring.size := sound.counted
  have consumed : Count.add stream.consumed (min count stream.ring.size) =
      .ok (stream.consumed + min count stream.ring.size) :=
    Count.add_eq_ok_iff.mpr ⟨rfl, by omega⟩
  unfold pop
  simp only [hring, ok_bind, consumed]
  exact ⟨_, rfl⟩

theorem read_returns {stream : ByteStream} (count : Nat) (sound : stream.Sound)
    (short : stream.written < Count.bound) : ∃ after bytes, stream.read count = .ok (after, bytes) := by
  obtain ⟨after, hpop⟩ := pop_returns (stream.toList.take count).length sound short
  unfold read
  simp only [peek_eq_ok sound, ok_bind, hpop]
  exact ⟨_, _, rfl⟩

theorem Drops.trans {stream middle after : ByteStream} {first second : Nat}
    (before : Drops stream first middle) (later : Drops middle second after) :
    Drops stream (first + second) after := by
  refine ⟨?_, later.capacity_eq.trans before.capacity_eq, later.written_eq.trans before.written_eq,
    ?_, later.ended_eq.trans before.ended_eq, later.failed_eq.trans before.failed_eq, later.sound⟩
  · rw [later.toList_eq, before.toList_eq, List.drop_drop]
  · rw [later.consumed_eq, before.consumed_eq, before.size_eq]
    omega

def Call.reads : Call → Bool
  | .peek _ | .pop _ | .read _ => true
  | .write _ | .finish | .fail => false

def Call.takes (stream : ByteStream) : Call → Bytes
  | .pop count | .read count => stream.toList.take count
  | _ => []

inductive Answers (stream : ByteStream) : Call → ByteStream → Reply → Prop
  | write {bytes : Bytes} {after : ByteStream} {accepted : Nat}
      (h : stream.write bytes = .ok (after, accepted)) :
      Answers stream (.write bytes) after (.count accepted)
  | peek {count : Nat} {bytes : Bytes} (h : stream.peek count = .ok bytes) :
      Answers stream (.peek count) stream (.bytes bytes)
  | pop {count : Nat} {after : ByteStream} (h : stream.pop count = .ok after) :
      Answers stream (.pop count) after .done
  | read {count : Nat} {after : ByteStream} {bytes : Bytes}
      (h : stream.read count = .ok (after, bytes)) : Answers stream (.read count) after (.bytes bytes)
  | finish : Answers stream .finish stream.finish .done
  | fail : Answers stream .fail stream.fail .done

theorem perform_answers {stream after : ByteStream} {call : Call} {reply : Reply}
    (h : stream.perform call = .ok (after, reply)) : Answers stream call after reply := by
  unfold perform at h
  cases call with
  | write bytes =>
    simp only [bind_eq_ok, pure_eq_ok] at h
    obtain ⟨⟨written, accepted⟩, hwrite, h⟩ := h
    cases h
    exact .write hwrite
  | peek count =>
    simp only [bind_eq_ok, pure_eq_ok] at h
    obtain ⟨bytes, hpeek, h⟩ := h
    cases h
    exact .peek hpeek
  | pop count =>
    simp only [bind_eq_ok, pure_eq_ok] at h
    obtain ⟨popped, hpop, h⟩ := h
    cases h
    exact .pop hpop
  | read count =>
    simp only [bind_eq_ok, pure_eq_ok] at h
    obtain ⟨⟨left, bytes⟩, hread, h⟩ := h
    cases h
    exact .read hread
  | finish =>
    cases h
    exact .finish
  | fail =>
    cases h
    exact .fail

theorem perform_drops {stream after : ByteStream} {call : Call} {reply : Reply}
    (sound : stream.Sound) (reads : call.reads = true)
    (h : stream.perform call = .ok (after, reply)) :
    ∃ count, Drops stream count after ∧ call.takes stream = stream.toList.take count := by
  cases perform_answers h with
  | peek => exact ⟨0, ⟨rfl, rfl, rfl, by simp, rfl, rfl, sound⟩, rfl⟩
  | pop hpop => exact ⟨_, pop_drops sound hpop, rfl⟩
  | read hread => exact ⟨_, (read_drops sound hread).2, rfl⟩
  | write | finish | fail => cases reads

theorem perform_returns {stream : ByteStream} {call : Call} (sound : stream.Sound)
    (reads : call.reads = true) (short : stream.written < Count.bound) :
    ∃ after reply, stream.perform call = .ok (after, reply) := by
  cases call with
  | peek count =>
    unfold perform
    simp only [peek_eq_ok sound, ok_bind]
    exact ⟨_, _, rfl⟩
  | pop count =>
    obtain ⟨after, hpop⟩ := pop_returns count sound short
    unfold perform
    simp only [hpop, ok_bind]
    exact ⟨_, _, rfl⟩
  | read count =>
    obtain ⟨after, bytes, hread⟩ := read_returns count sound short
    unfold perform
    simp only [hread, ok_bind]
    exact ⟨_, _, rfl⟩
  | write | finish | fail => cases reads

theorem perform_short {stream after : ByteStream} {call : Call} {reply : Reply}
    (sound : stream.Sound) (short : stream.written < Count.bound)
    (h : stream.perform call = .ok (after, reply)) : after.written < Count.bound := by
  cases perform_answers h with
  | write hwrite => exact write_short short hwrite
  | pop hpop => exact (pop_drops sound hpop).written_eq ▸ short
  | read hread => exact (read_drops sound hread).2.written_eq ▸ short
  | peek | finish | fail => exact short

def Call.spares (call : Call) : Bool := call != .fail

theorem Drops.atEnd {stream after : ByteStream} {count : Nat} (drops : Drops stream count after)
    (atEnd : stream.atEnd = true) : after.atEnd = true := by
  have marks := Bool.and_eq_true_iff.mp atEnd
  have empty : stream.size = 0 := beq_iff_eq.mp marks.2
  have size_eq : after.size = 0 := by rw [drops.size_eq, empty, Nat.zero_sub]
  exact Bool.and_eq_true_iff.mpr ⟨drops.ended_eq.trans marks.1, beq_iff_eq.mpr size_eq⟩

theorem Accepts.atEnd {stream after : ByteStream} {bytes : Bytes} {accepted : Nat}
    (accepts : Accepts stream bytes after accepted) (atEnd : stream.atEnd = true) :
    after.atEnd = true := by
  have marks := Bool.and_eq_true_iff.mp atEnd
  have empty : stream.size = 0 := beq_iff_eq.mp marks.2
  have size_eq : after.size = 0 := by
    rw [accepts.size_eq, empty, accepts.eq_zero_of_ended marks.1]
  exact Bool.and_eq_true_iff.mpr ⟨accepts.ended_eq.trans marks.1, beq_iff_eq.mpr size_eq⟩

theorem finish_atEnd {stream : ByteStream} (atEnd : stream.atEnd = true) :
    stream.finish.atEnd = true :=
  Bool.and_eq_true_iff.mpr ⟨rfl, (Bool.and_eq_true_iff.mp atEnd).2⟩

theorem perform_sound {stream after : ByteStream} {call : Call} {reply : Reply}
    (sound : stream.Sound) (h : stream.perform call = .ok (after, reply)) :
    after.Sound ∧ after.capacity = stream.capacity ∧
      (call.spares = true → after.failed = stream.failed) := by
  cases perform_answers h with
  | write hwrite =>
    have accepts := write_accepts sound hwrite
    exact ⟨accepts.sound, accepts.capacity_eq, fun _ => accepts.failed_eq⟩
  | pop hpop =>
    have drops := pop_drops sound hpop
    exact ⟨drops.sound, drops.capacity_eq, fun _ => drops.failed_eq⟩
  | read hread =>
    have drops := (read_drops sound hread).2
    exact ⟨drops.sound, drops.capacity_eq, fun _ => drops.failed_eq⟩
  | peek => exact ⟨sound, rfl, fun _ => rfl⟩
  | finish => exact ⟨sound.finish, rfl, fun _ => rfl⟩
  | fail => exact ⟨sound.fail, rfl, fun spares => by cases spares⟩

theorem perform_ended {stream after : ByteStream} {call : Call} {reply : Reply} (sound : stream.Sound)
    (other : call ≠ .finish) (h : stream.perform call = .ok (after, reply)) : after.ended = stream.ended := by
  cases perform_answers h with
  | write hwrite => exact (write_accepts sound hwrite).ended_eq
  | pop hpop => exact (pop_drops sound hpop).ended_eq
  | read hread => exact (read_drops sound hread).2.ended_eq
  | peek | fail => rfl
  | finish => exact absurd rfl other

end TcpStack.ByteStream

import Mathlib.Algebra.Group.Nat.Defs
import TcpStack.Proofs.ByteStream.Queue

/-! A byte stream against a queue that is a plain list. Whatever is asked of them, the two answer the same, hold
the same bytes and agree on the end and on failure, as long as there is a counter for all that was accepted. -/

namespace TcpStack

/-- A bounded queue of bytes, first in first out, with all that was accepted and all that was taken. -/
structure Fifo where
  capacity : Nat
  waiting : Bytes := []
  accepted : Bytes := []
  taken : Bytes := []
  ended : Bool := false
  failed : Bool := false

namespace Fifo

def admits (q : Fifo) (bytes : Bytes) : Bytes :=
  if q.ended then [] else bytes.take (q.capacity - q.waiting.length)

def accept (q : Fifo) (bytes : Bytes) : Fifo :=
  { q with waiting := q.waiting ++ bytes, accepted := q.accepted ++ bytes }

def take (q : Fifo) (count : Nat) : Fifo :=
  { q with waiting := q.waiting.drop count, taken := q.taken ++ q.waiting.take count }

def perform (q : Fifo) : ByteStream.Call → Fifo × Reply
  | .write bytes => (q.accept (q.admits bytes), .count (q.admits bytes).length)
  | .peek count => (q, .bytes (q.waiting.take count))
  | .pop count => (q.take count, .done)
  | .read count => (q.take count, .bytes (q.waiting.take count))
  | .finish => ({ q with ended := true }, .done)
  | .fail => ({ q with failed := true }, .done)

def performAll (q : Fifo) : List ByteStream.Call → Fifo × List Reply
  | [] => (q, [])
  | call :: rest =>
    let (after, reply) := q.perform call
    let (last, replies) := after.performAll rest
    (last, reply :: replies)

theorem capacity_perform (q : Fifo) (call : ByteStream.Call) : (q.perform call).1.capacity = q.capacity := by
  cases call with
  | write | peek | pop | read | finish | fail => rfl

theorem capacity_performAll (q : Fifo) (calls : List ByteStream.Call) :
    (q.performAll calls).1.capacity = q.capacity := by
  induction calls generalizing q with
  | nil => rfl
  | cons call rest ih => exact (ih (q.perform call).1).trans (q.capacity_perform call)

theorem accepted_prefix_perform (q : Fifo) (call : ByteStream.Call) :
    q.accepted <+: (q.perform call).1.accepted := by
  cases call with
  | write => exact List.prefix_append _ _
  | peek | pop | read | finish | fail => exact List.prefix_refl _

theorem accepted_prefix_performAll (q : Fifo) (calls : List ByteStream.Call) :
    q.accepted <+: (q.performAll calls).1.accepted := by
  induction calls generalizing q with
  | nil => exact List.prefix_refl _
  | cons call rest ih => exact (q.accepted_prefix_perform call).trans (ih (q.perform call).1)

end Fifo

namespace ByteStream

open Outcome

def performAll (stream : ByteStream) : List Call → Except Fault (ByteStream × List Reply)
  | [] => return (stream, [])
  | call :: rest => do
    let (after, reply) ← stream.perform call
    let (last, replies) ← performAll after rest
    return (last, reply :: replies)

def history (capacity : Nat) (calls : List Call) : Except Fault (ByteStream × List Reply) := do
  performAll (← create capacity) calls

/-- The stream holds what the queue holds, and has counted what came in. -/
structure Mirrors (q : Fifo) (stream : ByteStream) : Prop where
  sound : stream.Sound
  capacity_eq : stream.capacity = q.capacity
  toList_eq : stream.toList = q.waiting
  kept : q.taken ++ q.waiting = q.accepted
  written_eq : stream.written = q.accepted.length
  ended_eq : stream.ended = q.ended
  failed_eq : stream.failed = q.failed

variable {q : Fifo} {stream after : ByteStream} {calls : List Call} {bytes : Bytes} {count accepted : Nat}

theorem mirrors_ofCapacity {capacity : Nat} (fits : capacity < Cells.limit) :
    Mirrors { capacity } (ofCapacity capacity) :=
  ⟨sound_ofCapacity fits, rfl, toList_ofCapacity capacity, rfl, rfl, rfl, rfl⟩

theorem Mirrors.size_eq (mirrors : Mirrors q stream) : stream.size = q.waiting.length := by
  rw [← mirrors.toList_eq, length_toList]

theorem Mirrors.consumed_eq (mirrors : Mirrors q stream) : stream.consumed = q.taken.length := by
  have counted := mirrors.sound.counted
  have kept := congrArg List.length mirrors.kept
  rw [List.length_append] at kept
  rw [mirrors.written_eq, mirrors.size_eq] at counted
  omega

theorem Mirrors.length_admits (mirrors : Mirrors q stream) (bytes : Bytes) :
    (q.admits bytes).length = if stream.ended then 0 else min bytes.length stream.room := by
  unfold Fifo.admits ByteStream.room
  rw [mirrors.ended_eq, mirrors.capacity_eq, mirrors.size_eq]
  split
  · rfl
  · rw [List.length_take, Nat.min_comm]

theorem Mirrors.accepts (mirrors : Mirrors q stream) (accepts : Accepts stream bytes after accepted) :
    accepted = (q.admits bytes).length ∧ Mirrors (q.accept (q.admits bytes)) after := by
  have accepted_eq := accepts.accepted_eq.trans (mirrors.length_admits bytes).symm
  have piece : bytes.take accepted = q.admits bytes := by
    rw [accepts.accepted_eq, mirrors.ended_eq]
    unfold Fifo.admits ByteStream.room
    split
    · rfl
    · rw [mirrors.capacity_eq, mirrors.size_eq, Nat.min_comm, ← List.take_eq_take_min]
  refine ⟨accepted_eq, accepts.sound, accepts.capacity_eq.trans mirrors.capacity_eq, ?_, ?_, ?_,
    accepts.ended_eq.trans mirrors.ended_eq, accepts.failed_eq.trans mirrors.failed_eq⟩
  · rw [accepts.toList_eq, mirrors.toList_eq, piece]
    rfl
  · change q.taken ++ (q.waiting ++ q.admits bytes) = q.accepted ++ q.admits bytes
    rw [← List.append_assoc, mirrors.kept]
  · rw [accepts.written_eq, mirrors.written_eq, accepted_eq]
    exact (List.length_append).symm

theorem Mirrors.drops (mirrors : Mirrors q stream) (drops : Drops stream count after) :
    Mirrors (q.take count) after := by
  refine ⟨drops.sound, drops.capacity_eq.trans mirrors.capacity_eq, ?_, ?_,
    drops.written_eq.trans mirrors.written_eq, drops.ended_eq.trans mirrors.ended_eq,
    drops.failed_eq.trans mirrors.failed_eq⟩
  · rw [drops.toList_eq, mirrors.toList_eq]
    rfl
  · change (q.taken ++ q.waiting.take count) ++ q.waiting.drop count = q.accepted
    rw [List.append_assoc, List.take_append_drop, mirrors.kept]

theorem Mirrors.finish (mirrors : Mirrors q stream) : Mirrors { q with ended := true } stream.finish :=
  { mirrors with sound := mirrors.sound.finish, ended_eq := rfl }

theorem Mirrors.fail (mirrors : Mirrors q stream) : Mirrors { q with failed := true } stream.fail :=
  { mirrors with sound := mirrors.sound.fail, failed_eq := rfl }

theorem Mirrors.length_accept (mirrors : Mirrors q stream) (bytes : Bytes) :
    (q.accept (q.admits bytes)).accepted.length = stream.written + (q.admits bytes).length := by
  rw [mirrors.written_eq]
  exact List.length_append

theorem Mirrors.perform_returns (mirrors : Mirrors q stream) (call : Call)
    (short : (q.perform call).1.accepted.length < Count.bound) :
    ∃ after, stream.perform call = .ok (after, (q.perform call).2) ∧ Mirrors (q.perform call).1 after := by
  have written_short : stream.written < Count.bound := by
    rw [mirrors.written_eq]
    exact Nat.lt_of_le_of_lt (q.accepted_prefix_perform call).length_le short
  unfold ByteStream.perform
  cases call with
  | write bytes =>
    have fits : stream.written + (q.admits bytes).length < Count.bound := mirrors.length_accept bytes ▸ short
    have returns : ∃ after accepted, stream.write bytes = .ok (after, accepted) := by
      cases ended : stream.ended
      · rw [mirrors.length_admits, ended, if_neg Bool.false_ne_true, Nat.min_comm] at fits
        exact write_returns bytes mirrors.sound fits
      · exact ⟨_, _, write_of_ended bytes ended⟩
    obtain ⟨after, accepted, hwrite⟩ := returns
    obtain ⟨rfl, later⟩ := mirrors.accepts (write_accepts mirrors.sound hwrite)
    simp only [hwrite]
    exact ⟨after, rfl, later⟩
  | peek count =>
    simp only [peek_eq_ok mirrors.sound, mirrors.toList_eq]
    exact ⟨stream, rfl, mirrors⟩
  | pop count =>
    obtain ⟨after, hpop⟩ := pop_returns count mirrors.sound written_short
    simp only [hpop]
    exact ⟨after, rfl, mirrors.drops (pop_drops mirrors.sound hpop)⟩
  | read count =>
    obtain ⟨after, bytes, hread⟩ := read_returns count mirrors.sound written_short
    obtain ⟨rfl, drops⟩ := read_drops mirrors.sound hread
    simp only [hread, mirrors.toList_eq]
    exact ⟨after, rfl, mirrors.drops drops⟩
  | finish => exact ⟨stream.finish, rfl, mirrors.finish⟩
  | fail => exact ⟨stream.fail, rfl, mirrors.fail⟩

theorem Mirrors.perform_overflows (mirrors : Mirrors q stream) (call : Call)
    (short : q.accepted.length < Count.bound) (long : Count.bound ≤ (q.perform call).1.accepted.length) :
    stream.perform call = .error (.overflow .addition) := by
  cases call with
  | write bytes =>
    have exceeds : Count.bound ≤ stream.written + (q.admits bytes).length := mirrors.length_accept bytes ▸ long
    have written_short : stream.written < Count.bound := mirrors.written_eq ▸ short
    rw [mirrors.length_admits] at exceeds
    have open' : stream.ended = false := by
      rw [Bool.eq_false_iff]
      intro ended
      rw [if_pos ended] at exceeds
      omega
    rw [open', if_neg Bool.false_ne_true, Nat.min_comm] at exceeds
    unfold ByteStream.perform
    simp only [write_overflows mirrors.sound open' written_short exceeds]
    rfl
  | peek | pop | read | finish | fail => exact absurd short (Nat.not_lt.mpr long)

theorem Mirrors.performAll_returns (mirrors : Mirrors q stream)
    (short : (q.performAll calls).1.accepted.length < Count.bound) :
    ∃ after, stream.performAll calls = .ok (after, (q.performAll calls).2) ∧
      Mirrors (q.performAll calls).1 after := by
  induction calls generalizing q stream with
  | nil => exact ⟨stream, rfl, mirrors⟩
  | cons call rest ih =>
    have kept := (q.perform call).1.accepted_prefix_performAll rest
    obtain ⟨middle, first, mirrors⟩ := mirrors.perform_returns call (Nat.lt_of_le_of_lt kept.length_le short)
    obtain ⟨after, others, mirrors⟩ := ih mirrors short
    refine ⟨after, ?_, mirrors⟩
    unfold ByteStream.performAll
    simp only [first, ok_bind, others]
    rfl

theorem Mirrors.performAll_overflows (mirrors : Mirrors q stream) (short : q.accepted.length < Count.bound)
    (long : Count.bound ≤ (q.performAll calls).1.accepted.length) :
    stream.performAll calls = .error (.overflow .addition) := by
  induction calls generalizing q stream with
  | nil => exact absurd short (Nat.not_lt.mpr long)
  | cons call rest ih =>
    unfold ByteStream.performAll
    rcases Nat.lt_or_ge (q.perform call).1.accepted.length Count.bound with fits | exceeds
    · obtain ⟨middle, first, mirrors⟩ := mirrors.perform_returns call fits
      simp only [first, ok_bind, ih mirrors fits long]
      rfl
    · simp only [mirrors.perform_overflows call short exceeds]
      rfl

theorem Mirrors.atEnd_iff (mirrors : Mirrors q stream) :
    stream.atEnd = true ↔ q.ended = true ∧ q.waiting = [] := by
  unfold atEnd isEmpty
  rw [mirrors.ended_eq, mirrors.size_eq, Bool.and_eq_true, beq_iff_eq, List.length_eq_zero_iff]

theorem history_eq {capacity : Nat} (fits : capacity < Cells.limit) (calls : List Call) :
    history capacity calls = (ofCapacity capacity).performAll calls := by
  unfold history create
  rw [Cells.checkSize_eq_ok_iff.mpr fits]
  rfl

/-- A stream is a bounded queue, first in first out: it answers every call as the queue does, holds what was
accepted and not yet taken, in order and within its capacity, and is at its end once it is ended and empty. The
one thing that goes wrong is that more is accepted than there is a counter for. -/
theorem history_refines_fifo {capacity : Nat} (fits : capacity < Cells.limit) (calls : List Call) :
    let q := (Fifo.performAll { capacity } calls).1
    (q.accepted.length < Count.bound → ∃ stream,
      history capacity calls = .ok (stream, (Fifo.performAll { capacity } calls).2) ∧
      q.taken ++ stream.toList = q.accepted ∧ stream.toList = q.waiting ∧
      stream.written = q.accepted.length ∧ stream.consumed = q.taken.length ∧
      stream.written = stream.consumed + stream.size ∧
      stream.size = stream.toList.length ∧ stream.size ≤ stream.capacity ∧ stream.capacity = capacity ∧
      stream.ended = q.ended ∧ stream.failed = q.failed ∧
      (stream.atEnd = true ↔ stream.ended = true ∧ stream.toList = [])) ∧
    (Count.bound ≤ q.accepted.length → history capacity calls = .error (.overflow .addition)) := by
  have fresh := mirrors_ofCapacity fits
  rw [history_eq fits]
  refine ⟨fun short => ?_, fresh.performAll_overflows (Nat.two_pow_pos 64)⟩
  obtain ⟨stream, returns, mirrors⟩ := fresh.performAll_returns short
  have kept := mirrors.kept
  have atEnd_iff := mirrors.atEnd_iff
  rw [← mirrors.toList_eq] at kept
  rw [← mirrors.ended_eq, ← mirrors.toList_eq] at atEnd_iff
  exact ⟨stream, returns, kept, mirrors.toList_eq, mirrors.written_eq, mirrors.consumed_eq,
    mirrors.sound.counted, stream.length_toList.symm, mirrors.sound.size_le,
    mirrors.capacity_eq.trans (Fifo.capacity_performAll _ calls), mirrors.ended_eq, mirrors.failed_eq, atEnd_iff⟩

theorem history_over_the_edge :
    3 < Cells.limit ∧ ∃ stream,
      history 3 [.write [1, 2], .pop 1, .write [3, 4, 5], .peek 9, .read 2, .finish, .write [6]] =
        .ok (stream, [.count 2, .done, .count 2, .bytes [2, 3, 4], .bytes [2, 3], .done, .count 0]) ∧
      stream.toList = [4] := by
  have fits : 3 < Cells.limit := by decide
  obtain ⟨stream, returns, -, toList_eq, -⟩ := (history_refines_fifo fits
    [.write [1, 2], .pop 1, .write [3, 4, 5], .peek 9, .read 2, .finish, .write [6]]).1 (by decide)
  exact ⟨fits, stream, returns, toList_eq⟩

def rounds (count : Nat) : List Call := (List.replicate count [.write [0], .pop 1]).flatten

theorem rounds_succ (count : Nat) : rounds (count + 1) = .write [0] :: .pop 1 :: rounds count := by
  unfold rounds
  rw [List.replicate_succ, List.flatten_cons]
  rfl

theorem length_accepted_rounds (count : Nat) (accepted taken : Bytes) :
    (Fifo.performAll { capacity := 1, accepted, taken } (rounds count)).1.accepted.length =
      accepted.length + count := by
  induction count generalizing accepted taken with
  | zero => rfl
  | succ count ih =>
    rw [rounds_succ]
    have later := ih (accepted ++ [0]) (taken ++ [0])
    rw [List.length_append, Nat.add_assoc, Nat.add_comm _ count] at later
    exact later

/-- No stream has half of all counters for its capacity, and one of a single cell has no counter for the last of
that many bytes. -/
theorem history_past_the_counters :
    history (2 ^ 63) [] = .error .tooLarge ∧ history 1 (rounds (2 ^ 64)) = .error (.overflow .addition) := by
  have fits : 1 < Cells.limit := by decide
  have long := length_accepted_rounds (2 ^ 64) [] []
  refine ⟨rfl, ?_⟩
  rw [history_eq fits]
  exact (mirrors_ofCapacity fits).performAll_overflows (Nat.two_pow_pos 64) (Nat.le_of_eq (by rw [long]; rfl))

end ByteStream
end TcpStack

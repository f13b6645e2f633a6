import TcpStack.Proofs.Reassembler.Push

/-! Reassembly of one stream. `Follows whole ended r` says that `r` has seen nothing but pieces of
`whole`, and end marks only at the end of it once it has ended; every push of such a piece keeps it, and
what the push delivers is the next piece of the whole. -/

namespace TcpStack.Reassembler

open Outcome

def fresh (r : Reassembler) (bytes : Bytes) (index : Nat) : Bytes :=
  bytes.drop (max index r.nextIndex - index)

def allowance (r : Reassembler) (start : Nat) : Nat :=
  min (r.capacity - (r.unassembled + r.output.size)) (r.nextIndex + r.capacity - start)

def taken (r : Reassembler) (bytes : Bytes) (index : Nat) : Bytes :=
  (r.fresh bytes index).take (r.allowance (max index r.nextIndex))

inductive Pushes (r : Reassembler) (bytes : Bytes) (index : Nat) (isEnd : Bool) :
    Reassembler → Prop
  | behind (old : index + bytes.length ≤ r.nextIndex) :
      Pushes r bytes index isEnd (r.mark (index + bytes.length)
        (isEnd && index + bytes.length == r.nextIndex)).closeIfFinished
  | beyond (new : r.nextIndex < index + bytes.length)
      (far : r.nextIndex + r.capacity ≤ max index r.nextIndex) : Pushes r bytes index isEnd r
  | untaken (new : r.nextIndex < index + bytes.length)
      (near : max index r.nextIndex < r.nextIndex + r.capacity)
      (none : r.taken bytes index = []) :
      Pushes r bytes index isEnd (r.mark (index + bytes.length)
        (isEnd && (r.taken bytes index).length == (r.fresh bytes index).length)).closeIfFinished
  | takes {inserted delivered : Reassembler} (new : r.nextIndex < index + bytes.length)
      (near : max index r.nextIndex < r.nextIndex + r.capacity)
      (some : r.taken bytes index ≠ [])
      (hinsert : (r.mark (index + bytes.length)
        (isEnd && (r.taken bytes index).length == (r.fresh bytes index).length)).insert
          ⟨max index r.nextIndex, r.taken bytes index⟩ = .ok inserted)
      (hdeliver : inserted.deliver inserted.pending = .ok delivered) :
      Pushes r bytes index isEnd delivered.closeIfFinished

theorem push_cases {r after : Reassembler} {bytes : Bytes} {index : Nat} {isEnd : Bool}
    (h : r.push bytes index isEnd = .ok after) : Pushes r bytes index isEnd after := by
  unfold push at h
  simp only [bind_eq_ok, Count.add_eq_ok_iff] at h
  obtain ⟨stop, ⟨rfl, -⟩, h⟩ := h
  by_cases old : index + bytes.length ≤ r.nextIndex
  · rw [if_pos old, pure_eq_ok] at h
    subst h
    exact .behind old
  rw [if_neg old] at h
  simp only [bind_eq_ok, Count.add_eq_ok_iff] at h
  obtain ⟨windowEnd, ⟨rfl, -⟩, h⟩ := h
  by_cases far : r.nextIndex + r.capacity ≤ max index r.nextIndex
  · rw [if_pos far, pure_eq_ok] at h
    subst h
    exact .beyond (by omega) far
  rw [if_neg far] at h
  simp only [bind_eq_ok, Count.add_eq_ok_iff, Count.sub_eq_ok_iff] at h
  obtain ⟨held, ⟨rfl, -⟩, room, ⟨rfl, -⟩, h⟩ := h
  change (if (r.taken bytes index).isEmpty = true then _ else _) = _ at h
  by_cases none : r.taken bytes index = []
  · rw [if_pos (List.isEmpty_iff.mpr none), pure_eq_ok] at h
    subst h
    exact .untaken (by omega) (by omega) none
  · rw [if_neg (by rwa [List.isEmpty_iff])] at h
    simp only [bind_eq_ok, pure_eq_ok] at h
    obtain ⟨inserted, hinsert, delivered, hdeliver, rfl⟩ := h
    exact .takes (by omega) (by omega) none hinsert hdeliver

structure Follows (whole : Bytes) (ended : Bool) (r : Reassembler) : Prop where
  sound : r.output.Sound
  next_le : r.nextIndex ≤ whole.length
  pieces : HoldsPieces whole r.pending
  marked : ∀ stop, r.endIndex = some stop → ended = true ∧ stop = whole.length
  finished : r.output.ended = true → ended = true ∧ r.nextIndex = whole.length

theorem follows_ofCapacity {capacity : Nat} (fits : capacity < Cells.limit) :
    Follows [] false (ofCapacity capacity) := by
  refine ⟨ByteStream.sound_ofCapacity fits, Nat.le_refl _, ?_, ?_, ?_⟩
  · intro fragment member
    cases member
  · intro stop h
    cases h
  · intro h
    cases h

theorem Follows.grow {whole : Bytes} {ended : Bool} {r : Reassembler} (follows : Follows whole ended r)
    {more : Bytes} (open' : ended = true → more = []) : Follows (whole ++ more) ended r := by
  refine ⟨follows.sound, ?_, fun f member => (follows.pieces f member).grow more, ?_, ?_⟩
  · have next_le := follows.next_le
    rw [List.length_append]
    omega
  · intro stop h
    obtain ⟨hended, rfl⟩ := follows.marked stop h
    simp [hended, open' hended]
  · intro h
    obtain ⟨hended, hnext⟩ := follows.finished h
    simp [hended, open' hended, hnext]

theorem Follows.end_stream {whole : Bytes} {r : Reassembler} (follows : Follows whole false r) :
    Follows whole true r := by
  refine ⟨follows.sound, follows.next_le, follows.pieces, ?_, ?_⟩
  · intro stop h
    cases (follows.marked stop h).1
  · intro h
    cases (follows.finished h).1

theorem Follows.withOutput {whole : Bytes} {ended : Bool} {r : Reassembler}
    (follows : Follows whole ended r) {output : ByteStream} (sound : output.Sound)
    (ended_eq : output.ended = r.output.ended) : Follows whole ended { r with output } :=
  ⟨sound, follows.next_le, follows.pieces, follows.marked, fun finished =>
    follows.finished (ended_eq.symm.trans finished)⟩

theorem Follows.mark {whole : Bytes} {ended : Bool} {r : Reassembler}
    (follows : Follows whole ended r) {stop : Nat} {marked : Bool}
    (here : marked = true → ended = true ∧ stop = whole.length) :
    Follows whole ended (r.mark stop marked) := by
  cases marked with
  | false => exact follows
  | true =>
    refine ⟨follows.sound, follows.next_le, follows.pieces, ?_, follows.finished⟩
    intro stop' h
    cases h
    exact here rfl

theorem Follows.close {whole : Bytes} {ended : Bool} {r : Reassembler}
    (follows : Follows whole ended r) : Follows whole ended r.closeIfFinished := by
  unfold closeIfFinished
  split
  · rename_i stop hstop
    obtain ⟨hended, rfl⟩ := follows.marked stop hstop
    have next_le := follows.next_le
    split
    · exact ⟨follows.sound.finish, next_le, follows.pieces, follows.marked,
        fun _ => ⟨hended, by simp only; omega⟩⟩
    · exact follows
  · exact follows

theorem Follows.insert {whole : Bytes} {ended : Bool} {r after : Reassembler} {fragment : Fragment}
    (follows : Follows whole ended r) (piece : whole.HasAt fragment.start fragment.bytes)
    (h : r.insert fragment = .ok after) : Follows whole ended after := by
  obtain ⟨same, pieces⟩ := insert_spec h whole
  rw [same]
  exact ⟨follows.sound, follows.next_le, pieces follows.pieces piece, follows.marked,
    follows.finished⟩

theorem Follows.deliver {whole : Bytes} {ended : Bool} {r after : Reassembler} {delivered : Bytes}
    (follows : Follows whole ended r) (moved : Extends r delivered after)
    (marks : after.endIndex = r.endIndex ∧ after.output.ended = r.output.ended)
    (piece : whole.HasAt r.nextIndex delivered) (pieces : HoldsPieces whole after.pending) :
    Follows whole ended after := by
  refine ⟨moved.sound, ?_, pieces, ?_, ?_⟩
  · rw [moved.next_eq]
    by_cases none : delivered = []
    · simpa [none] using follows.next_le
    · exact piece.stop_le none
  · rw [marks.1]
    exact follows.marked
  · rw [marks.2]
    intro h
    obtain ⟨hended, hnext⟩ := follows.finished h
    rw [moved.next_eq, (moved.stays_ended h).2]
    exact ⟨hended, hnext⟩

theorem taken_hasAt {whole bytes : Bytes} {r : Reassembler} {index : Nat}
    (piece : whole.HasAt index bytes) :
    whole.HasAt (max index r.nextIndex) (r.taken bytes index) := by
  have rest := (piece.drop (max index r.nextIndex - index)).take
    (r.allowance (max index r.nextIndex))
  rwa [show index + (max index r.nextIndex - index) = max index r.nextIndex by omega] at rest

theorem push_spec {r after : Reassembler} {bytes : Bytes} {index : Nat} {isEnd : Bool}
    (sound : r.output.Sound) (h : r.push bytes index isEnd = .ok after) :
    ∃ delivered, Extends r delivered after ∧
      ∀ (whole : Bytes) (ended : Bool), Follows whole ended r → whole.HasAt index bytes →
        (isEnd = true → ended = true ∧ index + bytes.length = whole.length) →
        whole.HasAt r.nextIndex delivered ∧ Follows whole ended after := by
  have stop_marked {here : Bool} {whole : Bytes} {ended : Bool}
      (last : isEnd = true → ended = true ∧ index + bytes.length = whole.length) :
      (isEnd && here) = true → ended = true ∧ index + bytes.length = whole.length := by
    intro both
    exact last (Bool.and_eq_true_iff.mp both).1
  cases push_cases h with
  | behind | untaken =>
    refine ⟨_, (extends_mark sound _ _).trans (extends_close (extends_mark sound _ _).sound),
      fun whole ended follows piece last => ⟨Bytes.hasAt_nil whole _, ?_⟩⟩
    exact (follows.mark (stop_marked last)).close
  | beyond =>
    exact ⟨_, Extends.refl sound, fun whole ended follows _ _ => ⟨Bytes.hasAt_nil whole _, follows⟩⟩
  | @takes inserted delivered new near some hinsert hdeliver =>
    have marked := extends_mark sound (index + bytes.length)
      (isEnd && (r.taken bytes index).length == (r.fresh bytes index).length)
    have same := (insert_spec hinsert []).1
    have kept : Extends _ [] inserted :=
      Extends.of_same marked.sound (by rw [same]) (by rw [same]) (by rw [same])
    obtain ⟨moved, hmoved, marks, hpieces⟩ := deliver_spec kept.sound hdeliver
    have before := marked.trans kept
    refine ⟨_, (before.trans hmoved).trans (extends_close hmoved.sound),
      fun whole ended follows piece last => ?_⟩
    have joined := (follows.mark (stop_marked last)).insert (taken_hasAt piece) hinsert
    obtain ⟨next, pieces⟩ := hpieces whole joined.pieces
    refine ⟨?_, (joined.deliver hmoved marks next pieces).close⟩
    rw [before.next_eq] at next
    simpa using next

end TcpStack.Reassembler

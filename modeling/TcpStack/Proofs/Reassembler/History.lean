import TcpStack.Proofs.Reassembler.Holding

/-! Histories of one stream. Whatever slices of a whole are pushed, in whatever order and with whatever
overlaps and gaps, and whatever there was no room for, the bytes that left are a beginning of the whole,
those that are pending stand at their place, and the end comes only behind the last byte. -/

namespace TcpStack.Reassembler

open Outcome

/-- The call pushes a slice of the whole at its place, as the end only where the whole stops, or does no
more than take from the output. -/
inductive Call.Slices (whole : Bytes) : Call → Prop
  | push {first stop : Nat} {bytes : Bytes} {isEnd : Bool}
      (slice : whole.slice first stop = .ok bytes) (last : isEnd = true → stop = whole.length) :
      Slices whole (.push bytes first isEnd)
  | output {call : ByteStream.Call} (reads : call.reads = true) : Slices whole (.output call)

def Call.takes (r : Reassembler) : Call → Bytes
  | .push .. => []
  | .output call => call.takes r.output

def record (before : Bytes × Reassembler) (call : Call) : Except Fault (Bytes × Reassembler) := do
  let (after, _) ← before.2.perform call
  return (before.1 ++ call.takes before.2, after)

def history (capacity : Nat) (calls : List Call) : Except Fault (Bytes × Reassembler) := do
  calls.foldlM record ([], ← create capacity)

structure Rebuilds (whole : Bytes) (capacity : Nat) (read : Bytes) (r : Reassembler) : Prop where
  follows : Follows whole true r
  rests : Rests r
  capacity_eq : r.capacity = capacity
  assembled : read ++ r.output.toList = whole.take r.nextIndex

theorem rebuilds_ofCapacity (whole : Bytes) {capacity : Nat} (fits : capacity < Cells.limit) :
    Rebuilds whole capacity [] (ofCapacity capacity) := by
  have nothing : Follows ([] ++ whole) false (ofCapacity capacity) :=
    (follows_ofCapacity fits).grow fun ended => by cases ended
  refine ⟨nothing.end_stream, rests_ofCapacity fits, rfl, ?_⟩
  exact ByteStream.toList_ofCapacity capacity

variable {whole read : Bytes} {capacity : Nat} {r after : Reassembler} {call : Call}

theorem Rebuilds.push (rebuilds : Rebuilds whole capacity read r) {bytes : Bytes} {first stop : Nat}
    {isEnd : Bool} (slice : whole.slice first stop = .ok bytes)
    (last : isEnd = true → stop = whole.length) (h : r.push bytes first isEnd = .ok after) :
    Rebuilds whole capacity read after := by
  have follows := rebuilds.follows
  obtain ⟨piece, stop_eq, -⟩ := Bytes.hasAt_of_slice slice
  obtain ⟨delivered, goes, pieces⟩ := push_spec follows.sound h
  obtain ⟨next, follows'⟩ := pieces whole true follows piece fun here => ⟨rfl, stop_eq.trans (last here)⟩
  refine ⟨follows', (push_rests rebuilds.rests h).1, goes.capacity_eq.trans rebuilds.capacity_eq, ?_⟩
  rw [goes.output_eq, ← List.append_assoc, rebuilds.assembled, goes.next_eq]
  exact next.take_append follows.next_le

theorem Rebuilds.reads (rebuilds : Rebuilds whole capacity read r) {call : ByteStream.Call}
    {output : ByteStream} {reply : Reply} (reads : call.reads = true)
    (h : r.output.perform call = .ok (output, reply)) :
    Rebuilds whole capacity (read ++ call.takes r.output) { r with output } := by
  obtain ⟨count, drops, taken⟩ := ByteStream.perform_drops rebuilds.follows.sound reads h
  refine ⟨rebuilds.follows.withOutput drops.sound drops.ended_eq, rebuilds.rests.drops drops,
    rebuilds.capacity_eq, ?_⟩
  rw [taken, drops.toList_eq, List.append_assoc, List.take_append_drop]
  exact rebuilds.assembled

theorem Rebuilds.record (rebuilds : Rebuilds whole capacity read r) (slices : call.Slices whole)
    {read' : Bytes} (h : record (read, r) call = .ok (read', after)) :
    Rebuilds whole capacity read' after := by
  unfold Reassembler.record perform at h
  cases slices with
  | push slice last =>
    simp only [bind_eq_ok, pure_eq_ok] at h
    obtain ⟨_, ⟨pushed, hpush, rfl⟩, h⟩ := h
    cases h
    rw [Call.takes, List.append_nil]
    exact rebuilds.push slice last hpush
  | output reads =>
    simp only [bind_eq_ok, pure_eq_ok] at h
    obtain ⟨_, ⟨⟨output, reply⟩, houtput, rfl⟩, h⟩ := h
    cases h
    exact rebuilds.reads reads houtput

theorem Rebuilds.record_returns (rebuilds : Rebuilds whole capacity read r)
    (slices : call.Slices whole) (short : whole.length + capacity < Count.bound) :
    ∃ read' after, Reassembler.record (read, r) call = .ok (read', after) := by
  have next_le := rebuilds.follows.next_le
  have capacity_eq := rebuilds.capacity_eq
  unfold Reassembler.record perform
  cases slices with
  | @push first stop bytes isEnd slice last =>
    obtain ⟨-, stop_eq, inside⟩ := Bytes.hasAt_of_slice slice
    obtain ⟨after, hpush⟩ := push_returns bytes first isEnd rebuilds.rests (by omega) (by omega)
    simp only [hpush, ok_bind]
    exact ⟨_, _, rfl⟩
  | output reads =>
    have written := rebuilds.rests.written
    obtain ⟨output, reply, houtput⟩ :=
      ByteStream.perform_returns rebuilds.rests.sound reads (by omega)
    simp only [houtput, ok_bind]
    exact ⟨_, _, rfl⟩

theorem history_eq_ok {calls : List Call} {last : Bytes × Reassembler}
    (h : history capacity calls = .ok last) :
    capacity < Cells.limit ∧ calls.foldlM Reassembler.record ([], ofCapacity capacity) = .ok last := by
  unfold history create at h
  simp only [bind_eq_ok, pure_eq_ok] at h
  obtain ⟨_, ⟨_, fits, rfl⟩, h⟩ := h
  exact ⟨Cells.checkSize_eq_ok_iff.mp fits, h⟩

theorem history_rebuilds {calls : List Call} (slices : ∀ call ∈ calls, call.Slices whole)
    (h : history capacity calls = .ok (read, r)) : Rebuilds whole capacity read r := by
  obtain ⟨fits, h⟩ := history_eq_ok h
  exact foldlM_induction (P := fun point => Rebuilds whole capacity point.1 point.2) h
    (rebuilds_ofCapacity whole fits) fun call member before after step rebuilds =>
      rebuilds.record (slices call member) step

theorem history_returns {calls : List Call} (slices : ∀ call ∈ calls, call.Slices whole)
    (fits : capacity < Cells.limit) (short : whole.length + capacity < Count.bound) :
    ∃ read r, history capacity calls = .ok (read, r) := by
  have runs : ∃ last, calls.foldlM Reassembler.record ([], ofCapacity capacity) = .ok last ∧
      Rebuilds whole capacity last.1 last.2 := by
    refine foldlM_returns (rebuilds_ofCapacity whole fits) fun call member before rebuilds => ?_
    obtain ⟨read, after, h⟩ := rebuilds.record_returns (slices call member) short
    exact ⟨(read, after), h, rebuilds.record (slices call member) h⟩
  obtain ⟨⟨read, r⟩, h, -⟩ := runs
  refine ⟨read, r, ?_⟩
  unfold history create
  simp only [Cells.checkSize_eq_ok_iff.mpr fits, ok_bind, pure_bind]
  exact h

/-- Reassembly never corrupts the stream, and goes on as long as the positions are short of the last
counters. -/
theorem history_slices {calls : List Call} (slices : ∀ call ∈ calls, call.Slices whole) :
    (∀ read r, history capacity calls = .ok (read, r) →
      whole.slice 0 r.nextIndex = .ok (read ++ r.output.toList) ∧
      r.output.written = r.nextIndex ∧
      (∀ fragment ∈ r.pending, whole.slice fragment.start fragment.stop = .ok fragment.bytes) ∧
      (r.output.ended = true → r.nextIndex = whole.length)) ∧
    (capacity < Cells.limit → whole.length + capacity < Count.bound →
      ∃ read r, history capacity calls = .ok (read, r)) := by
  refine ⟨fun read r h => ?_, history_returns slices⟩
  have rebuilds := history_rebuilds slices h
  have follows := rebuilds.follows
  refine ⟨?_, rebuilds.rests.written, fun fragment member => ?_, fun ended =>
    (follows.finished ended).2⟩
  · rw [rebuilds.assembled]
    exact Bytes.slice_eq_ok_iff.mpr ⟨rfl, Nat.zero_le _, follows.next_le⟩
  · have piece := follows.pieces fragment member
    exact piece.slice (piece.stop_le (rebuilds.rests.some fragment member))

def torn : List Call :=
  [.push [3, 4, 5, 6] 2 false, .push [7] 6 true, .push [2, 3] 1 false, .push [1, 2, 3, 4, 5] 0 false,
    .output (.read 3), .push [6, 7] 5 true, .push [5, 6] 4 false]

theorem history_of_torn : ∃ read r, history 4 torn = .ok (read, r) ∧
    (∀ call ∈ torn, call.Slices [1, 2, 3, 4, 5, 6, 7]) ∧ r.output.ended = true ∧ r.nextIndex = 7 ∧
    read ++ r.output.toList = [1, 2, 3, 4, 5, 6, 7] := by
  have slices : ∀ call ∈ torn, call.Slices [1, 2, 3, 4, 5, 6, 7] := by
    have push {bytes : Bytes} {first : Nat} {isEnd : Bool} (stop : Nat)
        (slice : Bytes.slice [1, 2, 3, 4, 5, 6, 7] first stop = .ok bytes)
        (last : isEnd = true → stop = 7) :
        Call.Slices [1, 2, 3, 4, 5, 6, 7] (.push bytes first isEnd) := .push slice last
    unfold torn
    simp only [List.forall_mem_cons]
    exact ⟨push 6 rfl nofun, push 7 rfl (fun _ => rfl), push 3 rfl nofun, push 5 rfl nofun,
      .output rfl, push 7 rfl (fun _ => rfl), push 6 rfl nofun, nofun⟩
  have seen : (fun last : Bytes × Reassembler => (last.2.nextIndex, last.2.output.ended)) <$>
      history 4 torn = .ok (7, true) := by decide +kernel
  obtain ⟨⟨read, r⟩, h, look⟩ := map_eq_ok.mp seen
  rw [Prod.mk.injEq] at look
  obtain ⟨whole, -, -, -⟩ := (history_slices slices).1 read r h
  rw [look.1] at whole
  exact ⟨read, r, h, slices, look.2, look.1, (Bytes.slice_eq_ok_iff.mp whole).1⟩

end TcpStack.Reassembler

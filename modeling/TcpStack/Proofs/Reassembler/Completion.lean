import TcpStack.Proofs.Reassembler.Marks

/-! Reassembly comes to the whole stream. If slices of a whole cover it, one of them ends it, and the capacity
has room for the whole and the longest slice beside it, then every slice fits when it comes: what is held of the
whole only grows, and in the end it is all of it, in whatever order the slices came and however often. -/

namespace TcpStack.Reassembler

open Outcome

/-- The call pushes a slice of the whole at its place, as the end exactly if the whole stops there, or does no
more than take from the output. -/
inductive Call.Cuts (whole : Bytes) : Call → Prop
  | push {first stop : Nat} {bytes : Bytes} {isEnd : Bool}
      (slice : whole.slice first stop = .ok bytes) (last : isEnd = true ↔ stop = whole.length) :
      Cuts whole (.push bytes first isEnd)
  | output {call : ByteStream.Call} (reads : call.reads = true) : Cuts whole (.output call)

def Call.piece : Call → Fragment
  | .push bytes index _ => ⟨index, bytes⟩
  | .output _ => ⟨0, []⟩

def Call.Covers (call : Call) (i : Nat) : Prop := call.piece.start ≤ i ∧ i < call.piece.stop

variable {whole read read' : Bytes} {capacity : Nat} {r after : Reassembler} {call : Call}
  {calls : List Call}

theorem Call.Cuts.slices (cuts : call.Cuts whole) : call.Slices whole := by
  cases cuts with
  | push slice last => exact .push slice last.mp
  | output reads => exact .output reads

theorem Call.Cuts.readsOutput (cuts : call.Cuts whole) : call.readsOutput = true := by
  cases cuts with
  | push => rfl
  | output reads => exact reads

section room

variable {bytes : Bytes} {index : Nat}

theorem Rebuilds.gathered_le (rebuilds : Rebuilds whole capacity read r) :
    r.gathered ≤ whole.length := by
  have rests := rebuilds.rests
  have room : r.nextIndex + Fragment.total r.pending + (r.nextIndex - r.nextIndex) ≤ whole.length :=
    Fragment.total_add_le rests.apart
      (fun fragment member => ⟨rests.ahead fragment member,
        (rebuilds.follows.pieces fragment member).stop_le (rests.some fragment member)⟩)
      (fun fragment member => Or.inr (rests.ahead fragment member)) (Nat.le_refl _) (Nat.le_refl _)
      rebuilds.follows.next_le
  rw [gathered, rests.counted]
  omega

theorem Rebuilds.fits (rebuilds : Rebuilds whole capacity read r)
    (inside : index + bytes.length ≤ whole.length) (slack : whole.length + bytes.length ≤ capacity) :
    r.Fits bytes index := by
  have gathered_le := rebuilds.gathered_le
  have capacity_eq := rebuilds.capacity_eq
  have counted := rebuilds.rests.sound.counted
  have written := rebuilds.rests.written
  unfold gathered at gathered_le
  unfold Fits fresh allowance
  rw [List.length_drop]
  omega

theorem Rebuilds.reaches (rebuilds : Rebuilds whole capacity read r)
    (last : index + bytes.length = whole.length) (wide : 0 < whole.length → whole.length < capacity) :
    r.Reaches bytes index := by
  have next_le := rebuilds.follows.next_le
  have capacity_eq := rebuilds.capacity_eq
  unfold Reaches
  omega

end room

theorem history_gains {P : Reassembler → Prop} (cuts : ∀ call ∈ calls, call.Cuts whole)
    (member : call ∈ calls) (h : history capacity calls = .ok (read, r))
    (brings : ∀ read r read' after, Rebuilds whole capacity read r →
      Records read r call read' after → P after)
    (keeps : ∀ other ∈ calls, ∀ read r read' after, Rebuilds whole capacity read r →
      Records read r other read' after → P r → P after) : P r := by
  obtain ⟨fits, h⟩ := history_eq_ok h
  have records {other : Call} (inside : other ∈ calls) {before after : Bytes × Reassembler}
      (rebuilds : Rebuilds whole capacity before.1 before.2)
      (step : record before other = .ok after) : Records before.1 before.2 other after.1 after.2 :=
    record_records rebuilds.rests.sound (cuts other inside).readsOutput step
  refine foldlM_reaches (I := fun point => Rebuilds whole capacity point.1 point.2)
    (P := fun point => P point.2) member h (rebuilds_ofCapacity whole fits) ?_ ?_ ?_
  · exact fun other inside before after step rebuilds =>
      rebuilds.record (cuts other inside).slices step
  · exact fun before after step rebuilds => brings _ _ _ _ rebuilds (records member rebuilds step)
  · exact fun other inside before after step rebuilds =>
      keeps other inside _ _ _ _ rebuilds (records inside rebuilds step)

theorem history_holds (cuts : ∀ call ∈ calls, call.Cuts whole)
    (slack : ∀ call ∈ calls, whole.length + call.piece.bytes.length ≤ capacity)
    (h : history capacity calls = .ok (read, r)) (member : call ∈ calls) {i : Nat}
    (covers : call.Covers i) : r.Holds i := by
  refine history_gains (P := fun r => r.Holds i) cuts member h (fun read r read' after rebuilds records => ?_)
    fun other inside read r read' after rebuilds records held => ?_
  · cases records with
    | @push bytes index isEnd _ push =>
      cases cuts _ member with
      | push slice =>
        obtain ⟨-, stop_eq, stop_le⟩ := Bytes.hasAt_of_slice slice
        have fits := rebuilds.fits (Nat.le_trans (Nat.le_of_eq stop_eq) stop_le) (slack _ member)
        exact fits.holds rebuilds.rests push covers.1 covers.2
    | reads => exact absurd covers.2 (Nat.not_lt_zero i)
  · cases records with
    | push push => exact ((push_rests rebuilds.rests push).2 i).mpr (Or.inl held)
    | reads => exact held

theorem history_marked (cuts : ∀ call ∈ calls, call.Cuts whole)
    (slack : ∀ call ∈ calls, whole.length + call.piece.bytes.length ≤ capacity)
    (wide : 0 < whole.length → whole.length < capacity) (h : history capacity calls = .ok (read, r))
    (member : call ∈ calls) (tells : call.tells = some whole.length) :
    r.endIndex = some whole.length := by
  refine history_gains (P := fun r => r.endIndex = some whole.length) cuts member h
    (fun read r read' after rebuilds records => ?_)
    fun other inside read r read' after rebuilds records marked => ?_
  · cases records with
    | @push bytes index isEnd _ push =>
      cases isEnd with
      | false => cases tells
      | true =>
        have last : index + bytes.length = whole.length := Option.some.inj tells
        have counts := (counts_iff r bytes index).mpr
          ⟨rebuilds.reaches last wide, rebuilds.fits (Nat.le_of_eq last) (slack _ member)⟩
        rw [push_endIndex rebuilds.rests.sound push, counts, ← last]
        rfl
    | reads => cases tells
  · cases records with
    | @push bytes index isEnd _ push =>
      rw [push_endIndex rebuilds.rests.sound push]
      split
      · rename_i counts
        cases cuts _ inside with
        | push slice last =>
          rw [(Bytes.hasAt_of_slice slice).2.1, last.mp (Bool.and_eq_true_iff.mp counts).1]
      · exact marked
    | reads => exact marked

theorem Rebuilds.next_eq (rebuilds : Rebuilds whole capacity read r)
    (held : ∀ i < whole.length, r.Holds i) : r.nextIndex = whole.length := by
  cases ended : r.output.ended with
  | true => exact (rebuilds.follows.finished ended).2
  | false =>
    refine Nat.le_antisymm rebuilds.follows.next_le (Nat.le_of_not_lt fun short => ?_)
    rcases held _ short with left | pending
    · exact Nat.lt_irrefl _ left
    · exact pending (rebuilds.rests.missing ended)

/-- Slices that cover the whole, one of them up to its end, come to the whole: all of it has left, nothing is
pending, and the stream has ended. -/
theorem history_completes (cuts : ∀ call ∈ calls, call.Cuts whole)
    (covered : ∀ i < whole.length, ∃ call ∈ calls, call.Covers i)
    (ends : ∃ call ∈ calls, call.tells = some whole.length)
    (slack : ∀ call ∈ calls, whole.length + call.piece.bytes.length ≤ capacity) :
    (∀ read r, history capacity calls = .ok (read, r) →
      read ++ r.output.toList = whole ∧ r.output.written = whole.length ∧ r.unassembled = 0 ∧
      r.output.ended = true) ∧
    (capacity < Cells.limit → ∃ read r, history capacity calls = .ok (read, r)) := by
  obtain ⟨last, last_member, tells⟩ := ends
  have slices : ∀ call ∈ calls, call.Slices whole := fun call member => (cuts call member).slices
  refine ⟨fun read r h => ?_, fun fits => ?_⟩
  · have rebuilds := history_rebuilds slices h
    have wide : 0 < whole.length → whole.length < capacity := by
      intro some
      obtain ⟨call, member, starts, stops⟩ := covered 0 some
      have room := slack call member
      unfold Fragment.stop at stops
      omega
    have next_eq : r.nextIndex = whole.length := rebuilds.next_eq fun i inside => by
      obtain ⟨call, member, covers⟩ := covered i inside
      exact history_holds cuts slack h member covers
    have marked := history_marked cuts slack wide h last_member tells
    have prompt := (history_reached (fun call member => (cuts call member).readsOutput) h).prompt
    have gathered_le := rebuilds.gathered_le
    unfold gathered at gathered_le
    refine ⟨?_, rebuilds.rests.written.trans next_eq, by omega,
      prompt _ marked (Nat.le_of_eq next_eq.symm)⟩
    rw [rebuilds.assembled, next_eq, List.take_length]
  · have room := slack last last_member
    refine history_returns slices fits ?_
    unfold Cells.limit at fits
    omega

def shuffled : List Call :=
  [.push [4, 5] 3 true, .push [2, 3, 4] 1 false, .output (.read 1), .push [1, 2] 0 false,
    .output (.read 2), .push [2, 3, 4] 1 false, .push [] 5 true]

theorem completes_though_shuffled : ∃ read r, history 8 shuffled = .ok (read, r) ∧
    (∀ call ∈ shuffled, call.Cuts [1, 2, 3, 4, 5]) ∧ read = [1, 2] ∧
    read ++ r.output.toList = [1, 2, 3, 4, 5] ∧ r.unassembled = 0 ∧ r.output.ended = true := by
  have cuts : ∀ call ∈ shuffled, call.Cuts [1, 2, 3, 4, 5] := by
    have push {bytes : Bytes} {first : Nat} {isEnd : Bool} (stop : Nat)
        (slice : Bytes.slice [1, 2, 3, 4, 5] first stop = .ok bytes)
        (last : isEnd = true ↔ stop = 5) : Call.Cuts [1, 2, 3, 4, 5] (.push bytes first isEnd) :=
      .push slice last
    unfold shuffled
    simp only [List.forall_mem_cons]
    exact ⟨push 5 rfl (by decide), push 4 rfl (by decide), .output rfl, push 2 rfl (by decide),
      .output rfl, push 4 rfl (by decide), push 5 rfl (by decide), nofun⟩
  have covered : ∀ i < [1, 2, 3, 4, 5].length, ∃ call ∈ shuffled, call.Covers i := by
    unfold Call.Covers
    decide
  have slack : ∀ call ∈ shuffled, [1, 2, 3, 4, 5].length + call.piece.bytes.length ≤ 8 := by decide
  obtain ⟨whole, returns⟩ := history_completes cuts covered (by decide) slack
  obtain ⟨read, r, h⟩ := returns (by decide)
  obtain ⟨assembled, -, empty, ended⟩ := whole read r h
  have seen : Prod.fst <$> history 8 shuffled = .ok [1, 2] := by decide +kernel
  have read_eq : read = [1, 2] := by
    rw [h] at seen
    exact Except.ok.inj seen
  exact ⟨read, r, h, cuts, read_eq, assembled, empty, ended⟩

end TcpStack.Reassembler

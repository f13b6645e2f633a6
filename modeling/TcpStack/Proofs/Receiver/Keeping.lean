import TcpStack.Proofs.Reassembler.Holding
import TcpStack.Proofs.Receiver.Window
import TcpStack.Proofs.Sender.Progress

/-! What a receiver keeps of the segments of its peer. It holds each block of the stream as a whole or not
at all, and nothing behind its window; so a block that comes in is held already, or finds room for all of
it, or is a single byte that probes a closed window. -/

namespace TcpStack.Receiver

open Outcome

open Sender (Progress Launched)

structure Keeps (p : Progress) (r : Receiver) : Prop where
  rests : r.reassembler.Rests
  within : ∀ i, r.reassembler.Holds i → i < r.limit
  atomic : ∀ i, ¬p.cuts (i + 1) → (r.reassembler.Holds i ↔ r.reassembler.Holds (i + 1))
  follows : Follows p.sent p.fin p.isn r
  opened : r.isn ≠ none → p.cuts 0

theorem keeps_ofCapacity {capacity : Nat} (isn : SeqNum) (fits : capacity < Cells.limit) :
    Keeps (.start isn) (ofCapacity capacity) := by
  have nothing (i : Nat) : ¬(ofCapacity capacity).reassembler.Holds i := by
    rintro (left | pending)
    · exact Nat.not_lt_zero i left
    · exact pending rfl
  refine ⟨Reassembler.rests_ofCapacity fits, fun i here => absurd here (nothing i), fun i _ => ?_,
    ⟨Reassembler.follows_ofCapacity fits, fun isn known => by cases known⟩, fun known =>
    absurd rfl known⟩
  exact iff_of_false (nothing i) (nothing (i + 1))

variable {p later : Progress} {r after : Receiver} {segment : Segment} {accepted : Bool}

theorem Keeps.block (keeps : Keeps p r) {first stop : Nat} (block : p.Block first stop) {i : Nat}
    (le : first ≤ i) (lt : i < stop) : r.reassembler.Holds i ↔ r.reassembler.Holds first := by
  induction i, le using Nat.le_induction with
  | base => exact Iff.rfl
  | succ i le ih =>
    have uncut := block.uncut (i + 1) (Nat.lt_succ_of_le le) lt
    exact (keeps.atomic i uncut).symm.trans (ih (Nat.lt_of_succ_lt lt))

theorem Keeps.push (keeps : Keeps p r) {bytes : Bytes} {index : Nat} {isEnd : Bool}
    {reassembler : Reassembler} (some : bytes ≠ []) (block : p.Block index (index + bytes.length))
    (inside : index + bytes.length ≤ r.limit)
    (h : r.reassembler.push bytes index isEnd = .ok reassembler) :
    reassembler.Rests ∧ ∀ i, reassembler.Holds i ↔
      r.reassembler.Holds i ∨ index ≤ i ∧ i < index + bytes.length := by
  obtain ⟨rests, held⟩ := Reassembler.push_rests keeps.rests h
  refine ⟨rests, fun i => (held i).trans ?_⟩
  by_cases old : r.reassembler.Holds index
  · have length_eq := Reassembler.length_taken r.reassembler bytes index
    have all {i : Nat} (first : index ≤ i) (last : i < index + bytes.length) :
        r.reassembler.Holds i := (keeps.block block first last).mpr old
    constructor
    · rintro (here | ⟨first, last⟩)
      · exact Or.inl here
      · exact Or.inl (all (by omega) (by omega))
    · rintro (here | ⟨first, last⟩)
      · exact Or.inl here
      · exact Or.inl (all first last)
  · obtain ⟨start_eq, length_eq⟩ := Reassembler.taken_all keeps.rests rfl some keeps.within inside
      fun i first last here => old ((keeps.block block first last).mp here)
    rw [start_eq, length_eq]

theorem Keeps.place (keeps : Keeps p r) (short : p.sent.length + 2 < SeqNum.half) {isn : SeqNum}
    (known : r.isn = some isn) {index found : Nat} (inside : index ≤ p.sent.length)
    (seqno : segment.seqno = SeqNum.wrap (index + 1) p.isn)
    (place : segment.seqno.unwrap isn r.reassembler.nextIndex = .ok found) : found = index + 1 := by
  have next_le := keeps.follows.reassembler.next_le
  rw [seqno, keeps.follows.isn isn known] at place
  exact SeqNum.unwrap_wrap_of_lt_half (by omega) (by omega) place

theorem inside_of_overlaps {index length : Nat} (some : 0 < length)
    (fits : index + length ≤ r.limit ∨ length = 1 ∧ index ≤ r.reassembler.nextIndex)
    (overlaps : r.Overlaps index length) : index + length ≤ r.limit := by
  unfold Overlaps at overlaps
  rw [if_neg (by omega)] at overlaps
  unfold limit at *
  omega

theorem Keeps.adds (keeps : Keeps p r) (launched : Launched p r segment)
    (short : p.sent.length + 2 < SeqNum.half) (takes : Takes r segment after accepted) :
    after.reassembler.Rests ∧ ((∀ i, after.reassembler.Holds i ↔ r.reassembler.Holds i) ∨
      ∃ first stop, p.Block first stop ∧ stop ≤ r.limit ∧
        ∀ i, after.reassembler.Holds i ↔ r.reassembler.Holds i ∨ first ≤ i ∧ i < stop) := by
  have same : r.reassembler.Rests ∧ ((∀ i, r.reassembler.Holds i ↔ r.reassembler.Holds i) ∨
      ∃ first stop, p.Block first stop ∧ stop ≤ r.limit ∧
        ∀ i, r.reassembler.Holds i ↔ r.reassembler.Holds i ∨ first ≤ i ∧ i < stop) :=
    ⟨keeps.rests, Or.inl fun _ => Iff.rfl⟩
  cases takes with
  | refused => exact same
  | late => exact same
  | opens unknown syn push =>
    rw [launched.faithful.payload_of_syn syn] at push
    obtain ⟨rests, held⟩ := Reassembler.push_nothing keeps.rests push
    exact ⟨rests, Or.inl held⟩
  | @goesOn reassembler isn index known syn place open' overlaps push =>
    by_cases nothing : segment.payload = []
    · rw [nothing] at push
      obtain ⟨rests, held⟩ := Reassembler.push_nothing keeps.rests push
      exact ⟨rests, Or.inl held⟩
    obtain ⟨index', seqno, piece, block, fits⟩ := launched.block nothing
    have stop_le := piece.stop_le nothing
    have here : index = index' := Nat.succ.inj (keeps.place short known (by omega) seqno place)
    subst here
    have inside := inside_of_overlaps (List.length_pos_iff.mpr nothing) fits
      ((overlapsWindow_eq_ok overlaps).mp rfl)
    obtain ⟨rests, held⟩ := keeps.push nothing block inside push
    exact ⟨rests, Or.inr ⟨_, _, block, inside, held⟩⟩

theorem Keeps.holds (keeps : Keeps p r) (launched : Launched p r segment)
    (short : p.sent.length + 2 < SeqNum.half) (takes : Takes r segment after accepted) {i : Nat}
    (held : r.reassembler.Holds i) : after.reassembler.Holds i := by
  obtain ⟨-, same | ⟨_, _, _, _, added⟩⟩ := keeps.adds launched short takes
  · exact (same i).mpr held
  · exact (added i).mpr (Or.inl held)

theorem Keeps.takes (keeps : Keeps p r) (launched : Launched p r segment)
    (short : p.sent.length + 2 < SeqNum.half) (takes : Takes r segment after accepted) :
    Keeps p after := by
  have advances := takes.advances keeps.rests.sound
  obtain ⟨rests, added⟩ := keeps.adds launched short takes
  obtain ⟨_, -, pieces⟩ := takes.spec keeps.rests.sound
  have follows := (pieces _ _ _ short launched.faithful keeps.follows).2
  have opened : after.isn ≠ none → p.cuts 0 := by
    intro known
    cases takes with
    | refused => exact keeps.opened known
    | late _ syn => exact launched.opening syn
    | opens _ syn => exact launched.opening syn
    | goesOn known' => exact keeps.opened (by simp [known'])
  rcases added with same | ⟨first, stop, block, inside, held⟩
  · refine ⟨rests, fun i here => ?_, fun i uncut => ?_, follows, opened⟩
    · exact Nat.lt_of_lt_of_le (keeps.within i ((same i).mp here)) advances.limit
    · rw [same, same]
      exact keeps.atomic i uncut
  · refine ⟨rests, fun i here => ?_, fun i uncut => ?_, follows, opened⟩
    · refine Nat.lt_of_lt_of_le ?_ advances.limit
      rcases (held i).mp here with old | new
      · exact keeps.within i old
      · omega
    · -- no block starts or stops between the two positions
      have not_first : i + 1 ≠ first := fun here => uncut (here ▸ block.starts)
      have not_stop : i + 1 ≠ stop := fun here => uncut (here ▸ block.stops)
      rw [held, held, keeps.atomic i uncut]
      refine or_congr_right ?_
      omega

theorem Keeps.kept (keeps : Keeps p r) (launched : Launched p r segment)
    (short : p.sent.length + 2 < SeqNum.half) (known : r.isn ≠ none) (some : segment.payload ≠ [])
    (takes : Takes r segment after accepted) :
    ∃ index, segment.seqno = SeqNum.wrap (index + 1) p.isn ∧
      p.sent.HasAt index segment.payload ∧
      ((∀ i, i < segment.payload.length → after.reassembler.Holds (index + i)) ∨
        r.window = 0 ∧ segment.payload.length = 1 ∧ index = r.reassembler.nextIndex) := by
  obtain ⟨index, seqno, piece, block, fits⟩ := launched.block some
  have stop_le := piece.stop_le some
  have positive := List.length_pos_iff.mpr some
  have plain : segment.syn = false :=
    Bool.eq_false_iff.mpr fun syn => some (launched.faithful.payload_of_syn syn)
  have behind (left : index + segment.payload.length ≤ r.reassembler.nextIndex) :
      ∀ i, i < segment.payload.length → r.reassembler.Holds (index + i) :=
    fun i inside => Or.inl (by omega)
  refine ⟨index, seqno, piece, ?_⟩
  cases takes with
  | refused reason =>
    cases reason with
    | early unknown => exact absurd unknown known
    | again _ syn => simp [plain] at syn
    | ended _ finished =>
      have all := (keeps.follows.reassembler.finished finished).2
      exact Or.inl (behind (by omega))
    | before known place =>
      have found := keeps.place short known (by omega) seqno place
      omega
    | @outside isn index' known place apart =>
      have here : index' = index := Nat.succ.inj (keeps.place short known (by omega) seqno place)
      subst here
      have outside : ¬r.Overlaps index' segment.payload.length := fun overlaps => by
        simpa using (overlapsWindow_eq_ok apart).mpr overlaps
      unfold Overlaps at outside
      unfold limit at fits
      rw [if_neg (by omega)] at outside
      by_cases left : index' + segment.payload.length ≤ r.reassembler.nextIndex
      · exact Or.inl (behind left)
      · exact Or.inr (by omega)
  | late unknown => exact absurd unknown known
  | opens unknown => exact absurd unknown known
  | @goesOn reassembler isn index' known syn place open' overlaps push =>
    have here : index' = index := Nat.succ.inj (keeps.place short known (by omega) seqno place)
    subst here
    have inside := inside_of_overlaps positive fits ((overlapsWindow_eq_ok overlaps).mp rfl)
    have held := (keeps.push some block inside push).2
    exact Or.inl fun i before => (held _).mpr (Or.inr (by omega))

theorem Keeps.grow (keeps : Keeps p r) (grows : p.Grows later) : Keeps later r := by
  have follows : r.reassembler.Follows later.sent later.fin :=
    grows.carry (P := fun whole ended => r.reassembler.Follows whole ended) keeps.follows.reassembler
      (fun _ _ _ closed follows => follows.grow closed) fun _ follows => follows.end_stream
  refine ⟨keeps.rests, keeps.within, fun i uncut => ?_, ⟨follows, fun isn known => ?_⟩, fun known =>
    grows.stay 0 (keeps.opened known)⟩
  · exact keeps.atomic i fun cut => uncut (grows.stay _ cut)
  · exact (keeps.follows.isn isn known).trans grows.isn.symm

theorem Keeps.withOutput (keeps : Keeps p r) {output : ByteStream}
    (rests : Reassembler.Rests { r.reassembler with output })
    (size_le : output.size ≤ r.stream.size) (ended_eq : output.ended = r.stream.ended) :
    Keeps p { r with reassembler := { r.reassembler with output } } := by
  refine ⟨rests, fun i here => ?_, keeps.atomic, ⟨?_, keeps.follows.isn⟩, keeps.opened⟩
  · exact Nat.lt_of_lt_of_le (keeps.within i here)
      (Nat.add_le_add_left (Nat.sub_le_sub_left size_le _) _)
  · exact keeps.follows.reassembler.withOutput rests.sound ended_eq

end TcpStack.Receiver

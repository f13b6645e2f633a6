import TcpStack.Proofs.ByteStream.Queue
import TcpStack.Proofs.Reassembler.Fragments
import TcpStack.Reassembler.Call

/-! What a push can do to a reassembler. It marks an end or takes a piece in, and then moves a run of
bytes from the pending fragments to the output: `Extends` says how the output goes on, and where every
fragment is a piece of one whole, so is all that leaves. -/

namespace TcpStack.Reassembler

open Outcome

def HoldsPieces (whole : Bytes) (pending : List Fragment) : Prop :=
  ∀ fragment ∈ pending, whole.HasAt fragment.start fragment.bytes

structure Extends (r : Reassembler) (delivered : Bytes) (after : Reassembler) : Prop where
  output_eq : after.output.toList = r.output.toList ++ delivered
  next_eq : after.nextIndex = r.nextIndex + delivered.length
  written_eq : after.output.written = r.output.written + delivered.length
  consumed_eq : after.output.consumed = r.output.consumed
  failed_eq : after.output.failed = r.output.failed
  capacity_eq : after.capacity = r.capacity
  cells_eq : after.output.capacity = r.output.capacity
  stays_ended : r.output.ended = true → after.output.ended = true ∧ delivered = []
  sound : after.output.Sound

theorem Extends.refl {r : Reassembler} (sound : r.output.Sound) : Extends r [] r :=
  ⟨by simp, by simp, by simp, rfl, rfl, rfl, rfl, fun ended => ⟨ended, rfl⟩, sound⟩

theorem Extends.of_same {r after : Reassembler} (sound : r.output.Sound)
    (output : after.output = r.output) (next : after.nextIndex = r.nextIndex)
    (capacity : after.capacity = r.capacity) : Extends r [] after := by
  refine ⟨?_, next, ?_, ?_, ?_, capacity, ?_, fun ended => ⟨?_, rfl⟩, ?_⟩
  all_goals rw [output]
  · exact (List.append_nil _).symm
  · rfl
  · exact ended
  · exact sound

theorem Extends.size_eq {r after : Reassembler} {delivered : Bytes} (goes : Extends r delivered after) :
    after.output.size = r.output.size + delivered.length := by
  rw [← ByteStream.length_toList, goes.output_eq, List.length_append, ByteStream.length_toList]

theorem Extends.trans {r middle after : Reassembler} {first second : Bytes}
    (left : Extends r first middle) (right : Extends middle second after) :
    Extends r (first ++ second) after where
  output_eq := by rw [right.output_eq, left.output_eq, List.append_assoc]
  next_eq := by rw [right.next_eq, left.next_eq, List.length_append, Nat.add_assoc]
  written_eq := by rw [right.written_eq, left.written_eq, List.length_append, Nat.add_assoc]
  consumed_eq := right.consumed_eq.trans left.consumed_eq
  failed_eq := right.failed_eq.trans left.failed_eq
  capacity_eq := right.capacity_eq.trans left.capacity_eq
  cells_eq := right.cells_eq.trans left.cells_eq
  stays_ended := by
    intro ended
    obtain ⟨middle_ended, rfl⟩ := left.stays_ended ended
    exact right.stays_ended middle_ended
  sound := right.sound

def mark (r : Reassembler) (stop : Nat) (marked : Bool) : Reassembler :=
  if marked then { r with endIndex := some stop } else r

theorem extends_mark {r : Reassembler} (sound : r.output.Sound) (stop : Nat) (marked : Bool) :
    Extends r [] (r.mark stop marked) := by
  cases marked
  · exact Extends.refl sound
  · exact Extends.of_same sound rfl rfl rfl

theorem extends_close {r : Reassembler} (sound : r.output.Sound) :
    Extends r [] r.closeIfFinished := by
  unfold closeIfFinished
  split
  · split
    · exact ⟨by simp, by simp, by simp [ByteStream.finish], rfl, rfl, rfl, rfl,
        fun _ => ⟨rfl, rfl⟩, sound.finish⟩
    · exact Extends.refl sound
  · exact Extends.refl sound

def met (r : Reassembler) (fragment : Fragment) : List Fragment :=
  (Fragment.around fragment.start fragment.stop r.pending).2.1

theorem insert_eq_ok {r after : Reassembler} {fragment : Fragment}
    (h : r.insert fragment = .ok after) :
    ∃ joined kept, (r.met fragment).foldlM Fragment.join fragment = .ok joined ∧
      (r.met fragment).foldlM (fun count old => Count.sub count old.bytes.length) r.unassembled =
        .ok kept ∧
      after = { r with
        pending := Fragment.placed r.pending fragment joined
        unassembled := kept + joined.bytes.length } := by
  unfold insert at h
  simp only [bind_eq_ok, pure_eq_ok, Count.add_eq_ok_iff] at h
  obtain ⟨stop, ⟨rfl, -⟩, joined, hjoined, kept, hkept, _, ⟨rfl, -⟩, rfl⟩ := h
  exact ⟨joined, kept, hjoined, hkept, rfl⟩

theorem insert_spec {r after : Reassembler} {fragment : Fragment}
    (h : r.insert fragment = .ok after) (whole : Bytes) :
    after = { r with pending := after.pending, unassembled := after.unassembled } ∧
      (HoldsPieces whole r.pending → whole.HasAt fragment.start fragment.bytes →
        HoldsPieces whole after.pending) := by
  obtain ⟨joined, kept, hjoined, -, rfl⟩ := insert_eq_ok h
  refine ⟨rfl, fun pieces here f member => ?_⟩
  rcases Fragment.mem_placed member with rfl | old
  · refine Fragment.hasAt_iff.mpr fun i b held => ?_
    rw [(Fragment.foldlM_joins hjoined).byte?_eq, Option.or_eq_some_iff] at held
    rcases held with held | ⟨-, held⟩
    · exact Fragment.hasAt_iff.mp here i b held
    · obtain ⟨old, met, held⟩ := Fragment.mem_of_lookup held
      exact Fragment.hasAt_iff.mp (pieces old (Fragment.mem_of_met met)) i b held
  · exact pieces f old

theorem extends_of_accepts {r : Reassembler} {bytes : Bytes} {output : ByteStream} {accepted : Nat}
    (accepts : r.output.Accepts bytes output accepted) (pending : List Fragment) :
    Extends r (bytes.take accepted) { r with
      pending, output
      unassembled := r.unassembled - accepted
      nextIndex := r.nextIndex + accepted } := by
  have length_taken : (bytes.take accepted).length = accepted := by
    rw [List.length_take, Nat.min_eq_left accepts.le]
  exact ⟨accepts.toList_eq, by rw [length_taken], by rw [length_taken]; exact accepts.written_eq,
    accepts.consumed_eq, accepts.failed_eq, rfl, accepts.capacity_eq,
    fun ended => ⟨accepts.ended_eq.trans ended, by simp [accepts.eq_zero_of_ended ended]⟩,
    accepts.sound⟩

theorem deliver_spec {pending : List Fragment} {r after : Reassembler} (sound : r.output.Sound)
    (h : r.deliver pending = .ok after) :
    ∃ delivered, Extends r delivered after ∧
      (after.endIndex = r.endIndex ∧ after.output.ended = r.output.ended) ∧
      ∀ whole : Bytes, HoldsPieces whole pending →
        whole.HasAt r.nextIndex delivered ∧ HoldsPieces whole after.pending := by
  induction pending generalizing r with
  | nil =>
    unfold deliver at h
    rw [pure_eq_ok] at h
    subst h
    exact ⟨[], Extends.of_same sound rfl rfl rfl, ⟨rfl, rfl⟩,
      fun whole pieces => ⟨Bytes.hasAt_nil whole _, pieces⟩⟩
  | cons fragment rest ih =>
    unfold deliver at h
    by_cases apart : fragment.start ≠ r.nextIndex
    · rw [if_neg apart, pure_eq_ok] at h
      subst h
      exact ⟨[], Extends.of_same sound rfl rfl rfl, ⟨rfl, rfl⟩,
        fun whole pieces => ⟨Bytes.hasAt_nil whole _, pieces⟩⟩
    have here : fragment.start = r.nextIndex := not_not.mp apart
    rw [if_pos here] at h
    simp only [bind_eq_ok, Count.sub_eq_ok_iff, Count.add_eq_ok_iff] at h
    obtain ⟨⟨output, accepted⟩, hwrite, unassembled, ⟨rfl, -⟩, nextIndex, ⟨rfl, -⟩, h⟩ := h
    simp only at h
    have accepts := ByteStream.write_accepts sound hwrite
    have moved (pending : List Fragment) := extends_of_accepts accepts pending
    by_cases short : accepted < fragment.bytes.length
    · rw [if_pos short, pure_eq_ok] at h
      subst h
      refine ⟨_, moved _, ⟨rfl, accepts.ended_eq⟩, fun whole pieces => ?_⟩
      have piece := here ▸ pieces fragment (by simp)
      refine ⟨piece.take accepted, fun f member => ?_⟩
      rcases List.mem_cons.mp member with rfl | member
      · exact piece.drop accepted
      · exact pieces f (by simp [member])
    · rw [if_neg short] at h
      -- The whole fragment went, so the next one is looked at from where it ended.
      obtain ⟨later, hextends, ⟨hstop, hended⟩, hpieces⟩ := ih accepts.sound h
      refine ⟨_, (moved r.pending).trans hextends, ⟨hstop, hended.trans accepts.ended_eq⟩,
        fun whole pieces => ?_⟩
      have piece := here ▸ pieces fragment (by simp)
      obtain ⟨onward, kept⟩ := hpieces whole fun f member => pieces f (by simp [member])
      refine ⟨Bytes.hasAt_append.mpr ⟨piece.take accepted, ?_⟩, kept⟩
      rw [List.length_take, Nat.min_eq_left accepts.le]
      exact onward

end TcpStack.Reassembler

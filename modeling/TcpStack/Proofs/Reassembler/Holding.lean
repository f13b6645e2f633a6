import TcpStack.Proofs.Reassembler.Assembly

/-! What a reassembler holds. Its fragments stand apart, ahead of the next position and within the capacity,
and together with what waits to be read they are no more than the capacity; a push keeps that, and holds
afterwards what was held and the part of its piece that there was room for, and nothing else. -/

namespace TcpStack.Reassembler

open Outcome

/-- The byte at this position has left or is pending. -/
def Holds (r : Reassembler) (i : Nat) : Prop := i < r.nextIndex ∨ Fragment.lookup r.pending i ≠ none

theorem holds_iff {r : Reassembler} {i : Nat} : r.Holds i ↔ i < r.nextIndex ∨
    ∃ fragment ∈ r.pending, fragment.start ≤ i ∧ i < fragment.stop :=
  or_congr_right Fragment.lookup_ne_none_iff

structure Stores (r : Reassembler) : Prop where
  apart : Fragment.Apart r.pending
  some : ∀ fragment ∈ r.pending, fragment.bytes ≠ []
  ahead : ∀ fragment ∈ r.pending, r.nextIndex ≤ fragment.start
  within : ∀ fragment ∈ r.pending, fragment.stop ≤ r.nextIndex + r.capacity
  counted : r.unassembled = Fragment.total r.pending
  budget : r.unassembled + r.output.size ≤ r.capacity
  cells : r.output.capacity = r.capacity
  sound : r.output.Sound
  written : r.output.written = r.nextIndex

/-- Between two calls nothing more can leave: the next byte is not there, or the output has ended. -/
structure Rests (r : Reassembler) : Prop extends Stores r where
  missing : r.output.ended = false → Fragment.lookup r.pending r.nextIndex = none

theorem rests_ofCapacity {capacity : Nat} (fits : capacity < Cells.limit) :
    Rests (ofCapacity capacity) := by
  refine ⟨⟨List.Pairwise.nil, ?_, ?_, ?_, rfl, ?_, rfl, ByteStream.sound_ofCapacity fits, rfl⟩,
    fun _ => rfl⟩
  · intro fragment member
    cases member
  · intro fragment member
    cases member
  · intro fragment member
    cases member
  · exact Nat.zero_le _

variable {r after : Reassembler}

theorem Stores.mark (stores : Stores r) (stop : Nat) (marked : Bool) : Stores (r.mark stop marked) := by
  cases marked with
  | false => exact stores
  | true =>
    exact ⟨stores.apart, stores.some, stores.ahead, stores.within, stores.counted, stores.budget,
      stores.cells, stores.sound, stores.written⟩

theorem Rests.close (rests : Rests r) : Rests r.closeIfFinished := by
  unfold closeIfFinished
  split
  · split
    · exact ⟨⟨rests.apart, rests.some, rests.ahead, rests.within, rests.counted, rests.budget,
        rests.cells, rests.sound.finish, rests.written⟩, fun ended => by cases ended⟩
    · exact rests
  · exact rests

theorem foldlM_sub_lengths {met : List Fragment} {count : Nat} (le : Fragment.total met ≤ count) :
    met.foldlM (fun count old => Count.sub count old.bytes.length) count =
      .ok (count - Fragment.total met) := by
  induction met generalizing count with
  | nil => rfl
  | cons old rest ih =>
    have total_eq : Fragment.total (old :: rest) = old.bytes.length + Fragment.total rest := rfl
    have first : Count.sub count old.bytes.length = .ok (count - old.bytes.length) :=
      Count.sub_eq_ok_iff.mpr ⟨rfl, by omega⟩
    rw [List.foldlM_cons, first, ok_bind, ih (by omega), Nat.sub_sub, total_eq]

section insertion

variable {fragment : Fragment}

theorem Stores.insert (stores : Stores r) (some : fragment.bytes ≠ [])
    (ahead : r.nextIndex ≤ fragment.start) (within : fragment.stop ≤ r.nextIndex + r.capacity)
    (budget : r.unassembled + fragment.bytes.length + r.output.size ≤ r.capacity)
    (h : r.insert fragment = .ok after) :
    Stores after ∧
      ∀ i, Fragment.lookup after.pending i = (fragment.byte? i).or (Fragment.lookup r.pending i) := by
  obtain ⟨joined, kept, hjoined, hkept, rfl⟩ := insert_eq_ok h
  unfold met at hkept hjoined
  have joins := Fragment.foldlM_joins hjoined
  have total_eq := Fragment.total_placed r.pending fragment joined
  have length_le := joins.length_le
  have counted := stores.counted
  have met_le := Fragment.total_met_le fragment.start fragment.stop r.pending
  rw [foldlM_sub_lengths (by omega), Except.ok.injEq] at hkept
  have joined_some : joined.bytes ≠ [] := by
    have start_le := joins.start_le
    have le_stop := joins.le_stop
    have positive := List.length_pos_iff.mpr some
    refine List.length_pos_iff.mp ?_
    unfold Fragment.stop at le_stop
    omega
  refine ⟨⟨joins.apart stores.apart, ?_, ?_, ?_, ?_, ?_, stores.cells, stores.sound,
    stores.written⟩, joins.lookup_placed stores.apart⟩
  · intro f member
    rcases Fragment.mem_placed member with rfl | old
    · exact joined_some
    · exact stores.some f old
  · intro f member
    rcases Fragment.mem_placed member with rfl | old
    · exact joins.le_start _ ahead fun old met => stores.ahead old (Fragment.mem_of_met met)
    · exact stores.ahead f old
  · intro f member
    rcases Fragment.mem_placed member with rfl | old
    · exact joins.stop_le _ within fun old met => stores.within old (Fragment.mem_of_met met)
    · exact stores.within f old
  · simp only
    omega
  · simp only
    omega

theorem Stores.insert_returns (stores : Stores r)
    (within : fragment.stop ≤ r.nextIndex + r.capacity)
    (budget : r.unassembled + fragment.bytes.length + r.output.size ≤ r.capacity)
    (short : r.nextIndex + r.capacity < Count.bound) : ∃ after, r.insert fragment = .ok after := by
  have stop_fits : fragment.stop < Count.bound := Nat.lt_of_le_of_lt within short
  have stop_eq : Count.add fragment.start fragment.bytes.length = .ok fragment.stop :=
    Count.add_eq_ok_iff.mpr ⟨rfl, stop_fits⟩
  have meets := (Fragment.around_spec stores.apart fragment.start fragment.stop).2.1
  obtain ⟨joined, hjoined⟩ := Fragment.foldlM_join_returns stop_fits fun old member =>
    ⟨(meets old member).1, (meets old member).2,
      Nat.lt_of_le_of_lt (stores.within old (Fragment.mem_of_met member)) short⟩
  have total_eq := Fragment.total_placed r.pending fragment joined
  have length_le := (Fragment.foldlM_joins hjoined).length_le
  have counted := stores.counted
  have met_le := Fragment.total_met_le fragment.start fragment.stop r.pending
  have kept : (r.met fragment).foldlM (fun count old => Count.sub count old.bytes.length)
      r.unassembled = .ok (r.unassembled - Fragment.total (r.met fragment)) :=
    foldlM_sub_lengths (counted ▸ met_le)
  have unassembled : Count.add (r.unassembled - Fragment.total (r.met fragment))
      joined.bytes.length = .ok (r.unassembled - Fragment.total (r.met fragment) +
        joined.bytes.length) := by
    refine Count.add_eq_ok_iff.mpr ⟨rfl, ?_⟩
    unfold met
    omega
  unfold met at kept unassembled
  unfold Reassembler.insert
  simp only [stop_eq, ok_bind, hjoined, kept, unassembled]
  exact ⟨_, rfl⟩

end insertion

section delivery

theorem Stores.moved {fragment : Fragment} {rest : List Fragment} {output : ByteStream}
    (stores : Stores { r with pending := fragment :: rest }) (here : fragment.start = r.nextIndex)
    (accepts : r.output.Accepts fragment.bytes output fragment.bytes.length) :
    Stores { r with
      pending := rest, output
      unassembled := r.unassembled - fragment.bytes.length
      nextIndex := r.nextIndex + fragment.bytes.length } := by
  have behind := List.pairwise_cons.mp stores.apart
  have counted : r.unassembled = fragment.bytes.length + Fragment.total rest := stores.counted
  have budget : r.unassembled + r.output.size ≤ r.capacity := stores.budget
  have size_eq := accepts.size_eq
  have written : r.output.written = r.nextIndex := stores.written
  refine ⟨behind.2, fun other member => stores.some other (List.mem_cons_of_mem _ member),
    fun other member => ?_, fun other member => ?_, ?_, ?_, accepts.capacity_eq.trans stores.cells,
    accepts.sound, ?_⟩
  · have gap := behind.1 other member
    unfold Fragment.stop at gap
    simp only
    omega
  · have within : other.stop ≤ r.nextIndex + r.capacity :=
      stores.within other (List.mem_cons_of_mem _ member)
    simp only
    omega
  · simp only
    omega
  · simp only
    omega
  · simp only
    rw [accepts.written_eq, written]

theorem holds_moved {fragment : Fragment} {rest : List Fragment} (here : fragment.start = r.nextIndex)
    (i : Nat) : Holds { r with pending := fragment :: rest } i ↔
      Holds { r with pending := rest, nextIndex := r.nextIndex + fragment.bytes.length } i := by
  unfold Holds
  simp only [Fragment.lookup, ne_eq, Option.or_eq_none_iff, not_and_or]
  rw [← ne_eq (fragment.byte? i), Fragment.byte?_ne_none_iff, Fragment.stop, here]
  constructor
  · rintro (left | here | there)
    · exact Or.inl (by omega)
    · exact Or.inl here.2
    · exact Or.inr there
  · rintro (left | there)
    · by_cases before : i < r.nextIndex
      · exact Or.inl before
      · exact Or.inr (Or.inl ⟨by omega, left⟩)
    · exact Or.inr (Or.inr there)

theorem Stores.accepts {fragment : Fragment} {rest : List Fragment} {output : ByteStream}
    {accepted : Nat} (stores : Stores { r with pending := fragment :: rest })
    (hwrite : r.output.write fragment.bytes = .ok (output, accepted)) :
    r.output.Accepts fragment.bytes output accepted ∧
      (r.output.ended = false → accepted = fragment.bytes.length) := by
  have accepts := ByteStream.write_accepts stores.sound hwrite
  refine ⟨accepts, fun going => ?_⟩
  have counted : r.unassembled = fragment.bytes.length + Fragment.total rest := stores.counted
  have budget : r.unassembled + r.output.size ≤ r.capacity := stores.budget
  have cells : r.output.capacity = r.capacity := stores.cells
  rw [accepts.accepted_eq, going, ByteStream.room, cells]
  simp only [Bool.false_eq_true, if_false]
  omega

theorem Stores.missing {fragment : Fragment} {rest : List Fragment}
    (stores : Stores { r with pending := fragment :: rest }) (apart : fragment.start ≠ r.nextIndex) :
    Fragment.lookup (fragment :: rest) r.nextIndex = none := by
  have first : r.nextIndex ≤ fragment.start := stores.ahead fragment (by simp)
  have stop_eq : fragment.stop = fragment.start + fragment.bytes.length := rfl
  refine Fragment.lookup_eq_none_of_lt fun other member => ?_
  rcases List.mem_cons.mp member with rfl | behind
  · omega
  · have gap := (List.pairwise_cons.mp stores.apart).1 other behind
    omega

theorem Stores.refused {bytes : Bytes} {output : ByteStream} (stores : Stores r)
    (accepts : r.output.Accepts bytes output 0) : Stores { r with output } := by
  have size_eq : output.size = r.output.size := accepts.size_eq
  exact ⟨stores.apart, stores.some, stores.ahead, stores.within, stores.counted,
    size_eq ▸ stores.budget, accepts.capacity_eq.trans stores.cells, accepts.sound,
    accepts.written_eq.trans stores.written⟩

theorem deliver_rests {pending : List Fragment} (stores : Stores { r with pending })
    (h : r.deliver pending = .ok after) :
    Rests after ∧ ∀ i, after.Holds i ↔ Holds { r with pending } i := by
  induction pending generalizing r with
  | nil =>
    unfold deliver at h
    rw [pure_eq_ok] at h
    subst h
    exact ⟨⟨stores, fun _ => rfl⟩, fun i => Iff.rfl⟩
  | cons fragment rest ih =>
    unfold deliver at h
    by_cases apart : fragment.start ≠ r.nextIndex
    · rw [if_neg apart, pure_eq_ok] at h
      subst h
      exact ⟨⟨stores, fun _ => stores.missing apart⟩, fun i => Iff.rfl⟩
    have here : fragment.start = r.nextIndex := not_not.mp apart
    rw [if_pos here] at h
    simp only [bind_eq_ok, Count.sub_eq_ok_iff, Count.add_eq_ok_iff] at h
    obtain ⟨⟨output, accepted⟩, hwrite, unassembled, ⟨rfl, -⟩, nextIndex, ⟨rfl, -⟩, h⟩ := h
    simp only at h
    obtain ⟨accepts, whole⟩ := stores.accepts hwrite
    cases ended : r.output.ended with
    | true =>
      -- an output that has ended takes nothing, so the fragment stays where it is
      have none := accepts.eq_zero_of_ended ended
      subst none
      have some : 0 < fragment.bytes.length :=
        List.length_pos_iff.mpr (stores.some fragment (by simp))
      have same : (⟨r.nextIndex + 0, fragment.bytes.drop 0⟩ : Fragment) = fragment := by
        rw [List.drop_zero, Nat.add_zero, ← here]
      rw [if_pos some, pure_eq_ok, same] at h
      subst h
      refine ⟨⟨stores.refused accepts, fun going => ?_⟩, fun i => Iff.rfl⟩
      rw [accepts.ended_eq, ended] at going
      cases going
    | false =>
      have all := whole ended
      subst all
      rw [if_neg (Nat.lt_irrefl _)] at h
      obtain ⟨rests, held⟩ := ih (stores.moved here accepts) h
      exact ⟨rests, fun i => (held i).trans (holds_moved here i).symm⟩

theorem deliver_returns {pending : List Fragment} (stores : Stores { r with pending })
    (fits : ∀ fragment ∈ pending, fragment.stop < Count.bound) :
    ∃ after, r.deliver pending = .ok after := by
  induction pending generalizing r with
  | nil => exact ⟨_, rfl⟩
  | cons fragment rest ih =>
    unfold deliver
    by_cases apart : fragment.start ≠ r.nextIndex
    · rw [if_neg apart]
      exact ⟨_, rfl⟩
    have here : fragment.start = r.nextIndex := not_not.mp apart
    have stop_fits := fits fragment (by simp)
    have counted : r.unassembled = fragment.bytes.length + Fragment.total rest := stores.counted
    have written : r.output.written = r.nextIndex := stores.written
    unfold Fragment.stop at stop_fits
    obtain ⟨output, accepted, hwrite⟩ :=
      ByteStream.write_returns fragment.bytes stores.sound (by simp only; omega)
    obtain ⟨accepts, whole⟩ := stores.accepts hwrite
    have accepted_le := accepts.le
    have left : Count.sub r.unassembled accepted = .ok (r.unassembled - accepted) :=
      Count.sub_eq_ok_iff.mpr ⟨rfl, by omega⟩
    have next : Count.add r.nextIndex accepted = .ok (r.nextIndex + accepted) :=
      Count.add_eq_ok_iff.mpr ⟨rfl, by omega⟩
    simp only [if_pos here, hwrite, ok_bind, left, next]
    by_cases short : accepted < fragment.bytes.length
    · rw [if_pos short]
      exact ⟨_, rfl⟩
    · have all : accepted = fragment.bytes.length := by omega
      subst all
      rw [if_neg short]
      exact ih (stores.moved here accepts) fun other member => fits other (by simp [member])

theorem Stores.takes {fragment : Fragment} {inserted : Reassembler} (stores : Stores r)
    (some : fragment.bytes ≠ []) (ahead : r.nextIndex ≤ fragment.start)
    (within : fragment.stop ≤ r.nextIndex + r.capacity)
    (budget : r.unassembled + fragment.bytes.length + r.output.size ≤ r.capacity)
    (hinsert : r.insert fragment = .ok inserted)
    (hdeliver : inserted.deliver inserted.pending = .ok after) :
    Rests after ∧ ∀ i, after.Holds i ↔ r.Holds i ∨ fragment.start ≤ i ∧ i < fragment.stop := by
  obtain ⟨stores', held⟩ := stores.insert some ahead within budget hinsert
  obtain ⟨rests, kept⟩ := deliver_rests stores' hdeliver
  have next_eq : inserted.nextIndex = r.nextIndex := by rw [(insert_spec hinsert []).1]
  refine ⟨rests, fun i => ?_⟩
  rw [kept]
  unfold Holds
  simp only [next_eq, held, ne_eq, Option.or_eq_none_iff, not_and_or]
  rw [← ne_eq (fragment.byte? i), Fragment.byte?_ne_none_iff]
  tauto

theorem Stores.takes_returns (stores : Stores r) (fragment : Fragment) (some : fragment.bytes ≠ [])
    (ahead : r.nextIndex ≤ fragment.start) (within : fragment.stop ≤ r.nextIndex + r.capacity)
    (budget : r.unassembled + fragment.bytes.length + r.output.size ≤ r.capacity)
    (short : r.nextIndex + r.capacity < Count.bound) :
    ∃ inserted, r.insert fragment = .ok inserted ∧
      ∃ after, inserted.deliver inserted.pending = .ok after := by
  obtain ⟨inserted, hinsert⟩ := stores.insert_returns within budget short
  obtain ⟨stores', -⟩ := stores.insert some ahead within budget hinsert
  have same := (insert_spec hinsert []).1
  refine ⟨inserted, hinsert, deliver_returns stores' fun other member => ?_⟩
  have inside : other.stop ≤ inserted.nextIndex + inserted.capacity := stores'.within other member
  rw [same] at inside
  exact Nat.lt_of_le_of_lt inside short

end delivery

section pushing

variable {bytes : Bytes} {index : Nat} {isEnd : Bool}

@[simp] theorem mark_nextIndex (r : Reassembler) (stop : Nat) (marked : Bool) :
    (r.mark stop marked).nextIndex = r.nextIndex := by
  cases marked <;> rfl

@[simp] theorem mark_capacity (r : Reassembler) (stop : Nat) (marked : Bool) :
    (r.mark stop marked).capacity = r.capacity := by
  cases marked <;> rfl

@[simp] theorem mark_pending (r : Reassembler) (stop : Nat) (marked : Bool) :
    (r.mark stop marked).pending = r.pending := by
  cases marked <;> rfl

@[simp] theorem mark_unassembled (r : Reassembler) (stop : Nat) (marked : Bool) :
    (r.mark stop marked).unassembled = r.unassembled := by
  cases marked <;> rfl

@[simp] theorem mark_output (r : Reassembler) (stop : Nat) (marked : Bool) :
    (r.mark stop marked).output = r.output := by
  cases marked <;> rfl

@[simp] theorem holds_mark (r : Reassembler) (stop : Nat) (marked : Bool) (i : Nat) :
    (r.mark stop marked).Holds i ↔ r.Holds i := by
  unfold Holds
  simp

@[simp] theorem holds_close (r : Reassembler) (i : Nat) : r.closeIfFinished.Holds i ↔ r.Holds i := by
  unfold closeIfFinished
  split
  · split <;> exact Iff.rfl
  · exact Iff.rfl

theorem length_taken (r : Reassembler) (bytes : Bytes) (index : Nat) :
    (r.taken bytes index).length = min (r.allowance (max index r.nextIndex))
      (bytes.length - (max index r.nextIndex - index)) := by
  rw [taken, fresh, List.length_take, List.length_drop]

theorem Rests.mark (rests : Rests r) (stop : Nat) (marked : Bool) : Rests (r.mark stop marked) := by
  refine ⟨rests.toStores.mark stop marked, ?_⟩
  cases marked <;> exact rests.missing

theorem Rests.withOutput (rests : Rests r) {output : ByteStream} (sound : output.Sound)
    (size_le : output.size ≤ r.output.size) (capacity_eq : output.capacity = r.output.capacity)
    (written_eq : output.written = r.output.written) (ended_eq : output.ended = r.output.ended) :
    Rests { r with output } := by
  have budget := rests.budget
  refine ⟨⟨rests.apart, rests.some, rests.ahead, rests.within, rests.counted, ?_,
    capacity_eq.trans rests.cells, sound, written_eq.trans rests.written⟩, fun going => ?_⟩
  · simp only
    omega
  · exact rests.missing (ended_eq.symm.trans going)

theorem Rests.drops (rests : Rests r) {output : ByteStream} {count : Nat}
    (drops : r.output.Drops count output) : Rests { r with output } :=
  rests.withOutput drops.sound drops.size_le drops.capacity_eq drops.written_eq drops.ended_eq

theorem taken_fits (bytes : Bytes) (rests : Rests r)
    (near : max index r.nextIndex < r.nextIndex + r.capacity) :
    Fragment.stop ⟨max index r.nextIndex, r.taken bytes index⟩ ≤ r.nextIndex + r.capacity ∧
      r.unassembled + (r.taken bytes index).length + r.output.size ≤ r.capacity := by
  have budget := rests.budget
  have length_eq := length_taken r bytes index
  unfold allowance at length_eq
  unfold Fragment.stop
  simp only
  omega

theorem push_rests (rests : Rests r) (h : r.push bytes index isEnd = .ok after) :
    Rests after ∧ ∀ i, after.Holds i ↔ r.Holds i ∨ max index r.nextIndex ≤ i ∧
      i < max index r.nextIndex + (r.taken bytes index).length := by
  have length_eq := length_taken r bytes index
  have nothing (none : (r.taken bytes index).length = 0) (i : Nat) :
      (r.Holds i ↔ r.Holds i ∨ max index r.nextIndex ≤ i ∧
        i < max index r.nextIndex + (r.taken bytes index).length) := by
    refine (or_iff_left ?_).symm
    omega
  cases push_cases h with
  | behind old =>
    refine ⟨(rests.mark _ _).close, fun i => ?_⟩
    rw [holds_close, holds_mark]
    exact nothing (by omega) i
  | beyond new far =>
    have none : r.allowance (max index r.nextIndex) = 0 := by
      unfold allowance
      omega
    exact ⟨rests, nothing (by omega)⟩
  | untaken new near none =>
    refine ⟨(rests.mark _ _).close, fun i => ?_⟩
    rw [holds_close, holds_mark]
    exact nothing (List.length_eq_zero_iff.mpr none) i
  | @takes inserted delivered new near some hinsert hdeliver =>
    obtain ⟨within, budget⟩ := taken_fits bytes rests near
    have ahead : r.nextIndex ≤ max index r.nextIndex := Nat.le_max_right _ _
    obtain ⟨rests', held⟩ := (rests.toStores.mark _ _).takes some (by rwa [mark_nextIndex])
      (by simpa using within) (by simpa using budget) hinsert hdeliver
    refine ⟨rests'.close, fun i => ?_⟩
    rw [holds_close, held, holds_mark]
    rfl

theorem push_returns (bytes : Bytes) (index : Nat) (isEnd : Bool) (rests : Rests r)
    (fits : index + bytes.length < Count.bound) (short : r.nextIndex + r.capacity < Count.bound) :
    ∃ after, r.push bytes index isEnd = .ok after := by
  have stop : Count.add index bytes.length = .ok (index + bytes.length) :=
    Count.add_eq_ok_iff.mpr ⟨rfl, fits⟩
  have windowEnd : Count.add r.nextIndex r.capacity = .ok (r.nextIndex + r.capacity) :=
    Count.add_eq_ok_iff.mpr ⟨rfl, short⟩
  have budget := rests.budget
  have held : Count.add r.unassembled r.output.size = .ok (r.unassembled + r.output.size) :=
    Count.add_eq_ok_iff.mpr ⟨rfl, by omega⟩
  unfold push
  simp only [stop, ok_bind]
  by_cases old : index + bytes.length ≤ r.nextIndex
  · rw [if_pos old]
    exact ⟨_, rfl⟩
  rw [if_neg old, windowEnd, ok_bind]
  by_cases far : r.nextIndex + r.capacity ≤ max index r.nextIndex
  · rw [if_pos far]
    exact ⟨_, rfl⟩
  have room : Count.sub (r.nextIndex + r.capacity) (max index r.nextIndex) =
      .ok (r.nextIndex + r.capacity - max index r.nextIndex) :=
    Count.sub_eq_ok_iff.mpr ⟨rfl, by omega⟩
  simp only [if_neg far, held, room, ok_bind]
  change ∃ after, (if (r.taken bytes index).isEmpty = true then _ else _) = _
  by_cases none : (r.taken bytes index).isEmpty = true
  · rw [if_pos none]
    exact ⟨_, rfl⟩
  obtain ⟨within, budget⟩ := taken_fits bytes rests (Nat.lt_of_not_le far)
  have ahead : r.nextIndex ≤ max index r.nextIndex := Nat.le_max_right _ _
  obtain ⟨inserted, hinsert, delivered, hdeliver⟩ := (rests.toStores.mark (index + bytes.length)
    (isEnd && (r.taken bytes index).length == (r.fresh bytes index).length)).takes_returns
      ⟨max index r.nextIndex, r.taken bytes index⟩ (by rwa [List.isEmpty_iff] at none)
      (by rwa [mark_nextIndex]) (by simpa using within) (by simpa using budget)
      (by simpa using short)
  rw [if_neg none]
  refine ⟨delivered.closeIfFinished, ?_⟩
  simp only [bind_eq_ok, pure_eq_ok]
  exact ⟨inserted, hinsert, delivered, hdeliver, rfl⟩

theorem push_nothing {r after : Reassembler} {index : Nat} {isEnd : Bool} (rests : Rests r)
    (h : r.push [] index isEnd = .ok after) : Rests after ∧ ∀ i, after.Holds i ↔ r.Holds i := by
  obtain ⟨rests', held⟩ := push_rests rests h
  have length_eq := length_taken r [] index
  rw [List.length_nil, Nat.zero_sub, Nat.min_zero] at length_eq
  refine ⟨rests', fun i => (held i).trans (or_iff_left ?_)⟩
  omega

theorem taken_all {r : Reassembler} {bytes : Bytes} {index limit : Nat} (rests : Rests r)
    (limit_eq : limit = r.nextIndex + r.window) (some : bytes ≠ [])
    (within : ∀ i, r.Holds i → i < limit) (inside : index + bytes.length ≤ limit)
    (free : ∀ i, index ≤ i → i < index + bytes.length → ¬r.Holds i) :
    max index r.nextIndex = index ∧ (r.taken bytes index).length = bytes.length := by
  have positive := List.length_pos_iff.mpr some
  have ahead : r.nextIndex ≤ index := by
    by_contra before
    exact free index (Nat.le_refl _) (by omega) (Or.inl (by omega))
  have held {fragment : Fragment} (member : fragment ∈ r.pending) {i : Nat}
      (starts : fragment.start ≤ i) (stops : i < fragment.stop) : r.Holds i :=
    Or.inr (Fragment.lookup_ne_none_iff.mpr ⟨fragment, member, starts, stops⟩)
  have fragment_positive {fragment : Fragment} (member : fragment ∈ r.pending) :
      fragment.start < fragment.stop :=
    Nat.lt_add_of_pos_right (List.length_pos_iff.mpr (rests.some fragment member))
  have room : r.nextIndex + Fragment.total r.pending + (index + bytes.length - index) ≤ limit := by
    refine Fragment.total_add_le rests.apart (fun fragment member => ⟨rests.ahead fragment member, ?_⟩)
      (fun fragment member => ?_) ahead (Nat.le_add_right _ _) inside
    · have positive := fragment_positive member
      have last := within (fragment.stop - 1) (held member (by omega) (by omega))
      omega
    · have positive := fragment_positive member
      by_contra meets
      exact free (max index fragment.start) (by omega) (by omega)
        (held member (by omega) (by omega))
  have counted := rests.counted
  have budget := rests.budget
  refine ⟨Nat.max_eq_left ahead, ?_⟩
  unfold Reassembler.window at limit_eq
  rw [length_taken, Nat.max_eq_left ahead, Nat.sub_self, Nat.sub_zero]
  unfold allowance
  omega

end pushing

section gathering

def gathered (r : Reassembler) : Nat := r.nextIndex + r.unassembled

@[simp] theorem gathered_close (r : Reassembler) : r.closeIfFinished.gathered = r.gathered := by
  unfold closeIfFinished
  split
  · split <;> rfl
  · rfl

@[simp] theorem gathered_mark (r : Reassembler) (stop : Nat) (marked : Bool) :
    (r.mark stop marked).gathered = r.gathered := by
  cases marked <;> rfl

theorem Stores.gathered_insert_le {fragment : Fragment} (stores : Stores r)
    (h : r.insert fragment = .ok after) : after.gathered ≤ r.gathered + fragment.bytes.length := by
  obtain ⟨joined, kept, hjoined, hkept, rfl⟩ := insert_eq_ok h
  unfold met at hkept hjoined
  have counted := stores.counted
  have met_le := Fragment.total_met_le fragment.start fragment.stop r.pending
  have length_le := (Fragment.foldlM_joins hjoined).length_le
  rw [foldlM_sub_lengths (by omega), Except.ok.injEq] at hkept
  unfold gathered
  simp only
  omega

theorem gathered_deliver {pending : List Fragment} (h : r.deliver pending = .ok after) :
    after.gathered = r.gathered := by
  induction pending generalizing r with
  | nil =>
    unfold deliver at h
    rw [pure_eq_ok] at h
    exact h ▸ rfl
  | cons fragment rest ih =>
    unfold deliver at h
    by_cases apart : fragment.start ≠ r.nextIndex
    · rw [if_neg apart, pure_eq_ok] at h
      exact h ▸ rfl
    rw [if_pos (not_not.mp apart)] at h
    simp only [bind_eq_ok, Count.sub_eq_ok_iff, Count.add_eq_ok_iff] at h
    obtain ⟨⟨output, accepted⟩, -, unassembled, ⟨rfl, accepted_le⟩, nextIndex, ⟨rfl, -⟩, h⟩ := h
    have moved : r.nextIndex + accepted + (r.unassembled - accepted) = r.gathered := by
      unfold gathered
      omega
    simp only at h
    split at h
    · rw [pure_eq_ok] at h
      exact h ▸ moved
    · exact (ih h).trans moved

theorem Rests.gathered_push_le {bytes : Bytes} {index : Nat} {isEnd : Bool} (rests : Rests r)
    (h : r.push bytes index isEnd = .ok after) : after.gathered ≤ r.gathered + bytes.length := by
  have length_eq := length_taken r bytes index
  cases push_cases h with
  | behind | untaken =>
    rw [gathered_close, gathered_mark]
    exact Nat.le_add_right _ _
  | beyond => exact Nat.le_add_right _ _
  | @takes inserted delivered _ _ _ hinsert hdeliver =>
    have inserted_le := (rests.toStores.mark _ _).gathered_insert_le hinsert
    rw [gathered_mark] at inserted_le
    rw [gathered_close, gathered_deliver hdeliver]
    simp only at inserted_le
    omega

end gathering

end TcpStack.Reassembler

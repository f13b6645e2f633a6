import TcpStack.Proofs.Receiver.Intake

/-! Which segments have a part in the receive window, as conditions on positions, and that the question
has an answer as long as the positions are far from the last counters. -/

namespace TcpStack.Receiver

open Outcome

/-- No bytes at all stand in the window, or at its start; bytes begin before its end and stop behind its
start. -/
def Overlaps (r : Receiver) (index length : Nat) : Prop :=
  if length = 0 then
    index = r.reassembler.nextIndex ∨
      r.reassembler.nextIndex < index ∧ index < r.reassembler.nextIndex + r.window
  else index < r.reassembler.nextIndex + r.window ∧ r.reassembler.nextIndex < index + length

variable {r : Receiver} {segment : Segment} {isn : SeqNum} {index length : Nat}

theorem overlapsWindow_eq_ok {overlaps : Bool} (h : r.overlapsWindow index length = .ok overlaps) :
    overlaps = true ↔ r.Overlaps index length := by
  unfold overlapsWindow Reassembler.checkedWindow at h
  simp only [bind_eq_ok, Count.sub_eq_ok_iff, Count.add_eq_ok_iff] at h
  obtain ⟨width, ⟨rfl, -⟩, stop, ⟨rfl, -⟩, h⟩ := h
  unfold Overlaps window Reassembler.window
  by_cases empty : length = 0
  · rw [if_pos empty, pure_eq_ok] at h
    rw [if_pos empty, ← h]
    simp
  rw [if_neg empty] at h ⊢
  by_cases before : index < r.reassembler.nextIndex +
      (r.reassembler.capacity - r.reassembler.output.size)
  · rw [if_pos before] at h
    simp only [bind_eq_ok, pure_eq_ok, Count.add_eq_ok_iff] at h
    obtain ⟨_, ⟨rfl, -⟩, rfl⟩ := h
    simp [before]
  · rw [if_neg before, pure_eq_ok] at h
    rw [← h]
    simp [before]

theorem overlapsWindow_returns (index : Nat) (fits : r.stream.size ≤ r.reassembler.capacity)
    (short : r.reassembler.nextIndex + r.reassembler.capacity + length < Count.bound) :
    ∃ overlaps, r.overlapsWindow index length = .ok overlaps := by
  have width : r.reassembler.checkedWindow = .ok r.window :=
    Count.sub_eq_ok_iff.mpr ⟨rfl, fits⟩
  have window_le : r.window ≤ r.reassembler.capacity := Nat.sub_le _ _
  have stop : Count.add r.reassembler.nextIndex r.window =
      .ok (r.reassembler.nextIndex + r.window) := Count.add_eq_ok_iff.mpr ⟨rfl, by omega⟩
  unfold overlapsWindow
  simp only [width, stop, bind_eq_ok, Except.ok.injEq, exists_eq_left']
  by_cases empty : length = 0
  · rw [if_pos empty]
    exact ⟨_, rfl⟩
  rw [if_neg empty]
  by_cases before : index < r.reassembler.nextIndex + r.window
  · have last : Count.add index length = .ok (index + length) :=
      Count.add_eq_ok_iff.mpr ⟨rfl, by omega⟩
    rw [if_pos before, last]
    exact ⟨_, rfl⟩
  · rw [if_neg before]
    exact ⟨_, rfl⟩

/-- A SYN counts as one at the start of the stream, whatever its number. -/
def InWindow (r : Receiver) (isn : SeqNum) (segment : Segment) : Prop :=
  segment.syn = true ∧ r.Overlaps 0 segment.payload.length ∨
    segment.syn = false ∧ ∃ index,
      segment.seqno.unwrap isn r.reassembler.nextIndex = .ok (index + 1) ∧
        r.Overlaps index segment.payload.length

theorem inWindow_eq_ok {inside : Bool} (known : r.isn = some isn)
    (h : r.inWindow segment = .ok inside) : inside = true ↔ r.InWindow isn segment := by
  unfold inWindow at h
  simp only [known, bind_eq_ok] at h
  obtain ⟨place, hplace, h⟩ := h
  unfold InWindow
  cases syn : segment.syn with
  | true =>
    rw [streamIndex_of_syn syn, Except.ok.injEq] at hplace
    subst hplace
    simp [overlapsWindow_eq_ok h]
  | false =>
    obtain ⟨absolute, hunwrap, ⟨rfl, rfl⟩ | ⟨index, rfl, rfl⟩⟩ := streamIndex_eq_ok syn hplace
    · cases h
      simp [hunwrap]
    · simp [hunwrap, overlapsWindow_eq_ok h]

theorem unwrap_of_inWindow {inside : Bool} (known : r.isn = some isn) (syn : segment.syn = false)
    (h : r.inWindow segment = .ok inside) :
    ∃ absolute, segment.seqno.unwrap isn r.reassembler.nextIndex = .ok absolute := by
  unfold inWindow at h
  simp only [known, bind_eq_ok] at h
  obtain ⟨place, hplace, -⟩ := h
  obtain ⟨absolute, hunwrap, -⟩ := streamIndex_eq_ok syn hplace
  exact ⟨absolute, hunwrap⟩

theorem inWindow_returns (segment : Segment) (known : r.isn = some isn)
    (fits : r.stream.size ≤ r.reassembler.capacity)
    (short : r.reassembler.nextIndex + r.reassembler.capacity + segment.payload.length +
      2 * SeqNum.cycle ≤ Count.bound) : ∃ inside, r.inWindow segment = .ok inside := by
  have cycle_eq := SeqNum.cycle_eq
  unfold inWindow
  simp only [known]
  cases syn : segment.syn with
  | true =>
    rw [streamIndex_of_syn syn]
    exact overlapsWindow_returns 0 fits (by omega)
  | false =>
    have near : r.reassembler.nextIndex + 2 * SeqNum.cycle ≤ Count.bound := by omega
    obtain ⟨absolute, hunwrap⟩ := SeqNum.unwrap_returns segment.seqno isn near
    unfold streamIndex
    simp only [syn, Bool.false_eq_true, if_false, hunwrap]
    cases absolute with
    | zero => exact ⟨false, rfl⟩
    | succ index => exact overlapsWindow_returns index fits (by omega)

/-- The numbers that may be sent into the window. -/
def Admits (r : Receiver) (absolute : Nat) : Prop :=
  r.reassembler.nextIndex + 1 ≤ absolute ∧ absolute < r.reassembler.nextIndex + 1 + r.window

/-- One of the `length` numbers from `absolute` on may be sent into the window; if there are none,
`absolute` is the next one or may be sent itself. -/
def Meets (r : Receiver) (absolute length : Nat) : Prop :=
  if length = 0 then absolute = r.reassembler.nextIndex + 1 ∨ r.Admits absolute
  else ∃ position, absolute ≤ position ∧ position < absolute + length ∧ r.Admits position

theorem overlaps_iff (r : Receiver) (index length : Nat) : r.Overlaps index length ↔
    r.Meets (index + 1) length ∨ r.window = 0 ∧ index < r.reassembler.nextIndex ∧
      r.reassembler.nextIndex < index + length := by
  unfold Overlaps Meets Admits
  by_cases empty : length = 0
  · rw [if_pos empty, if_pos empty]
    omega
  rw [if_neg empty, if_neg empty]
  constructor
  · rintro ⟨before, behind⟩
    by_cases closed : r.window = 0
    · exact Or.inr ⟨closed, by omega, behind⟩
    · exact Or.inl ⟨max (index + 1) (r.reassembler.nextIndex + 1), by omega⟩
  · rintro (⟨position, first, last, low, high⟩ | ⟨closed, before, behind⟩)
    · omega
    · omega

theorem inWindow_iff (r : Receiver) (isn : SeqNum) (segment : Segment) :
    r.InWindow isn segment ↔
      segment.syn = true ∧ r.Overlaps 0 segment.payload.length ∨
      segment.syn = false ∧ ∃ index,
        segment.seqno.unwrap isn r.reassembler.nextIndex = .ok (index + 1) ∧
        (r.Meets (index + 1) segment.payload.length ∨
          r.window = 0 ∧ index < r.reassembler.nextIndex ∧
            r.reassembler.nextIndex < index + segment.payload.length) := by
  unfold InWindow
  simp only [overlaps_iff r _ segment.payload.length]

theorem checkedAckno_returns (known : r.isn = some isn)
    (short : r.reassembler.nextIndex + 2 < Count.bound) :
    r.checkedAckno = .ok (some (SeqNum.wrap r.ackPosition isn)) := by
  have flag := r.reassembler.finished.toNat_le
  have next : Count.add r.reassembler.nextIndex 1 = .ok (r.reassembler.nextIndex + 1) :=
    Count.add_eq_ok_iff.mpr ⟨rfl, by omega⟩
  have position : Count.add (r.reassembler.nextIndex + 1) r.reassembler.finished.toNat =
      .ok r.ackPosition := Count.add_eq_ok_iff.mpr ⟨rfl, by omega⟩
  unfold checkedAckno
  simp only [known, next, bind_eq_ok, Except.ok.injEq, exists_eq_left', pure_eq_ok]
  exact ⟨_, position, rfl⟩

theorem ackno_of_known (known : r.isn = some isn) :
    r.ackno = some (SeqNum.wrap r.ackPosition isn) := by
  unfold Receiver.ackno
  rw [known, Option.map_some]

end TcpStack.Receiver

import TcpStack.Basic

/-! Pieces of a byte string: `whole.HasAt index piece` says that every byte of the piece is the byte of
the whole at its place. An empty piece is had everywhere, also past the end. -/

namespace TcpStack.Bytes

def HasAt (whole : Bytes) (index : Nat) (piece : Bytes) : Prop :=
  ∀ i, i < piece.length → whole[index + i]? = piece[i]?

variable {whole piece first second : Bytes} {index count : Nat}

theorem hasAt_nil (whole : Bytes) (index : Nat) : whole.HasAt index [] := by
  intro i h
  simp at h

theorem HasAt.stop_le (h : whole.HasAt index piece) (some : piece ≠ []) :
    index + piece.length ≤ whole.length := by
  have positive := List.length_pos_iff.mpr some
  have last := h (piece.length - 1) (by omega)
  rw [List.getElem?_eq_getElem (show piece.length - 1 < piece.length by omega)] at last
  have inside := (List.getElem?_eq_some_iff.mp last).1
  omega

theorem hasAt_append : whole.HasAt index (first ++ second) ↔
    whole.HasAt index first ∧ whole.HasAt (index + first.length) second := by
  unfold HasAt
  rw [List.length_append]
  constructor
  · intro h
    constructor
    · intro i hi
      rw [h i (by omega), List.getElem?_append_left hi]
    · intro i hi
      have at_i := h (first.length + i) (by omega)
      rw [List.getElem?_append_right (by omega), Nat.add_sub_cancel_left] at at_i
      rwa [Nat.add_assoc]
  · rintro ⟨hfirst, hsecond⟩ i hi
    by_cases inside : i < first.length
    · rw [hfirst i inside, List.getElem?_append_left inside]
    · have at_i := hsecond (i - first.length) (by omega)
      rw [List.getElem?_append_right (by omega), ← at_i]
      congr 1
      omega

theorem hasAt_append_right (first second : Bytes) :
    Bytes.HasAt (first ++ second) first.length second := by
  intro i hi
  rw [List.getElem?_append_right (Nat.le_add_right _ _), Nat.add_sub_cancel_left]

theorem HasAt.take (h : whole.HasAt index piece) (count : Nat) :
    whole.HasAt index (piece.take count) := by
  rw [← List.take_append_drop count piece, hasAt_append] at h
  exact h.1

theorem HasAt.drop (h : whole.HasAt index piece) (count : Nat) :
    whole.HasAt (index + count) (piece.drop count) := by
  by_cases inside : count ≤ piece.length
  · rw [← List.take_append_drop count piece, hasAt_append, List.length_take,
      Nat.min_eq_left inside] at h
    exact h.2
  · rw [List.drop_of_length_le (by omega)]
    exact hasAt_nil whole _

theorem HasAt.grow (h : whole.HasAt index piece) (more : Bytes) :
    Bytes.HasAt (whole ++ more) index piece := by
  intro i hi
  have inside : index + i < whole.length := by
    have value := h i hi
    rw [List.getElem?_eq_getElem hi] at value
    exact (List.getElem?_eq_some_iff.mp value).1
  rw [List.getElem?_append_left inside]
  exact h i hi

theorem hasAt_drop_take (whole : Bytes) (index count : Nat) :
    whole.HasAt index ((whole.drop index).take count) := by
  intro i hi
  rw [List.length_take] at hi
  rw [List.getElem?_take, if_pos (by omega), List.getElem?_drop]

theorem HasAt.take_append (h : whole.HasAt index piece) (inside : index ≤ whole.length) :
    whole.take index ++ piece = whole.take (index + piece.length) := by
  refine List.ext_getElem? fun i => ?_
  rw [List.getElem?_append, List.length_take, Nat.min_eq_left inside]
  by_cases before : i < index
  · rw [if_pos before, List.getElem?_take, List.getElem?_take, if_pos before, if_pos (by omega)]
  · rw [if_neg before, List.getElem?_take]
    by_cases here : i < index + piece.length
    · have value := h (i - index) (by omega)
      rw [if_pos here, ← value]
      congr 1
      omega
    · rw [if_neg here, List.getElem?_eq_none (by omega)]

theorem hasAt_of_slice {stop : Nat} (h : whole.slice index stop = .ok piece) :
    whole.HasAt index piece ∧ index + piece.length = stop ∧ stop ≤ whole.length := by
  obtain ⟨rfl, le, inside⟩ := slice_eq_ok_iff.mp h
  have length_eq : ((whole.take stop).drop index).length = stop - index := by
    rw [List.length_drop, List.length_take, Nat.min_eq_left inside]
  refine ⟨?_, by omega, inside⟩
  have piece := (hasAt_drop_take whole index (stop - index))
  rwa [← List.drop_take] at piece

theorem HasAt.slice (h : whole.HasAt index piece) (inside : index + piece.length ≤ whole.length) :
    whole.slice index (index + piece.length) = .ok piece := by
  refine slice_eq_ok_iff.mpr ⟨?_, Nat.le_add_right _ _, inside⟩
  have before := h.take_append (by omega)
  rw [← before, List.drop_append_of_le_length (by rw [List.length_take]; omega),
    List.drop_of_length_le (List.length_take_le _ _), List.nil_append]

end TcpStack.Bytes

import TcpStack.ByteStream.Ring

/-! What the operations of a ring do to the bytes it holds: `append` puts its bytes behind them, `front`
reads the first of them and `dropFront` takes the first of them away. A ring of a size that can be had never faults. -/

namespace TcpStack
namespace Ring

theorem mod_capacity {ring : Ring} {n : Nat} (h : n < 2 * ring.capacity) :
    n % ring.capacity = if n < ring.capacity then n else n - ring.capacity := by
  split
  · exact Nat.mod_eq_of_lt ‹_›
  · rw [Nat.mod_eq_sub_mod (by omega), Nat.mod_eq_of_lt (by omega)]

theorem place_of_lt {ring : Ring} {i : Nat} (h : ring.head + i < ring.capacity) :
    ring.place i = ring.head + i := if_pos h

theorem place_of_le {ring : Ring} {i : Nat} (h : ring.capacity ≤ ring.head + i) :
    ring.place i = ring.head + i - ring.capacity := if_neg (Nat.not_lt.mpr h)

theorem append_eq_ok {ring : Ring} {bytes : Bytes} (h : ring.Valid) (some : 0 < bytes.length)
    (room : ring.size + bytes.length ≤ ring.capacity) (fits : ring.capacity < Cells.limit) :
    ∃ after, ring.append bytes = .ok after ∧ after.toList = ring.toList ++ bytes ∧
      after.capacity = ring.capacity ∧ after.size = ring.size + bytes.length ∧ after.Valid := by
  have hh := h.head_lt
  have hs := h.size_le
  have twice : 2 * ring.capacity ≤ Count.bound := by unfold Cells.limit at fits; omega
  have bounded : ring.head + ring.size < Count.bound := by omega
  have hmod : (ring.head + ring.size) % ring.capacity = _ := mod_capacity (by omega)
  generalize htail : (ring.head + ring.size) % ring.capacity = tail at hmod
  have tail_lt : tail < ring.capacity := by rw [hmod]; split <;> omega
  have size_cells : ring.cells.size = ring.capacity := rfl
  let first := min bytes.length (ring.capacity - tail)
  let kept := Cells.fill (Cells.fill ring.cells.kept tail (bytes.take first)) 0 (bytes.drop first)
  refine ⟨{ ring with cells := ⟨ring.capacity, kept⟩, size := ring.size + bytes.length },
    ?_, ?_, rfl, rfl, ⟨hh, room⟩⟩
  · have h1 : tail + (bytes.take first).length ≤ ring.cells.size := by
      simp only [List.length_take, first]
      omega
    have h2 : 0 + (bytes.drop first).length ≤ ring.cells.size := by
      simp only [List.length_drop, first]
      omega
    simp only [append, Count.add, Count.rem, Count.sub, Cells.overwrite, bind, Except.bind, pure,
      Except.pure, if_pos bounded, htail, if_neg (show ring.capacity ≠ 0 by omega),
      if_pos (Nat.le_of_lt tail_lt), if_pos (show ring.size + bytes.length < Count.bound by omega)]
    rw [if_pos h1]
    simp only []
    rw [if_pos h2]
    rfl
  · refine List.ext_getElem? fun i => ?_
    rw [getElem?_toList, List.getElem?_append, length_toList, getElem?_toList]
    show (if i < ring.size + bytes.length then Option.some (kept.getD (ring.place i) 0) else none) = _
    by_cases hi : i < ring.size
    · have apart : ¬(tail ≤ ring.place i ∧ ring.place i < tail + (bytes.take first).length) ∧
          ¬(0 ≤ ring.place i ∧ ring.place i < 0 + (bytes.drop first).length) := by
        simp only [List.length_take, List.length_drop, first]
        by_cases hp : ring.head + i < ring.capacity
        · rw [place_of_lt hp]
          split at hmod <;> omega
        · rw [place_of_le (by omega)]
          split at hmod <;> omega
      rw [if_pos (by omega), if_pos hi, if_pos hi, Cells.getD_fill, if_neg apart.2,
        Cells.getD_fill, if_neg apart.1]
      rfl
    · obtain ⟨j, rfl⟩ : ∃ j, i = ring.size + j := ⟨i - ring.size, by omega⟩
      rw [if_neg hi, Nat.add_sub_cancel_left]
      by_cases hj : j < bytes.length
      · have here : ring.place (ring.size + j) =
            if j < ring.capacity - tail then tail + j else j - (ring.capacity - tail) := by
          by_cases hp : ring.head + (ring.size + j) < ring.capacity
          · rw [place_of_lt hp]
            split at hmod <;> split <;> omega
          · rw [place_of_le (by omega)]
            split at hmod <;> split <;> omega
        rw [if_pos (by omega), here, Cells.getD_fill, Cells.getD_fill]
        simp only [List.getD_eq_getElem?_getD, List.getElem?_take, List.getElem?_drop,
          List.length_take, List.length_drop, first]
        by_cases hn : j < ring.capacity - tail
        · rw [if_pos hn, if_neg (by split at hmod <;> omega), if_pos (by omega),
            if_pos (by omega), Nat.add_sub_cancel_left, List.getElem?_eq_getElem hj]
          rfl
        · rw [if_neg hn, if_pos (by omega), show min bytes.length (ring.capacity - tail) +
            (j - (ring.capacity - tail) - 0) = j by omega, List.getElem?_eq_getElem hj]
          rfl
      · rw [if_neg (by omega), List.getElem?_eq_none (by omega)]

theorem front_eq_ok {ring : Ring} (h : ring.Valid) (count : Nat) :
    ring.front count = .ok (ring.toList.take count) := by
  have hh := h.head_lt
  have hs := h.size_le
  have size_cells : ring.cells.size = ring.capacity := rfl
  by_cases hc : min count ring.size = 0
  · have : ring.toList.take count = [] := by
      rw [← List.length_eq_zero_iff, List.length_take, length_toList]
      exact hc
    simp [front, hc, this, pure, Except.pure]
  · simp only [front, Count.sub, Cells.slice, bind, Except.bind, pure, Except.pure, if_neg hc,
      if_pos (show ring.head ≤ ring.capacity by omega)]
    rw [if_pos (by omega)]
    simp only []
    rw [if_pos (by omega)]
    refine congrArg _ (List.ext_getElem? fun i => ?_)
    rw [List.getElem?_take, getElem?_toList, List.getElem?_append, Cells.getElem?_map_range,
      Cells.getElem?_map_range, List.length_map, List.length_range]
    by_cases hi : i < min count ring.size
    · by_cases hp : ring.head + i < ring.capacity
      · rw [if_pos (by omega), if_pos (by omega), if_pos (by omega), if_pos (by omega),
          place_of_lt hp]
      · rw [if_neg (by omega), if_pos (by omega), if_pos (by omega), if_pos (by omega),
          place_of_le (by omega)]
        exact congrArg (fun i => some (ring.cells.get i)) (by omega)
    · rw [if_neg (by omega), if_neg (by omega)]
      split
      · rw [if_neg (by omega)]
      · rfl

theorem dropFront_eq_ok {ring : Ring} (h : ring.Valid) (count : Nat)
    (fits : ring.capacity < Cells.limit) :
    ∃ after, ring.dropFront count = .ok (after, min count ring.size) ∧
      after.toList = ring.toList.drop count ∧ after.capacity = ring.capacity ∧
      after.size = ring.size - count ∧ after.Valid := by
  have hh := h.head_lt
  have hs := h.size_le
  have twice : 2 * ring.capacity ≤ Count.bound := by unfold Cells.limit at fits; omega
  by_cases hc : min count ring.size = 0
  · refine ⟨ring, ?_, ?_, rfl, by omega, h⟩
    · simp [dropFront, hc, pure, Except.pure]
    · rcases Nat.min_eq_zero_iff.mp hc with rfl | hz
      · rfl
      · rw [List.drop_of_length_le (by rw [length_toList]; omega),
          ← List.length_eq_zero_iff, length_toList, hz]
  · have bounded : ring.head + min count ring.size < Count.bound := by omega
    have hmod : (ring.head + min count ring.size) % ring.capacity = _ := mod_capacity (by omega)
    generalize hhead : (ring.head + min count ring.size) % ring.capacity = head at hmod
    have head_lt : head < ring.capacity := by rw [hmod]; split <;> omega
    refine ⟨{ ring with head, size := ring.size - min count ring.size }, ?_, ?_, rfl, ?_,
      Or.inl head_lt, ?_⟩
    · simp only [dropFront, Count.add, Count.rem, Count.sub, bind, Except.bind, pure, Except.pure,
        if_neg hc, if_pos bounded, if_neg (show ring.capacity ≠ 0 by omega), hhead,
        if_pos (Nat.min_le_right count ring.size)]
    · refine List.ext_getElem? fun i => ?_
      rw [getElem?_toList, List.getElem?_drop, getElem?_toList]
      show (if i < ring.size - min count ring.size then
        some (ring.cells.get (place { ring with head } i)) else none) = _
      by_cases hi : count + i < ring.size
      · rw [if_pos (by omega), if_pos hi]
        refine congrArg (fun i => some (ring.cells.get i)) ?_
        show (if head + i < ring.capacity then head + i else head + i - ring.capacity) =
          if ring.head + (count + i) < ring.capacity then ring.head + (count + i)
          else ring.head + (count + i) - ring.capacity
        split at hmod <;> split <;> split <;> omega
      · rw [if_neg (by omega), if_neg hi]
    · show ring.size - min count ring.size = ring.size - count
      omega
    · show ring.size - min count ring.size ≤ ring.capacity
      omega

end Ring
end TcpStack

import TcpStack.Basic

/-! Storage cells, addressed by position. A cell holds zero until it is written, and only the cells up to
the last one written are kept, so cells that are never used cost nothing. Reading a range and writing
one are refused if the range is not inside the cells. -/

namespace TcpStack

/-- The cells past the `kept` ones hold zero. -/
structure Cells where
  size : Nat
  kept : Array UInt8 := #[]

namespace Cells

/-- The first number of cells that cannot be had. -/
def limit : Nat := Count.bound / 2

def checkSize (size : Nat) : Except Fault Unit :=
  if size < limit then .ok () else .error .tooLarge

def get (cells : Cells) (i : Nat) : UInt8 := cells.kept.getD i 0

def slice (cells : Cells) (first stop : Nat) : Except Fault Bytes :=
  if first ≤ stop ∧ stop ≤ cells.size then
    .ok ((List.range (stop - first)).map fun i => cells.get (first + i))
  else .error .outOfRange

def put (kept : Array UInt8) (i : Nat) (b : UInt8) : Array UInt8 :=
  if i < kept.size then kept.setIfInBounds i b
  else (kept ++ Array.replicate (i - kept.size) 0).push b

def fill (kept : Array UInt8) (first : Nat) : Bytes → Array UInt8
  | [] => kept
  | b :: rest => fill (put kept first b) (first + 1) rest

def overwrite (cells : Cells) (first : Nat) (bytes : Bytes) : Except Fault Cells :=
  if first + bytes.length ≤ cells.size then .ok { cells with kept := fill cells.kept first bytes }
  else .error .outOfRange

theorem checkSize_eq_ok_iff {size : Nat} : checkSize size = .ok () ↔ size < limit := by
  unfold checkSize
  split <;> simp_all

theorem getElem?_map_range (f : Nat → UInt8) (n i : Nat) :
    ((List.range n).map f)[i]? = if i < n then some (f i) else none := by
  by_cases h : i < n
  · rw [if_pos h, List.getElem?_map, List.getElem?_range h]
    rfl
  · rw [if_neg h, List.getElem?_eq_none]
    rw [List.length_map, List.length_range]
    omega

theorem getD_put (kept : Array UInt8) (i : Nat) (b : UInt8) (j : Nat) :
    (put kept i b).getD j 0 = if j = i then b else kept.getD j 0 := by
  unfold put
  simp only [Array.getD_eq_getD_getElem?]
  split
  · rw [Array.getElem?_setIfInBounds]
    grind
  · rw [Array.getElem?_push, Array.getElem?_append, Array.getElem?_replicate]
    simp only [Array.size_append, Array.size_replicate]
    grind

theorem getD_fill (kept : Array UInt8) (first : Nat) (bytes : Bytes) (i : Nat) :
    (fill kept first bytes).getD i 0 =
      if first ≤ i ∧ i < first + bytes.length then bytes.getD (i - first) 0
      else kept.getD i 0 := by
  induction bytes generalizing kept first with
  | nil =>
    have none_written : ¬(first ≤ i ∧ i < first + ([] : Bytes).length) := by
      rw [List.length_nil]
      omega
    rw [if_neg none_written, fill]
  | cons b rest ih =>
    rw [fill, ih, getD_put, List.length_cons]
    rcases Nat.lt_trichotomy i first with h | rfl | h
    · rw [if_neg (by omega), if_neg (by omega), if_neg (by omega)]
    · rw [if_neg (by omega), if_pos rfl, if_pos (by omega), Nat.sub_self]
      rfl
    · obtain ⟨k, rfl⟩ : ∃ k, i = first + 1 + k := ⟨i - (first + 1), by omega⟩
      rw [Nat.add_sub_cancel_left, Nat.add_assoc first 1 k, Nat.add_sub_cancel_left,
        Nat.add_comm 1 k, List.getD_cons_succ]
      split
      · rw [if_pos (by omega)]
      · rw [if_neg (by omega), if_neg (by omega)]

end Cells
end TcpStack

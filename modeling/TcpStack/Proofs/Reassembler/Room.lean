import TcpStack.Proofs.Reassembler.Holding

/-! How much of a piece inside the window there is room for. The room is what is left of the capacity by
the bytes that wait and the pending ones, and it is the same whether the piece meets pending bytes or not:
those that it has in common with them are counted against it a second time. -/

namespace TcpStack.Reassembler

open Outcome

/-- How many bytes a push may take. -/
def spare (r : Reassembler) : Nat := r.window - r.unassembled

/-- The output has ended if all before the end mark has left. -/
def Prompt (r : Reassembler) : Prop :=
  ∀ stop, r.endIndex = some stop → stop ≤ r.nextIndex → r.output.ended = true

@[simp] theorem close_endIndex (r : Reassembler) : r.closeIfFinished.endIndex = r.endIndex := by
  unfold closeIfFinished
  split
  · split <;> rfl
  · rfl

@[simp] theorem close_nextIndex (r : Reassembler) : r.closeIfFinished.nextIndex = r.nextIndex := by
  unfold closeIfFinished
  split
  · split <;> rfl
  · rfl

theorem prompt_ofCapacity (capacity : Nat) : (ofCapacity capacity).Prompt := by
  intro stop marked
  cases marked

theorem prompt_close (r : Reassembler) : r.closeIfFinished.Prompt := by
  intro stop marked left
  rw [close_endIndex] at marked
  rw [close_nextIndex] at left
  unfold closeIfFinished
  simp only [marked, if_pos left]
  rfl

variable {r after : Reassembler} {bytes : Bytes} {index : Nat} {isEnd : Bool}

theorem Prompt.withOutput (prompt : r.Prompt) {output : ByteStream}
    (ended_eq : output.ended = r.output.ended) : Prompt { r with output } :=
  fun stop marked left => ended_eq.trans (prompt stop marked left)

theorem Prompt.close (prompt : r.Prompt) : r.closeIfFinished = r := by
  unfold closeIfFinished
  split
  · rename_i stop marked
    split
    · rename_i left
      rw [ByteStream.finish_of_ended (prompt stop marked left)]
    · rfl
  · rfl

theorem push_prompt (prompt : r.Prompt) (h : r.push bytes index isEnd = .ok after) :
    after.Prompt := by
  cases push_cases h with
  | behind | untaken | takes => exact prompt_close _
  | beyond => exact prompt

theorem Prompt.push_nothing (prompt : r.Prompt) (h : r.push [] index false = .ok after) : after = r := by
  have taken_eq : r.taken [] index = [] := by
    unfold taken fresh
    rw [List.drop_nil, List.take_nil]
  cases push_cases h with
  | behind | untaken => exact prompt.close
  | beyond => rfl
  | takes _ _ some => exact absurd taken_eq some

/-- There is room for all of the piece that has not left. -/
def Fits (r : Reassembler) (bytes : Bytes) (index : Nat) : Prop :=
  (r.fresh bytes index).length ≤ r.allowance (max index r.nextIndex)

instance (r : Reassembler) (bytes : Bytes) (index : Nat) : Decidable (r.Fits bytes index) :=
  inferInstanceAs (Decidable (_ ≤ _))

theorem Fits.taken_eq (fits : r.Fits bytes index) : r.taken bytes index = r.fresh bytes index :=
  List.take_of_length_le fits

theorem fits_iff (r : Reassembler) (bytes : Bytes) (index : Nat) :
    r.Fits bytes index ↔ (r.taken bytes index).length = (r.fresh bytes index).length := by
  rw [Fits, taken, List.length_take]
  omega

theorem Fits.holds (fits : r.Fits bytes index) (rests : Rests r)
    (h : r.push bytes index isEnd = .ok after) {i : Nat} (starts : index ≤ i)
    (stops : i < index + bytes.length) : after.Holds i := by
  rw [(push_rests rests h).2, fits.taken_eq, fresh, List.length_drop]
  by_cases left : i < r.nextIndex
  · exact Or.inl (Or.inl left)
  · exact Or.inr (by omega)

theorem byte?_fresh (r : Reassembler) (bytes : Bytes) (index i : Nat) :
    Fragment.byte? ⟨max index r.nextIndex, r.fresh bytes index⟩ i =
      if max index r.nextIndex ≤ i then Fragment.byte? ⟨index, bytes⟩ i else none := by
  have dropped := Fragment.byte?_drop index bytes (max index r.nextIndex - index) i
  rwa [Nat.add_sub_cancel' (Nat.le_max_left _ _)] at dropped

theorem length_taken_inside (bytes : Bytes) (ahead : r.nextIndex ≤ index)
    (inside : index + bytes.length ≤ r.nextIndex + r.window) :
    (r.taken bytes index).length = min r.spare bytes.length := by
  rw [length_taken, Nat.max_eq_left ahead]
  unfold allowance spare
  unfold Reassembler.window at *
  omega

theorem takes_marks {inserted : Reassembler} {fragment : Fragment} (sound : r.output.Sound)
    (hinsert : r.insert fragment = .ok inserted)
    (hdeliver : inserted.deliver inserted.pending = .ok after) :
    after.endIndex = r.endIndex ∧ after.output.ended = r.output.ended ∧
      r.nextIndex ≤ after.nextIndex := by
  have same := (insert_spec hinsert []).1
  obtain ⟨moved, goes, ⟨endIndex_eq, ended_eq⟩, -⟩ := deliver_spec (by rw [same]; exact sound) hdeliver
  have next_eq := goes.next_eq
  rw [same] at endIndex_eq ended_eq next_eq
  refine ⟨endIndex_eq, ended_eq, ?_⟩
  simp only at next_eq
  omega

theorem push_inside (rests : Rests r) (ahead : r.nextIndex ≤ index)
    (inside : index + bytes.length ≤ r.nextIndex + r.window)
    (near : index = r.nextIndex ∨ index < r.nextIndex + r.window)
    (h : r.push bytes index isEnd = .ok after) :
    (∀ i, after.Holds i ↔ r.Holds i ∨ index ≤ i ∧ i < index + min r.spare bytes.length) ∧
      after.endIndex = if isEnd = true ∧ bytes.length ≤ r.spare then some (index + bytes.length)
        else r.endIndex := by
  have length_eq := length_taken_inside bytes ahead inside
  have fresh_eq : (r.fresh bytes index).length = bytes.length := by
    rw [fresh, Nat.max_eq_left ahead, Nat.sub_self, List.drop_zero]
  refine ⟨fun i => ?_, ?_⟩
  · rw [(push_rests rests h).2, Nat.max_eq_left ahead, length_eq]
  have mark_eq (here : Bool) (counts : here = true ↔ isEnd = true ∧ bytes.length ≤ r.spare) :
      (r.mark (index + bytes.length) here).endIndex =
        if isEnd = true ∧ bytes.length ≤ r.spare then some (index + bytes.length)
        else r.endIndex := by
    cases here with
    | false => exact (if_neg fun both => by cases counts.mpr both).symm
    | true => exact (if_pos (counts.mp rfl)).symm
  have whole : (isEnd && (r.taken bytes index).length == (r.fresh bytes index).length) = true ↔
      isEnd = true ∧ bytes.length ≤ r.spare := by
    rw [Bool.and_eq_true, beq_iff_eq, length_eq, fresh_eq]
    exact and_congr_right fun _ => by omega
  cases push_cases h with
  | behind old =>
    rw [close_endIndex]
    refine mark_eq _ ?_
    rw [Bool.and_eq_true, beq_iff_eq]
    exact and_congr_right fun _ => by omega
  | beyond new far =>
    unfold Reassembler.window at *
    omega
  | untaken =>
    rw [close_endIndex]
    exact mark_eq _ whole
  | @takes inserted delivered _ _ _ hinsert hdeliver =>
    rw [close_endIndex, (takes_marks (rests.toStores.mark _ _).sound hinsert hdeliver).1]
    exact mark_eq _ whole

theorem push_next (rests : Rests r) (prompt : r.Prompt) (going : r.output.ended = false)
    (some : bytes ≠ []) (wide : 0 < r.window) (h : r.push bytes r.nextIndex isEnd = .ok after) :
    if 0 < r.spare then r.nextIndex < after.nextIndex else after = r := by
  have positive := List.length_pos_iff.mpr some
  have max_eq : max r.nextIndex r.nextIndex = r.nextIndex := Nat.max_self _
  have length_eq := length_taken r bytes r.nextIndex
  rw [max_eq, Nat.sub_self, Nat.sub_zero] at length_eq
  have fresh_eq : r.fresh bytes r.nextIndex = bytes := by
    rw [fresh, max_eq, Nat.sub_self, List.drop_zero]
  unfold allowance at length_eq
  unfold spare
  unfold Reassembler.window at *
  cases push_cases h with
  | behind old => omega
  | beyond new far => omega
  | untaken new near none =>
    rw [none, List.length_nil] at length_eq
    have unmarked : (isEnd && (r.taken bytes r.nextIndex).length ==
        (r.fresh bytes r.nextIndex).length) = false := by
      rw [none, fresh_eq, List.length_nil, Bool.and_eq_false_iff, beq_eq_false_iff_ne]
      exact Or.inr (by omega)
    rw [if_neg (by omega), unmarked]
    exact prompt.close
  | @takes inserted delivered new near taken hinsert hdeliver =>
    have taken_positive := List.length_pos_iff.mpr taken
    rw [if_pos (by omega), close_nextIndex]
    obtain ⟨within, budget⟩ := taken_fits bytes rests near
    obtain ⟨rests', held⟩ := (rests.toStores.mark _ _).takes taken (by simp)
      (by simpa using within) (by simpa using budget) hinsert hdeliver
    obtain ⟨-, ended_eq, next_le⟩ := takes_marks (rests.toStores.mark _ _).sound hinsert hdeliver
    -- the next byte is held now, and what goes on does not keep it back
    have here : delivered.Holds r.nextIndex := (held _).mpr (Or.inr ⟨by simp, by
      unfold Fragment.stop
      simp only
      omega⟩)
    have missing := rests'.missing (by rw [ended_eq, mark_output, going])
    rw [mark_nextIndex] at next_le
    by_contra stays
    have stands : delivered.nextIndex = r.nextIndex := by omega
    rcases here with left | pending
    · omega
    · rw [← stands] at pending
      exact pending missing

end TcpStack.Reassembler

import TcpStack.Proofs.Reassembler.History
import TcpStack.Proofs.Reassembler.Room

/-! Delivery, and histories of pieces that need not agree with each other. No two pending fragments touch, so
at most one of them can leave after a push, and it leaves as a whole: the output always has room for it. What
this rests on holds after every history, whatever the pieces say. -/

namespace TcpStack.Reassembler

open Outcome

variable {r after : Reassembler} {bytes : Bytes} {index : Nat} {isEnd : Bool}

/-- How a store of fragments is divided into what leaves and what is kept. Nothing leaves if the output has
ended or the next byte is missing, and else the first fragment does. -/
inductive Delivery (r : Reassembler) : (store : List Fragment) → (run : Bytes) →
    (kept : List Fragment) → Prop
  | stays {store : List Fragment}
      (still : r.output.ended = true ∨ Fragment.lookup store r.nextIndex = none) :
      Delivery r store [] store
  | leaves {fragment : Fragment} {rest : List Fragment} (going : r.output.ended = false)
      (here : fragment.start = r.nextIndex) :
      Delivery r (fragment :: rest) fragment.bytes rest

section dividing

variable {store kept : List Fragment} {run : Bytes}

theorem Delivery.of_same {other : Reassembler} (delivery : Delivery other store run kept)
    (ended_eq : other.output.ended = r.output.ended) (next_eq : other.nextIndex = r.nextIndex) :
    Delivery r store run kept := by
  cases delivery with
  | stays still => exact .stays (by rwa [ended_eq, next_eq] at still)
  | leaves going here => exact .leaves (by rwa [ended_eq] at going) (by rwa [next_eq] at here)

theorem Delivery.whole (delivery : Delivery r store run kept) :
    ∃ gone, store = gone ++ kept ∧ run = gone.flatMap Fragment.bytes := by
  cases delivery with
  | stays => exact ⟨[], rfl, rfl⟩
  | @leaves fragment => exact ⟨[fragment], rfl, by simp⟩

theorem Delivery.eq_nil_of_ended (delivery : Delivery r store run kept)
    (ended : r.output.ended = true) : run = [] ∧ kept = store := by
  cases delivery with
  | stays => exact ⟨rfl, rfl⟩
  | leaves going =>
    rw [ended] at going
    cases going

theorem Delivery.missing (delivery : Delivery r store run kept) (apart : Fragment.Apart store)
    (going : r.output.ended = false) : Fragment.lookup store (r.nextIndex + run.length) = none := by
  cases delivery with
  | stays still =>
    rw [going] at still
    exact still.resolve_left nofun
  | @leaves fragment _ _ here =>
    rw [← here]
    exact apart.lookup_stop

theorem Delivery.run_eq (delivery : Delivery r store run kept) {i : Nat} (inside : i < run.length) :
    Fragment.lookup store (r.nextIndex + i) = run[i]? := by
  cases delivery with
  | stays => exact absurd inside (Nat.not_lt_zero i)
  | @leaves fragment _ _ here =>
    rw [Fragment.lookup, Fragment.byte?, if_pos (by omega), here, Nat.add_sub_cancel_left,
      List.getElem?_eq_getElem inside, Option.some_or]

theorem Delivery.kept_eq (delivery : Delivery r store run kept) (apart : Fragment.Apart store) (i : Nat) :
    Fragment.lookup kept i =
      if r.nextIndex ≤ i ∧ i < r.nextIndex + run.length then none else Fragment.lookup store i := by
  cases delivery with
  | stays =>
    rw [List.length_nil, Nat.add_zero, if_neg fun inside => Nat.not_lt_of_le inside.1 inside.2]
  | @leaves fragment _ _ here =>
    rw [← here]
    change _ = if fragment.start ≤ i ∧ i < fragment.stop then none else _
    split
    · rename_i inside
      exact apart.lookup_rest (Nat.le_of_lt inside.2)
    · rename_i outside
      have nothing : fragment.byte? i = none := by
        rw [Fragment.byte?_eq_none_iff]
        omega
      rw [Fragment.lookup, nothing, Option.none_or]

end dividing

theorem deliver_of_behind {pending : List Fragment}
    (behind : ∀ fragment ∈ pending, fragment.start ≠ r.nextIndex) :
    r.deliver pending = .ok { r with pending } := by
  cases pending with
  | nil => rfl
  | cons fragment rest =>
    unfold deliver
    rw [if_neg (behind fragment (by simp))]
    rfl

theorem deliver_delivery {pending : List Fragment} (stores : Stores { r with pending })
    (h : r.deliver pending = .ok after) :
    ∃ run, Delivery r pending run after.pending ∧ Extends r run after := by
  cases pending with
  | nil =>
    rw [deliver_of_behind (by simp), Except.ok.injEq] at h
    subst h
    exact ⟨[], .stays (Or.inr rfl), Extends.of_same stores.sound rfl rfl rfl⟩
  | cons fragment rest =>
    unfold deliver at h
    by_cases apart : fragment.start ≠ r.nextIndex
    · rw [if_neg apart, pure_eq_ok] at h
      subst h
      exact ⟨[], .stays (Or.inr (stores.missing apart)), Extends.of_same stores.sound rfl rfl rfl⟩
    have here : fragment.start = r.nextIndex := not_not.mp apart
    rw [if_pos here] at h
    simp only [bind_eq_ok, Count.sub_eq_ok_iff, Count.add_eq_ok_iff] at h
    obtain ⟨⟨output, accepted⟩, hwrite, unassembled, ⟨rfl, -⟩, nextIndex, ⟨rfl, -⟩, h⟩ := h
    simp only at h
    obtain ⟨accepts, whole⟩ := stores.accepts hwrite
    have moved (pending : List Fragment) := extends_of_accepts accepts pending
    cases ended : r.output.ended with
    | true =>
      -- the remainder that goes back is the whole fragment
      obtain rfl := accepts.eq_zero_of_ended ended
      have some : 0 < fragment.bytes.length :=
        List.length_pos_iff.mpr (stores.some fragment (by simp))
      have same : (⟨r.nextIndex + 0, fragment.bytes.drop 0⟩ : Fragment) = fragment := by
        rw [List.drop_zero, Nat.add_zero, ← here]
      rw [if_pos some, pure_eq_ok, same] at h
      subst h
      exact ⟨[], .stays (Or.inl ended), moved _⟩
    | false =>
      obtain rfl := whole ended
      have behind := (List.pairwise_cons.mp stores.apart).1
      have gap : ∀ other ∈ rest, other.start ≠ r.nextIndex + fragment.bytes.length := by
        intro other member
        have apart := behind other member
        unfold Fragment.stop at apart
        omega
      rw [if_neg (Nat.lt_irrefl _), deliver_of_behind gap, Except.ok.injEq] at h
      subst h
      have moved := moved rest
      rw [List.take_length] at moved
      exact ⟨_, .leaves ended here, moved⟩

/-- The store with what is taken of a piece in it: its bytes stand over those that were there. -/
structure Stored (r : Reassembler) (bytes : Bytes) (index : Nat) (store : List Fragment) : Prop where
  apart : Fragment.Apart store
  some : ∀ fragment ∈ store, fragment.bytes ≠ []
  ahead : ∀ fragment ∈ store, r.nextIndex ≤ fragment.start
  lookup_eq : ∀ i, Fragment.lookup store i =
    (Fragment.byte? ⟨max index r.nextIndex, r.taken bytes index⟩ i).or (Fragment.lookup r.pending i)

theorem Stores.stored_nothing (stores : Stores r) (none : r.taken bytes index = []) :
    Stored r bytes index r.pending :=
  ⟨stores.apart, stores.some, stores.ahead, fun i => by rw [none, Fragment.byte?_nil, Option.none_or]⟩

theorem Rests.delivery_nothing (rests : Rests r) : Delivery r r.pending [] r.pending := by
  cases ended : r.output.ended with
  | true => exact .stays (Or.inl ended)
  | false => exact .stays (Or.inr (rests.missing ended))

@[simp] theorem close_pending (r : Reassembler) : r.closeIfFinished.pending = r.pending := by
  unfold closeIfFinished
  split
  · split <;> rfl
  · rfl

theorem push_delivery (rests : Rests r) (h : r.push bytes index isEnd = .ok after) :
    ∃ store run, Stored r bytes index store ∧ Delivery r store run after.pending ∧
      Extends r run after := by
  have length_eq := length_taken r bytes index
  have marked (here : Bool) := extends_mark rests.sound (index + bytes.length) here
  have nothing (here : Bool) (none : r.taken bytes index = []) :
      ∃ store run, Stored r bytes index store ∧
        Delivery r store run (r.mark (index + bytes.length) here).closeIfFinished.pending ∧
        Extends r run (r.mark (index + bytes.length) here).closeIfFinished := by
    refine ⟨r.pending, [], rests.stored_nothing none, ?_,
      (marked here).trans (extends_close (marked here).sound)⟩
    rw [close_pending, mark_pending]
    exact rests.delivery_nothing
  cases push_cases h with
  | behind old => exact nothing _ (List.eq_nil_of_length_eq_zero (by omega))
  | untaken _ _ none => exact nothing _ none
  | beyond new far =>
    have none : r.allowance (max index r.nextIndex) = 0 := by
      unfold allowance
      omega
    exact ⟨r.pending, [], rests.stored_nothing (List.eq_nil_of_length_eq_zero (by omega)),
      rests.delivery_nothing, Extends.refl rests.sound⟩
  | @takes inserted delivered new near some hinsert hdeliver =>
    obtain ⟨within, budget⟩ := taken_fits bytes rests near
    have ahead : r.nextIndex ≤ max index r.nextIndex := Nat.le_max_right _ _
    obtain ⟨stores, lookup_eq⟩ := (rests.toStores.mark _ _).insert some (by rwa [mark_nextIndex])
      (by simpa using within) (by simpa using budget) hinsert
    obtain ⟨run, delivery, goes⟩ := deliver_delivery stores hdeliver
    have same := (insert_spec hinsert []).1
    have output_eq : inserted.output = r.output := by rw [same]; exact mark_output _ _ _
    have next_eq : inserted.nextIndex = r.nextIndex := by rw [same]; exact mark_nextIndex _ _ _
    have capacity_eq : inserted.capacity = r.capacity := by rw [same]; exact mark_capacity _ _ _
    have put := Extends.of_same rests.sound output_eq next_eq capacity_eq
    have goes := (put.trans goes).trans (extends_close goes.sound)
    rw [List.nil_append, List.append_nil] at goes
    refine ⟨inserted.pending, run, ⟨stores.apart, stores.some, next_eq ▸ stores.ahead, ?_⟩, ?_,
      goes⟩
    · simpa using lookup_eq
    · rw [close_pending]
      exact delivery.of_same (by rw [output_eq]) next_eq

end TcpStack.Reassembler

import Mathlib.Data.List.TakeDrop
import Mathlib.Data.List.TakeWhile
import TcpStack.Proofs.Outcome
import TcpStack.Proofs.Piece
import TcpStack.Reassembler.Fragment

/-! Fragments as what they hold. A fragment is a map from positions to bytes, and so is a list of them;
where a new fragment is joined with those that it meets, its own bytes win and no other is lost. A list
whose fragments stand apart, in the order of their places, takes no more room than the range that it lies
in. -/

namespace TcpStack.Fragment

open Outcome

def byte? (fragment : Fragment) (i : Nat) : Option UInt8 :=
  if fragment.start ≤ i then fragment.bytes[i - fragment.start]? else none

theorem byte?_ne_none_iff {fragment : Fragment} {i : Nat} :
    fragment.byte? i ≠ none ↔ fragment.start ≤ i ∧ i < fragment.stop := by
  unfold byte? stop
  split
  · rw [ne_eq, List.getElem?_eq_none_iff]
    omega
  · simp only [ne_eq, not_true_eq_false, false_iff]
    omega

theorem byte?_eq_none_iff {fragment : Fragment} {i : Nat} :
    fragment.byte? i = none ↔ i < fragment.start ∨ fragment.stop ≤ i := by
  rw [← not_iff_not, ← ne_eq, byte?_ne_none_iff]
  omega

theorem byte?_or (fragment : Fragment) (i : Nat) (other : Option UInt8) :
    (fragment.byte? i).or other =
      if fragment.start ≤ i ∧ i < fragment.stop then fragment.bytes[i - fragment.start]? else other := by
  split
  · rename_i inside
    obtain ⟨b, held⟩ := Option.ne_none_iff_exists'.mp (byte?_ne_none_iff.mpr inside)
    rw [held, Option.some_or, ← held, byte?, if_pos inside.1]
  · rename_i outside
    have nothing : fragment.byte? i = none := by
      rw [byte?_eq_none_iff]
      omega
    rw [nothing, Option.none_or]

theorem hasAt_iff {whole : Bytes} {fragment : Fragment} :
    whole.HasAt fragment.start fragment.bytes ↔
      ∀ i b, fragment.byte? i = some b → whole[i]? = some b := by
  unfold byte?
  constructor
  · intro piece i b held
    split at held
    · have inside := (List.getElem?_eq_some_iff.mp held).1
      rw [← held, ← piece (i - fragment.start) inside]
      congr 1
      omega
    · cases held
  · intro holds i inside
    rw [List.getElem?_eq_getElem inside]
    refine holds _ _ ?_
    rw [if_pos (Nat.le_add_right _ _), Nat.add_sub_cancel_left, List.getElem?_eq_getElem inside]

theorem byte?_append (start : Nat) (first second : Bytes) (i : Nat) :
    byte? ⟨start, first ++ second⟩ i =
      (byte? ⟨start, first⟩ i).or (byte? ⟨start + first.length, second⟩ i) := by
  unfold byte?
  simp only
  by_cases from_start : start ≤ i
  · rw [if_pos from_start, if_pos from_start, List.getElem?_append]
    by_cases inside : i - start < first.length
    · rw [if_pos inside, List.getElem?_eq_getElem inside, Option.some_or]
    · rw [if_neg inside, List.getElem?_eq_none (Nat.le_of_not_lt inside), Option.none_or,
        if_pos (by omega), Nat.sub_sub]
  · rw [if_neg from_start, if_neg from_start, if_neg (by omega), Option.none_or]

theorem byte?_take (start : Nat) (bytes : Bytes) (count i : Nat) :
    byte? ⟨start, bytes.take count⟩ i =
      if i < start + count then byte? ⟨start, bytes⟩ i else none := by
  unfold byte?
  simp only [List.getElem?_take]
  by_cases from_start : start ≤ i
  · rw [if_pos from_start, if_pos from_start]
    by_cases inside : i < start + count
    · rw [if_pos (by omega), if_pos inside]
    · rw [if_neg (by omega), if_neg inside]
  · rw [if_neg from_start, if_neg from_start, ite_self]

theorem byte?_drop (start : Nat) (bytes : Bytes) (count i : Nat) :
    byte? ⟨start + count, bytes.drop count⟩ i =
      if start + count ≤ i then byte? ⟨start, bytes⟩ i else none := by
  unfold byte?
  simp only [List.getElem?_drop]
  by_cases behind : start + count ≤ i
  · rw [if_pos behind, if_pos behind, if_pos (by omega)]
    congr 1
    omega
  · rw [if_neg behind, if_neg behind]

def before (recent old : Fragment) : Except Fault Bytes :=
  if old.start < recent.start then do old.bytes.slice 0 (← Count.sub recent.start old.start)
  else pure []

def behind (recent old : Fragment) : Except Fault Bytes :=
  if recent.stop < old.stop then do
    let length ← Count.sub old.stop recent.stop
    old.bytes.slice (← Count.sub old.bytes.length length) old.bytes.length
  else pure []

variable {recent old joined : Fragment} {first last : Bytes}

theorem join_eq (fits : recent.stop < Count.bound) (old_fits : old.stop < Count.bound) :
    join recent old = (do
      let first ← before recent old
      let last ← behind recent old
      return ⟨min old.start recent.start, first ++ recent.bytes ++ last⟩) := by
  have stop : Count.add recent.start recent.bytes.length = .ok recent.stop :=
    Count.add_eq_ok_iff.mpr ⟨rfl, fits⟩
  have old_stop : Count.add old.start old.bytes.length = .ok old.stop :=
    Count.add_eq_ok_iff.mpr ⟨rfl, old_fits⟩
  unfold join before behind
  rw [stop, old_stop, ok_bind, ok_bind]
  split <;> split <;> simp only [bind_assoc, pure_bind]

theorem join_eq_ok (h : join recent old = .ok joined) :
    ∃ first last, before recent old = .ok first ∧ behind recent old = .ok last ∧
      joined = ⟨min old.start recent.start, first ++ recent.bytes ++ last⟩ := by
  have fits := h
  unfold join at fits
  simp only [bind_eq_ok, Count.add_eq_ok_iff] at fits
  obtain ⟨_, ⟨-, fits⟩, _, ⟨-, old_fits⟩, -⟩ := fits
  rw [join_eq fits old_fits] at h
  simp only [bind_eq_ok, pure_eq_ok] at h
  obtain ⟨first, hfirst, last, hlast, rfl⟩ := h
  exact ⟨first, last, hfirst, hlast, rfl⟩

theorem byte?_nil (start i : Nat) : byte? ⟨start, []⟩ i = none := by
  rw [byte?_eq_none_iff]
  unfold stop
  simp only [List.length_nil]
  omega

theorem before_spec (h : before recent old = .ok first) :
    min old.start recent.start + first.length = recent.start ∧
      (first.length = 0 ∨ recent.start ≤ old.stop) ∧
      ∀ i, byte? ⟨min old.start recent.start, first⟩ i =
        if i < recent.start then old.byte? i else none := by
  unfold before at h
  by_cases lower : old.start < recent.start
  · rw [if_pos lower] at h
    simp only [bind_eq_ok, Count.sub_eq_ok_iff, Bytes.slice_eq_ok_iff] at h
    obtain ⟨gap, ⟨rfl, -⟩, rfl, -, inside⟩ := h
    have place : old.start + (recent.start - old.start) = recent.start := by omega
    rw [Nat.min_eq_left (Nat.le_of_lt lower), List.drop_zero, List.length_take,
      Nat.min_eq_left inside]
    refine ⟨place, Or.inr ?_, fun i => ?_⟩
    · unfold stop
      omega
    · rw [byte?_take, place]
  · rw [if_neg lower, pure_eq_ok] at h
    subst h
    refine ⟨by rw [List.length_nil]; omega, Or.inl rfl, fun i => ?_⟩
    rw [byte?_nil]
    split
    · exact (byte?_eq_none_iff.mpr (Or.inl (by omega))).symm
    · rfl

theorem behind_spec (h : behind recent old = .ok last) :
    recent.stop + last.length = max recent.stop old.stop ∧
      (last.length = 0 ∨ old.start ≤ recent.stop) ∧
      ∀ i, byte? ⟨recent.stop, last⟩ i = if recent.stop ≤ i then old.byte? i else none := by
  unfold behind at h
  by_cases longer : recent.stop < old.stop
  · rw [if_pos longer] at h
    simp only [bind_eq_ok, Count.sub_eq_ok_iff, Bytes.slice_eq_ok_iff] at h
    obtain ⟨length, ⟨rfl, -⟩, skipped, ⟨rfl, inside⟩, rfl, -, -⟩ := h
    have place : old.start + (old.bytes.length - (old.stop - recent.stop)) = recent.stop := by
      unfold stop at *
      omega
    rw [List.take_length, List.length_drop]
    refine ⟨by omega, Or.inr (by omega), fun i => ?_⟩
    have rest := byte?_drop old.start old.bytes (old.bytes.length - (old.stop - recent.stop)) i
    rwa [place] at rest
  · rw [if_neg longer, pure_eq_ok] at h
    subst h
    refine ⟨by rw [List.length_nil]; omega, Or.inl rfl, fun i => ?_⟩
    rw [byte?_nil]
    split
    · exact (byte?_eq_none_iff.mpr (Or.inr (by omega))).symm
    · rfl

def lookup : (pending : List Fragment) → (i : Nat) → Option UInt8
  | [], _ => none
  | fragment :: rest, i => (fragment.byte? i).or (lookup rest i)

theorem lookup_append (pending others : List Fragment) (i : Nat) :
    lookup (pending ++ others) i = (lookup pending i).or (lookup others i) := by
  induction pending with
  | nil => rfl
  | cons fragment rest ih =>
    rw [List.cons_append, lookup, lookup, ih, Option.or_assoc]

theorem lookup_ne_none_iff {pending : List Fragment} {i : Nat} :
    lookup pending i ≠ none ↔ ∃ fragment ∈ pending, fragment.start ≤ i ∧ i < fragment.stop := by
  induction pending with
  | nil => simp [lookup]
  | cons fragment rest ih =>
    rw [lookup, ne_eq, Option.or_eq_none_iff, not_and_or, ← ne_eq, ← ne_eq, ih, byte?_ne_none_iff]
    simp

theorem lookup_eq_none_of_lt {pending : List Fragment} {i : Nat}
    (ahead : ∀ fragment ∈ pending, i < fragment.start) : lookup pending i = none := by
  by_contra found
  obtain ⟨fragment, member, starts, -⟩ := lookup_ne_none_iff.mp found
  exact Nat.not_le_of_lt (ahead fragment member) starts

theorem mem_of_lookup {pending : List Fragment} {i : Nat} {b : UInt8}
    (held : lookup pending i = some b) : ∃ fragment ∈ pending, fragment.byte? i = some b := by
  induction pending with
  | nil => cases held
  | cons fragment rest ih =>
    rcases Option.or_eq_some_iff.mp held with here | ⟨-, there⟩
    · exact ⟨fragment, by simp, here⟩
    · obtain ⟨other, member, held⟩ := ih there
      exact ⟨other, by simp [member], held⟩

theorem total_append (pending others : List Fragment) :
    total (pending ++ others) = total pending + total others := by
  induction pending with
  | nil => simp [total]
  | cons fragment rest ih =>
    change fragment.bytes.length + total (rest ++ others) = fragment.bytes.length + total rest + _
    rw [ih, Nat.add_assoc]

/-- How `recent` is joined with the fragments that it meets: into a fragment that reaches no further than
they all did, where its own bytes win. -/
structure Joins (recent : Fragment) (met : List Fragment) (joined : Fragment) : Prop where
  start_le : joined.start ≤ recent.start
  le_stop : recent.stop ≤ joined.stop
  le_start : ∀ k, k ≤ recent.start → (∀ old ∈ met, k ≤ old.start) → k ≤ joined.start
  stop_le : ∀ k, recent.stop ≤ k → (∀ old ∈ met, old.stop ≤ k) → joined.stop ≤ k
  length_le : joined.bytes.length ≤ recent.bytes.length + total met
  byte?_eq : ∀ i, joined.byte? i = (recent.byte? i).or (lookup met i)

theorem join_joins (h : join recent old = .ok joined) : Joins recent [old] joined := by
  obtain ⟨first, last, hfirst, hlast, rfl⟩ := join_eq_ok h
  obtain ⟨from_start, first_inside, held_before⟩ := before_spec hfirst
  obtain ⟨to_stop, last_inside, held_behind⟩ := behind_spec hlast
  have length_eq : (first ++ recent.bytes ++ last).length =
      first.length + recent.bytes.length + last.length := by simp [Nat.add_assoc]
  have stop_eq : stop ⟨min old.start recent.start, first ++ recent.bytes ++ last⟩ =
      max recent.stop old.stop := by
    rw [← to_stop]
    unfold stop
    simp only [length_eq]
    omega
  refine ⟨Nat.min_le_right _ _, ?_, fun k le met => ?_, fun k le met => ?_, ?_, fun i => ?_⟩
  · exact stop_eq ▸ Nat.le_max_left _ _
  · exact Nat.le_min.mpr ⟨met old (by simp), le⟩
  · exact stop_eq ▸ Nat.max_le.mpr ⟨le, met old (by simp)⟩
  · simp only [total, List.foldr_cons, List.foldr_nil, length_eq]
    unfold stop at *
    omega
  · have held : byte? ⟨min old.start recent.start, first ++ recent.bytes ++ last⟩ i =
        (if i < recent.start then old.byte? i else none).or
          ((recent.byte? i).or (if recent.stop ≤ i then old.byte? i else none)) := by
      rw [List.append_assoc, byte?_append, held_before, from_start, byte?_append]
      exact congrArg _ (congrArg _ (held_behind i))
    rw [held, lookup, lookup, Option.or_none]
    by_cases ahead : i < recent.start
    · have nothing : recent.byte? i = none := byte?_eq_none_iff.mpr (Or.inl ahead)
      have later : ¬recent.stop ≤ i := by
        unfold stop
        omega
      rw [if_pos ahead, if_neg later, nothing, Option.none_or, Option.or_none, Option.none_or]
    · rw [if_neg ahead, Option.none_or]
      by_cases later : recent.stop ≤ i
      · rw [if_pos later]
      · obtain ⟨b, held⟩ := Option.ne_none_iff_exists'.mp
          (byte?_ne_none_iff.mpr ⟨Nat.le_of_not_lt ahead, Nat.lt_of_not_le later⟩)
        rw [held, Option.some_or, Option.some_or]

theorem Joins.trans {met others : List Fragment} {middle : Fragment} (one : Joins recent met middle)
    (rest : Joins middle others joined) : Joins recent (met ++ others) joined := by
  refine ⟨Nat.le_trans rest.start_le one.start_le, Nat.le_trans one.le_stop rest.le_stop,
    fun k le le_met => ?_, fun k le met_le => ?_, ?_, fun i => ?_⟩
  · exact rest.le_start k (one.le_start k le fun old member => le_met old (by simp [member]))
      fun old member => le_met old (by simp [member])
  · exact rest.stop_le k (one.stop_le k le fun old member => met_le old (by simp [member]))
      fun old member => met_le old (by simp [member])
  · have first := one.length_le
    have second := rest.length_le
    rw [total_append]
    omega
  · rw [rest.byte?_eq, one.byte?_eq, lookup_append, Option.or_assoc]

theorem joins_nil (recent : Fragment) : Joins recent [] recent := by
  refine ⟨Nat.le_refl _, Nat.le_refl _, fun k le _ => le, fun k le _ => le, Nat.le_refl _, fun i => ?_⟩
  rw [lookup, Option.or_none]

theorem foldlM_joins {met : List Fragment} (h : met.foldlM join recent = .ok joined) :
    Joins recent met joined := by
  induction met generalizing recent with
  | nil =>
    rw [List.foldlM_nil, pure_eq_ok] at h
    exact h ▸ joins_nil recent
  | cons old rest ih =>
    rw [List.foldlM_cons, bind_eq_ok] at h
    obtain ⟨middle, hmiddle, h⟩ := h
    exact (join_joins hmiddle).trans (ih h)

theorem join_returns (reaches : old.start ≤ recent.stop) (reached : recent.start ≤ old.stop)
    (fits : recent.stop < Count.bound) (old_fits : old.stop < Count.bound) :
    ∃ joined, join recent old = .ok joined := by
  have first : ∃ first, before recent old = .ok first := by
    unfold before
    split
    · rename_i lower
      have gap : Count.sub recent.start old.start = .ok (recent.start - old.start) :=
        Count.sub_eq_ok_iff.mpr ⟨rfl, Nat.le_of_lt lower⟩
      rw [gap, ok_bind]
      unfold stop at reached
      exact ⟨_, Bytes.slice_eq_ok_iff.mpr ⟨rfl, Nat.zero_le _, by omega⟩⟩
    · exact ⟨[], rfl⟩
  have last : ∃ last, behind recent old = .ok last := by
    unfold behind
    split
    · rename_i longer
      have length : Count.sub old.stop recent.stop = .ok (old.stop - recent.stop) :=
        Count.sub_eq_ok_iff.mpr ⟨rfl, Nat.le_of_lt longer⟩
      have skipped : Count.sub old.bytes.length (old.stop - recent.stop) =
          .ok (old.bytes.length - (old.stop - recent.stop)) := by
        refine Count.sub_eq_ok_iff.mpr ⟨rfl, ?_⟩
        unfold stop at *
        omega
      rw [length, ok_bind, skipped, ok_bind]
      exact ⟨_, Bytes.slice_eq_ok_iff.mpr ⟨rfl, Nat.sub_le _ _, Nat.le_refl _⟩⟩
    · exact ⟨[], rfl⟩
  obtain ⟨first, hfirst⟩ := first
  obtain ⟨last, hlast⟩ := last
  rw [join_eq fits old_fits, hfirst, ok_bind, hlast, ok_bind]
  exact ⟨_, rfl⟩

theorem foldlM_join_returns {met : List Fragment} (fits : recent.stop < Count.bound)
    (meets : ∀ old ∈ met, old.start ≤ recent.stop ∧ recent.start ≤ old.stop ∧
      old.stop < Count.bound) : ∃ joined, met.foldlM join recent = .ok joined := by
  induction met generalizing recent with
  | nil => exact ⟨recent, rfl⟩
  | cons old rest ih =>
    obtain ⟨reaches, reached, old_fits⟩ := meets old (by simp)
    obtain ⟨middle, hmiddle⟩ := join_returns reaches reached fits old_fits
    have joins := join_joins hmiddle
    rw [List.foldlM_cons, hmiddle, ok_bind]
    refine ih ?_ fun other member => ?_
    · have stop_le := joins.stop_le (Count.bound - 1) (by omega) fun f member => by
        rw [List.mem_singleton.mp member]
        omega
      omega
    · obtain ⟨reaches, reached, other_fits⟩ := meets other (by simp [member])
      exact ⟨Nat.le_trans reaches joins.le_stop, Nat.le_trans joins.start_le reached, other_fits⟩

/-- In the order of their places, with a gap between any two. -/
def Apart (pending : List Fragment) : Prop :=
  pending.Pairwise fun fragment later => fragment.stop < later.start

theorem Apart.lookup_rest {fragment : Fragment} {rest : List Fragment} (apart : Apart (fragment :: rest))
    {i : Nat} (le : i ≤ fragment.stop) : lookup rest i = none :=
  lookup_eq_none_of_lt fun later member =>
    Nat.lt_of_le_of_lt le ((List.pairwise_cons.mp apart).1 later member)

theorem Apart.lookup_stop {fragment : Fragment} {rest : List Fragment} (apart : Apart (fragment :: rest)) :
    lookup (fragment :: rest) fragment.stop = none := by
  rw [lookup, apart.lookup_rest (Nat.le_refl _), Option.or_none, byte?_eq_none_iff]
  exact Or.inr (Nat.le_refl _)

theorem Apart.start_le {fragment : Fragment} {rest : List Fragment} (apart : Apart (fragment :: rest))
    {i : Nat} (held : lookup (fragment :: rest) i ≠ none) : fragment.start ≤ i := by
  obtain ⟨found, member, starts, -⟩ := lookup_ne_none_iff.mp held
  rcases List.mem_cons.mp member with rfl | later
  · exact starts
  · have gap := (List.pairwise_cons.mp apart).1 found later
    have stop_eq : fragment.stop = fragment.start + fragment.bytes.length := rfl
    omega

section canonical

variable {fragment other : Fragment} {rest others : List Fragment}

theorem Apart.head_covers (apart : Apart (other :: others)) (some : fragment.bytes ≠ [])
    (same : ∀ i, lookup (fragment :: rest) i = lookup (other :: others) i) :
    other.start ≤ fragment.start ∧ (fragment.start = other.start → fragment.stop ≤ other.stop) := by
  have inside {i : Nat} (starts : fragment.start ≤ i) (stops : i < fragment.stop) :
      lookup (other :: others) i ≠ none := by
    rw [← same]
    exact lookup_ne_none_iff.mpr ⟨fragment, by simp, starts, stops⟩
  have positive := List.length_pos_iff.mpr some
  have stop_eq : fragment.stop = fragment.start + fragment.bytes.length := rfl
  have other_stop_eq : other.stop = other.start + other.bytes.length := rfl
  refine ⟨apart.start_le (inside (Nat.le_refl _) (by omega)), fun here => ?_⟩
  by_contra longer
  exact inside (by omega) (Nat.lt_of_not_le longer) apart.lookup_stop

theorem Apart.head_eq (apart : Apart (fragment :: rest)) (apart' : Apart (other :: others))
    (some : fragment.bytes ≠ []) (some' : other.bytes ≠ [])
    (same : ∀ i, lookup (fragment :: rest) i = lookup (other :: others) i) : fragment = other := by
  have covers := apart'.head_covers some same
  have covered := apart.head_covers some' fun i => (same i).symm
  have start_eq : fragment.start = other.start := Nat.le_antisymm covered.1 covers.1
  have stop_eq : fragment.stop = other.stop :=
    Nat.le_antisymm (covers.2 start_eq) (covered.2 start_eq.symm)
  have bytes_eq : fragment.bytes = other.bytes := by
    refine List.ext_getElem? fun j => ?_
    have here := same (fragment.start + j)
    unfold stop at stop_eq
    rw [lookup, lookup, byte?_or, byte?_or, ← start_eq, Nat.add_sub_cancel_left] at here
    unfold stop at here
    by_cases inside : j < fragment.bytes.length
    · rwa [if_pos ⟨Nat.le_add_right _ _, by omega⟩, if_pos ⟨Nat.le_add_right _ _, by omega⟩] at here
    · rw [List.getElem?_eq_none (Nat.le_of_not_lt inside), List.getElem?_eq_none (by omega)]
  cases fragment
  cases other
  simp only at start_eq bytes_eq
  rw [start_eq, bytes_eq]

theorem Apart.eq_of_lookup {pending stored : List Fragment} (apart : Apart pending)
    (apart' : Apart stored) (some : ∀ fragment ∈ pending, fragment.bytes ≠ [])
    (some' : ∀ fragment ∈ stored, fragment.bytes ≠ [])
    (same : ∀ i, lookup pending i = lookup stored i) : pending = stored := by
  have held {fragment : Fragment} {rest : List Fragment} (some : fragment.bytes ≠ []) :
      lookup (fragment :: rest) fragment.start ≠ none :=
    lookup_ne_none_iff.mpr ⟨fragment, by simp, Nat.le_refl _,
      Nat.lt_add_of_pos_right (List.length_pos_iff.mpr some)⟩
  induction pending generalizing stored with
  | nil =>
    cases stored with
    | nil => rfl
    | cons other others => exact absurd (same other.start).symm (held (some' other (by simp)))
  | cons fragment rest ih =>
    cases stored with
    | nil => exact absurd (same fragment.start) (held (some fragment (by simp)))
    | cons other others =>
      obtain rfl := apart.head_eq apart' (some fragment (by simp)) (some' other (by simp)) same
      have onward : rest = others := by
        refine ih (List.pairwise_cons.mp apart).2 (List.pairwise_cons.mp apart').2
          (fun later member => some later (by simp [member]))
          (fun later member => some' later (by simp [member])) fun i => ?_
        by_cases before : i ≤ fragment.stop
        · rw [apart.lookup_rest before, apart'.lookup_rest before]
        · have behind := same i
          have nothing : fragment.byte? i = none := byte?_eq_none_iff.mpr (Or.inr (by omega))
          rwa [lookup, lookup, nothing, Option.none_or, Option.none_or] at behind
      rw [onward]

end canonical

theorem around_eq (start stop : Nat) (pending : List Fragment) : around start stop pending =
    (pending.takeWhile (fun fragment => fragment.stop < start),
      (pending.dropWhile (fun fragment => fragment.stop < start)).takeWhile
        (fun fragment => fragment.start ≤ stop),
      (pending.dropWhile (fun fragment => fragment.stop < start)).dropWhile
        (fun fragment => fragment.start ≤ stop)) := by
  unfold around
  simp only [List.span_eq_takeWhile_dropWhile]

theorem around_append (start stop : Nat) (pending : List Fragment) :
    (around start stop pending).1 ++
      ((around start stop pending).2.1 ++ (around start stop pending).2.2) = pending := by
  rw [around_eq, List.takeWhile_append_dropWhile, List.takeWhile_append_dropWhile]

theorem not_of_mem_dropWhile {pending : List Fragment} {p : Fragment → Bool} (apart : Apart pending)
    (onward : ∀ fragment later : Fragment, fragment.stop < later.start → p fragment = false →
      p later = false) : ∀ fragment ∈ pending.dropWhile p, p fragment = false := by
  induction pending with
  | nil => simp
  | cons first rest ih =>
    have behind := List.pairwise_cons.mp apart
    by_cases passes : p first = true
    · rw [List.dropWhile_cons_of_pos passes]
      exact ih behind.2
    · rw [List.dropWhile_cons_of_neg passes]
      have fails := Bool.eq_false_iff.mpr passes
      intro fragment member
      rcases List.mem_cons.mp member with rfl | member
      · exact fails
      · exact onward first fragment (behind.1 fragment member) fails

theorem around_spec {pending : List Fragment} (apart : Apart pending) (start stop : Nat) :
    (∀ fragment ∈ (around start stop pending).1, fragment.stop < start) ∧
      (∀ fragment ∈ (around start stop pending).2.1,
        fragment.start ≤ stop ∧ start ≤ fragment.stop) ∧
      ∀ fragment ∈ (around start stop pending).2.2, stop < fragment.start := by
  rw [around_eq]
  have rest_apart : Apart (pending.dropWhile fun fragment => fragment.stop < start) :=
    List.Pairwise.sublist (List.dropWhile_sublist _) apart
  have reaching : ∀ fragment ∈ pending.dropWhile (fun fragment => fragment.stop < start),
      start ≤ fragment.stop := by
    intro fragment member
    have fails := not_of_mem_dropWhile apart (fun fragment later gap fails => by
      simp only [decide_eq_false_iff_not, Nat.not_lt] at fails ⊢
      unfold Fragment.stop at *
      omega) fragment member
    simpa using fails
  refine ⟨fun fragment member => ?_, fun fragment member => ⟨?_, ?_⟩, fun fragment member => ?_⟩
  · simpa using List.mem_takeWhile_imp member
  · simpa using List.mem_takeWhile_imp member
  · exact reaching fragment (List.takeWhile_subset _ member)
  · have fails := not_of_mem_dropWhile rest_apart (fun fragment later gap fails => by
      simp only [decide_eq_false_iff_not, Nat.not_le] at fails ⊢
      unfold Fragment.stop at *
      omega) fragment member
    simpa using fails

theorem total_add_le {pending : List Fragment} (apart : Apart pending) {lo hi first last : Nat}
    (inside : ∀ fragment ∈ pending, lo ≤ fragment.start ∧ fragment.stop ≤ hi)
    (free : ∀ fragment ∈ pending, fragment.stop ≤ first ∨ last ≤ fragment.start)
    (lo_le : lo ≤ first) (le : first ≤ last) (le_hi : last ≤ hi) :
    lo + total pending + (last - first) ≤ hi := by
  -- The free part stands before the first fragment or behind it, and then it is free of the others.
  induction pending generalizing lo first last with
  | nil =>
    simp only [total, List.foldr_nil]
    omega
  | cons fragment rest ih =>
    have behind := List.pairwise_cons.mp apart
    have here := inside fragment (by simp)
    have rest_inside : ∀ other ∈ rest, fragment.stop ≤ other.start ∧ other.stop ≤ hi :=
      fun other member => ⟨Nat.le_of_lt (behind.1 other member), (inside other (by simp [member])).2⟩
    have total_eq : total (fragment :: rest) = fragment.bytes.length + total rest := rfl
    have stop_eq : fragment.stop = fragment.start + fragment.bytes.length := rfl
    rcases free fragment (by simp) with before | after
    · have bound := ih behind.2 rest_inside (fun other member => free other (by simp [member]))
        before le le_hi
      omega
    · have bound := ih behind.2 rest_inside
        (fun other member => Or.inr (rest_inside other member).1) (Nat.le_refl fragment.stop)
        (Nat.le_refl fragment.stop) here.2
      omega

theorem countP_byte? (fragment : Fragment) {lo : Nat} (le : lo ≤ fragment.start) :
    (List.range' lo (fragment.stop - lo)).countP (fun i => (fragment.byte? i).isSome) =
      fragment.bytes.length := by
  have split_eq : List.range' lo (fragment.stop - lo) =
      List.range' lo (fragment.start - lo) ++ List.range' fragment.start fragment.bytes.length := by
    have joined := List.range'_append_1 (s := lo) (m := fragment.start - lo)
      (n := fragment.bytes.length)
    rw [Nat.add_sub_cancel' le] at joined
    rw [joined]
    unfold stop
    congr 1
    omega
  have before : ∀ i ∈ List.range' lo (fragment.start - lo), ¬(fragment.byte? i).isSome = true := by
    intro i member
    have inside := List.mem_range'_1.mp member
    rw [byte?_eq_none_iff.mpr (Or.inl (by omega))]
    simp
  have here : ∀ i ∈ List.range' fragment.start fragment.bytes.length,
      (fragment.byte? i).isSome = true :=
    fun i member => Option.isSome_iff_ne_none.mpr (byte?_ne_none_iff.mpr (List.mem_range'_1.mp member))
  rw [split_eq, List.countP_append, List.countP_eq_zero.mpr before, Nat.zero_add,
    List.countP_eq_length.mpr here, List.length_range']

theorem countP_lookup {pending : List Fragment} (apart : Apart pending) {lo count : Nat}
    (inside : ∀ fragment ∈ pending, lo ≤ fragment.start ∧ fragment.stop ≤ lo + count) :
    (List.range' lo count).countP (fun i => (lookup pending i).isSome) = total pending := by
  induction pending generalizing lo count with
  | nil => exact List.countP_eq_zero.mpr (by simp [lookup])
  | cons fragment rest ih =>
    obtain ⟨le, within⟩ := inside fragment (by simp)
    have le_stop : lo ≤ fragment.stop := Nat.le_trans le (Nat.le_add_right _ _)
    have behind := List.pairwise_cons.mp apart
    have split_eq : List.range' lo count = List.range' lo (fragment.stop - lo) ++
        List.range' fragment.stop (lo + count - fragment.stop) := by
      have joined := List.range'_append_1 (s := lo) (m := fragment.stop - lo)
        (n := lo + count - fragment.stop)
      rw [Nat.add_sub_cancel' le_stop] at joined
      rw [joined]
      congr 1
      omega
    have first : (List.range' lo (fragment.stop - lo)).countP
        (fun i => (lookup (fragment :: rest) i).isSome) = fragment.bytes.length := by
      rw [← countP_byte? fragment le]
      refine List.countP_congr fun i member => ?_
      have before := List.mem_range'_1.mp member
      rw [lookup, apart.lookup_rest (by omega), Option.or_none]
    have onward : (List.range' fragment.stop (lo + count - fragment.stop)).countP
        (fun i => (lookup rest i).isSome) = total rest := by
      refine ih behind.2 fun other member => ?_
      have stop_le := (inside other (by simp [member])).2
      have gap := behind.1 other member
      omega
    have others : (List.range' fragment.stop (lo + count - fragment.stop)).countP
        (fun i => (lookup (fragment :: rest) i).isSome) = total rest := by
      rw [← onward]
      refine List.countP_congr fun i member => ?_
      have past := List.mem_range'_1.mp member
      rw [lookup, byte?_eq_none_iff.mpr (Or.inr past.1), Option.none_or]
    rw [split_eq, List.countP_append, first, others]
    rfl

section placed

variable {pending : List Fragment} {recent joined : Fragment}

def placed (pending : List Fragment) (recent joined : Fragment) : List Fragment :=
  (around recent.start recent.stop pending).1 ++
    joined :: (around recent.start recent.stop pending).2.2

theorem Joins.apart (joins : Joins recent (around recent.start recent.stop pending).2.1 joined)
    (apart : Apart pending) : Apart (placed pending recent joined) := by
  obtain ⟨before, -, after⟩ := around_spec apart recent.start recent.stop
  have whole : Apart ((around recent.start recent.stop pending).1 ++
      ((around recent.start recent.stop pending).2.1 ++
        (around recent.start recent.stop pending).2.2)) := by rwa [around_append]
  obtain ⟨apart_before, apart_rest, gaps⟩ := List.pairwise_append.mp whole
  obtain ⟨-, apart_after, gaps_met⟩ := List.pairwise_append.mp apart_rest
  refine List.pairwise_append.mpr ⟨apart_before, List.pairwise_cons.mpr ⟨?_, apart_after⟩, ?_⟩
  · intro later member
    have ahead := after later member
    have stop_le := joins.stop_le (later.start - 1) (by omega) fun old old_member => by
      have gap := gaps_met old old_member later member
      omega
    omega
  · intro fragment member later later_member
    rcases List.mem_cons.mp later_member with rfl | later_member
    · exact joins.le_start (fragment.stop + 1) (before fragment member) fun old old_member =>
        gaps fragment member old (by simp [old_member])
    · exact gaps fragment member later (by simp [later_member])

theorem Joins.lookup_placed
    (joins : Joins recent (around recent.start recent.stop pending).2.1 joined)
    (apart : Apart pending) (i : Nat) :
    lookup (placed pending recent joined) i = (recent.byte? i).or (lookup pending i) := by
  have whole := around_append recent.start recent.stop pending
  have before := (around_spec apart recent.start recent.stop).1
  rw [placed, lookup_append, lookup, joins.byte?_eq]
  conv_rhs => rw [← whole, lookup_append, lookup_append]
  by_cases held : recent.byte? i = none
  · rw [held, Option.none_or, Option.none_or]
  · -- the fragments in front all stop before the new one starts
    have nothing : lookup (around recent.start recent.stop pending).1 i = none := by
      by_contra found
      obtain ⟨fragment, member, -, inside⟩ := lookup_ne_none_iff.mp found
      have stops := before fragment member
      have starts := (byte?_ne_none_iff.mp held).1
      omega
    rw [nothing, Option.none_or, Option.none_or, Option.or_assoc]

theorem total_met_le (start stop : Nat) (pending : List Fragment) :
    total (around start stop pending).2.1 ≤ total pending := by
  have whole := congrArg total (around_append start stop pending)
  rw [total_append, total_append] at whole
  omega

theorem total_placed (pending : List Fragment) (recent joined : Fragment) :
    total (placed pending recent joined) + total (around recent.start recent.stop pending).2.1 =
      total pending + joined.bytes.length := by
  have whole := congrArg total (around_append recent.start recent.stop pending)
  have cons : total (joined :: (around recent.start recent.stop pending).2.2) =
    joined.bytes.length + total (around recent.start recent.stop pending).2.2 := rfl
  rw [total_append, total_append] at whole
  rw [placed, total_append, cons]
  omega

theorem mem_placed {fragment : Fragment} (member : fragment ∈ placed pending recent joined) :
    fragment = joined ∨ fragment ∈ pending := by
  have whole := around_append recent.start recent.stop pending
  rcases List.mem_append.mp member with member | member
  · exact Or.inr (whole ▸ List.mem_append_left _ member)
  · rcases List.mem_cons.mp member with rfl | member
    · exact Or.inl rfl
    · exact Or.inr (whole ▸ List.mem_append_right _ (List.mem_append_right _ member))

theorem mem_of_met {fragment : Fragment}
    (member : fragment ∈ (around recent.start recent.stop pending).2.1) : fragment ∈ pending :=
  around_append recent.start recent.stop pending ▸
    List.mem_append_right _ (List.mem_append_left _ member)

end placed

end TcpStack.Fragment

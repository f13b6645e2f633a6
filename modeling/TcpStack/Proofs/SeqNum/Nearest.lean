import TcpStack.Proofs.Outcome
import TcpStack.SeqNum

/-! Which absolute position `unwrap` finds. Short of the last cycle of the counters there is always an
answer, and it is the nearest of all positions with the wire number; so a position that lies less than
half a cycle from the checkpoint is found again from its number. -/

namespace TcpStack.SeqNum

open Outcome

theorem cycle_eq : cycle = 4294967296 := rfl

theorem bound_eq : Count.bound = 18446744073709551616 := rfl

/-- Two positions below this one are never taken for each other. -/
def half : Nat := cycle / 2

theorem half_add_cycles_le : half + 2 * cycle ≤ Count.bound := by
  unfold half
  simp only [cycle_eq, bound_eq]
  omega

theorem toNat_wrap_sub (absolute : Nat) (isn : SeqNum) :
    (wrap absolute isn - isn : UInt32).toNat = absolute % cycle := by
  have forward : (wrap absolute isn - isn : UInt32) = UInt32.ofNat absolute := by
    change isn.value + UInt32.ofNat absolute - isn.value = UInt32.ofNat absolute
    rw [UInt32.add_comm, UInt32.add_sub_cancel]
  rw [forward, UInt32.toNat_ofNat']
  rfl

theorem ne_before (n : SeqNum) : n ≠ n - (1 : UInt32) := by
  intro same
  have value : n.value = n.value - 1 := congrArg SeqNum.value same
  have numbers := congrArg UInt32.toNat value
  rw [UInt32.toNat_sub] at numbers
  have bounded := n.value.toNat_lt
  simp at numbers
  omega

theorem wrap_ne_before {position later : Nat} (isn : SeqNum) (le : position ≤ later)
    (short : later + 1 < cycle) : wrap later isn ≠ wrap position isn - (1 : UInt32) := by
  intro same
  have value : isn.value + UInt32.ofNat later = isn.value + UInt32.ofNat position - 1 :=
    congrArg SeqNum.value same
  have numbers := congrArg UInt32.toNat value
  rw [UInt32.toNat_sub, UInt32.toNat_add, UInt32.toNat_add] at numbers
  simp only [UInt32.toNat_ofNat', UInt32.reduceToNat] at numbers
  simp only [cycle_eq] at short
  omega

theorem nearer_best {checkpoint best candidate : Nat}
    (h : gap best checkpoint ≤ gap candidate checkpoint) :
    nearer checkpoint best candidate = best :=
  if_neg (Nat.not_lt.mpr h)

theorem nearer_candidate {checkpoint best candidate : Nat}
    (h : gap candidate checkpoint < gap best checkpoint) :
    nearer checkpoint best candidate = candidate :=
  if_pos h

theorem unwrap_eq_ok_iff {n isn : SeqNum} {checkpoint found : Nat} :
    unwrap n isn checkpoint = .ok found ↔
      ∃ base, base = checkpoint - checkpoint % cycle + (n - isn : UInt32).toNat ∧
        base + cycle < Count.bound ∧
        found = if cycle ≤ base then
            nearer checkpoint (nearer checkpoint base (base + cycle)) (base - cycle)
          else nearer checkpoint base (base + cycle) := by
  unfold unwrap
  simp only [bind_eq_ok, pure_eq_ok, Count.add_eq_ok_iff]
  constructor
  · rintro ⟨base, ⟨rfl, -⟩, above, ⟨rfl, fits⟩, rfl⟩
    exact ⟨_, rfl, fits, rfl⟩
  · rintro ⟨base, rfl, fits, rfl⟩
    exact ⟨_, ⟨rfl, by omega⟩, _, ⟨rfl, fits⟩, rfl⟩

theorem nearest_of_three {absolute checkpoint base : Nat}
    (near : 2 * gap absolute checkpoint < cycle)
    (candidate : absolute = base ∨ absolute = base + cycle ∨ absolute + cycle = base) :
    (if cycle ≤ base then
      nearer checkpoint (nearer checkpoint base (base + cycle)) (base - cycle)
    else nearer checkpoint base (base + cycle)) = absolute := by
  unfold gap at near
  rcases candidate with rfl | rfl | rfl
  · have above : nearer checkpoint absolute (absolute + cycle) = absolute :=
      nearer_best (by unfold gap; omega)
    rw [above]
    split
    · exact nearer_best (by unfold gap; omega)
    · rfl
  · have above : nearer checkpoint base (base + cycle) = base + cycle :=
      nearer_candidate (by unfold gap; omega)
    rw [above]
    split
    · exact nearer_best (by unfold gap; omega)
    · rfl
  · have above : nearer checkpoint (absolute + cycle) (absolute + cycle + cycle) =
        absolute + cycle := nearer_best (by unfold gap; omega)
    rw [above, if_pos (by omega)]
    have below : nearer checkpoint (absolute + cycle) (absolute + cycle - cycle) =
        absolute + cycle - cycle := nearer_candidate (by unfold gap; omega)
    rw [below, Nat.add_sub_cancel]

theorem unwrap_wrap {absolute checkpoint found : Nat} {isn : SeqNum}
    (near : 2 * gap absolute checkpoint < cycle)
    (h : unwrap (wrap absolute isn) isn checkpoint = .ok found) : found = absolute := by
  obtain ⟨base, hbase, -, rfl⟩ := unwrap_eq_ok_iff.mp h
  rw [toNat_wrap_sub] at hbase
  refine nearest_of_three near ?_
  have close : absolute < checkpoint + cycle ∧ checkpoint < absolute + cycle := by
    unfold gap at near
    omega
  rw [cycle_eq] at *
  omega

theorem unwrap_wrap_of_lt_half {absolute checkpoint found : Nat} {isn : SeqNum}
    (first : absolute < half) (second : checkpoint < half)
    (h : unwrap (wrap absolute isn) isn checkpoint = .ok found) : found = absolute := by
  refine unwrap_wrap ?_ h
  unfold half at first second
  unfold gap
  omega

theorem unwrap_zero (n isn : SeqNum) : unwrap n isn 0 = .ok (n - isn : UInt32).toNat := by
  have distance : (n - isn : UInt32).toNat < cycle := UInt32.toNat_lt_size _
  refine unwrap_eq_ok_iff.mpr ⟨_, rfl, ?_, ?_⟩
  · simp only [cycle_eq, bound_eq] at *
    omega
  · rw [Nat.zero_mod, Nat.zero_add, if_neg (by omega)]
    exact (nearer_best (by unfold gap; omega)).symm

theorem eq_add_iff (n isn : SeqNum) (k : UInt32) : n = isn + k ↔ (n - isn : UInt32) = k := by
  have ahead : n.value = isn.value + (n - isn : UInt32) := by
    change n.value = isn.value + (n.value - isn.value)
    rw [UInt32.add_comm, UInt32.sub_add_cancel]
  constructor
  · rintro rfl
    change isn.value + k - isn.value = k
    rw [UInt32.add_comm, UInt32.add_sub_cancel]
  · intro distance
    rw [distance] at ahead
    exact congrArg SeqNum.mk ahead

theorem wrap_eq_iff {absolute : Nat} {n isn : SeqNum} :
    wrap absolute isn = n ↔ absolute % cycle = (n - isn : UInt32).toNat := by
  rw [← toNat_wrap_sub absolute isn, UInt32.toNat_inj]
  constructor
  · rintro rfl
    rfl
  · intro same
    exact ((eq_add_iff _ isn _).mpr same).trans ((eq_add_iff n isn _).mpr rfl).symm

theorem wrap_of_unwrap {n isn : SeqNum} {checkpoint found : Nat}
    (h : unwrap n isn checkpoint = .ok found) : wrap found isn = n := by
  obtain ⟨base, hbase, -, rfl⟩ := unwrap_eq_ok_iff.mp h
  have distance : (n - isn : UInt32).toNat < cycle := UInt32.toNat_lt_size _
  generalize hfound : (if cycle ≤ base then _ else _ : Nat) = found
  rw [wrap_eq_iff]
  unfold nearer at hfound
  rw [cycle_eq] at *
  split at hfound <;> (repeat' split at hfound) <;> omega

theorem wrap_add (absolute count : Nat) (isn : SeqNum) :
    wrap absolute isn + UInt32.ofNat count = wrap (absolute + count) isn := by
  change SeqNum.mk (isn.value + UInt32.ofNat absolute + UInt32.ofNat count) =
    SeqNum.mk (isn.value + UInt32.ofNat (absolute + count))
  rw [UInt32.ofNat_add, UInt32.add_assoc]

theorem distance_eq_zero_iff (n isn : SeqNum) : (n - isn : UInt32).toNat = 0 ↔ n = isn := by
  have none : isn + (0 : UInt32) = isn := congrArg SeqNum.mk (UInt32.add_zero isn.value)
  have zero := eq_add_iff n isn 0
  rw [none] at zero
  rw [zero, ← UInt32.toNat_inj]
  rfl

theorem distance_le_one_iff (n isn : SeqNum) :
    (n - isn : UInt32).toNat ≤ 1 ↔ n = isn ∨ n = isn + (1 : UInt32) := by
  rw [eq_add_iff n isn 1, ← distance_eq_zero_iff, ← UInt32.toNat_inj]
  change _ ↔ _ = 0 ∨ _ = 1
  omega

theorem unwrap_eq_ok (n isn : SeqNum) {checkpoint : Nat} (short : checkpoint + cycle < Count.bound) :
    ∃ base, base / cycle = checkpoint / cycle ∧ base % cycle = (n - isn : UInt32).toNat ∧
      base + cycle < Count.bound ∧
      unwrap n isn checkpoint = .ok (if cycle ≤ base then
          nearer checkpoint (nearer checkpoint base (base + cycle)) (base - cycle)
        else nearer checkpoint base (base + cycle)) := by
  have distance : (n - isn : UInt32).toNat < cycle := UInt32.toNat_lt_size _
  refine ⟨checkpoint - checkpoint % cycle + (n - isn : UInt32).toNat, ?_, ?_, ?_,
    unwrap_eq_ok_iff.mpr ⟨_, rfl, ?_, rfl⟩⟩
  all_goals
    simp only [cycle_eq, bound_eq] at *
    omega

theorem unwrap_returns (n isn : SeqNum) {checkpoint : Nat}
    (short : checkpoint + 2 * cycle ≤ Count.bound) :
    ∃ found, unwrap n isn checkpoint = .ok found := by
  have cycle_eq := cycle_eq
  obtain ⟨base, -, -, -, unwraps⟩ := unwrap_eq_ok n isn (show checkpoint + cycle < Count.bound by omega)
  exact ⟨_, unwraps⟩

theorem apart_of_same {first second : Nat} (same : first % cycle = second % cycle) :
    first = second ∨ first + cycle ≤ second ∨ second + cycle ≤ first := by
  rw [cycle_eq] at *
  omega

theorem place_of_wins {checkpoint base found : Nat} (own : base / cycle = checkpoint / cycle)
    (wins : (if cycle ≤ base then
        nearer checkpoint (nearer checkpoint base (base + cycle)) (base - cycle)
      else nearer checkpoint base (base + cycle)) = found) :
    2 * gap found checkpoint < cycle ∨
      found = base ∧ (2 * gap base checkpoint ≤ cycle ∨ base < cycle ∧ checkpoint ≤ base) := by
  have near : base < checkpoint + cycle ∧ checkpoint < base + cycle := by
    rw [cycle_eq] at *
    omega
  clear own
  unfold nearer gap at wins
  unfold gap
  split at wins <;> (repeat' split at wins) <;> omega

theorem nearest_of_all {checkpoint base other found : Nat} (own : base / cycle = checkpoint / cycle)
    (same : other % cycle = found % cycle)
    (wins : (if cycle ≤ base then
        nearer checkpoint (nearer checkpoint base (base + cycle)) (base - cycle)
      else nearer checkpoint base (base + cycle)) = found) :
    gap found checkpoint ≤ gap other checkpoint ∧
      (gap other checkpoint = gap found checkpoint → other ≠ found →
        found / cycle = checkpoint / cycle) := by
  have apart := apart_of_same same
  rcases place_of_wins own wins with inside | ⟨rfl, edge⟩
  · rcases Decidable.em (other = found) with rfl | different
    · exact ⟨Nat.le_refl _, fun _ different => absurd rfl different⟩
    · have farther : gap found checkpoint < gap other checkpoint := by
        unfold gap at *
        omega
      exact ⟨Nat.le_of_lt farther, fun tie => absurd tie (Nat.ne_of_gt farther)⟩
  · refine ⟨?_, fun _ _ => own⟩
    unfold gap at *
    omega

/-- Short of the last cycle of the counters there is an answer, and it has the number that was looked for. No position
with that number is nearer to the checkpoint; if one is as near, the answer is the one in the checkpoint's cycle. So a
position less than half a cycle from the checkpoint is found again. -/
theorem unwrap_nearest (n isn : SeqNum) (checkpoint : Nat) (short : checkpoint < Count.bound - cycle) :
    (∃ found, unwrap n isn checkpoint = .ok found ∧ found < Count.bound ∧ wrap found isn = n ∧
      ∀ other, wrap other isn = n → gap found checkpoint ≤ gap other checkpoint ∧
        (gap other checkpoint = gap found checkpoint → other ≠ found →
          found / cycle = checkpoint / cycle)) ∧
    ∀ absolute, gap absolute checkpoint < half →
      unwrap (wrap absolute isn) isn checkpoint = .ok absolute := by
  have answers (n : SeqNum) := unwrap_eq_ok n isn (Nat.add_lt_of_lt_sub short)
  constructor
  · obtain ⟨base, own, -, fits, unwraps⟩ := answers n
    generalize wins : (if cycle ≤ base then _ else _ : Nat) = found at unwraps
    refine ⟨found, unwraps, ?_, wrap_of_unwrap unwraps, fun other wraps => ?_⟩
    · have top : found ≤ base + cycle := by
        unfold nearer at wins
        split at wins <;> (repeat' split at wins) <;> omega
      omega
    · have same : other % cycle = found % cycle :=
        (wrap_eq_iff.mp wraps).trans (wrap_eq_iff.mp (wrap_of_unwrap unwraps)).symm
      exact nearest_of_all own same wins
  · intro absolute near
    obtain ⟨_, -, -, -, unwraps⟩ := answers (wrap absolute isn)
    have close : 2 * gap absolute checkpoint < cycle := by
      unfold half at near
      omega
    rwa [unwrap_wrap close unwraps] at unwraps

theorem unwrap_halfway : ∃ found, unwrap ⟨7⟩ ⟨7⟩ (cycle + half) = .ok found ∧ wrap (2 * cycle) ⟨7⟩ = ⟨7⟩ ∧
    gap (2 * cycle) (cycle + half) = gap found (cycle + half) ∧ found / cycle = 1 ∧
    unwrap (wrap (2 * cycle - 1) ⟨7⟩) ⟨7⟩ (cycle + half) = .ok (2 * cycle - 1) := by
  obtain ⟨⟨found, unwraps, -, -, nearest⟩, finds⟩ := unwrap_nearest ⟨7⟩ ⟨7⟩ (cycle + half) (by decide)
  have seen : unwrap ⟨7⟩ ⟨7⟩ (cycle + half) = .ok cycle :=
    unwrap_eq_ok_iff.mpr ⟨cycle, by decide, by decide, by decide⟩
  obtain rfl : cycle = found := Except.ok.inj (seen.symm.trans unwraps)
  have again : wrap (2 * cycle) ⟨7⟩ = ⟨7⟩ := by decide
  have tie : gap (2 * cycle) (cycle + half) = gap cycle (cycle + half) := by decide
  exact ⟨_, unwraps, again, tie, (nearest _ again).2 tie (by decide), finds _ (by decide)⟩

end TcpStack.SeqNum

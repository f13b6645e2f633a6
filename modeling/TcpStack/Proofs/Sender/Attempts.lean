import Mathlib.Order.Iterate
import TcpStack.Proofs.Sender.Backoff

/-! How often a sender can send a segment again. Each time it waits twice as long as the time before, so the time that
a counter can tell is used up after a few attempts, long before there is no place to count one more. -/

namespace TcpStack

theorem Count.double_mono : Monotone Count.double := fun a b le => by
  unfold Count.double
  omega

namespace Sender

open Outcome

variable {timeout spent elapsed n m : Nat} {first s after : Sender} {segment : Segment} {segments : List Segment}
  {events : List Event} {call : Call} {reply : Reply}

section waiting

theorem waited_mono (longer : n ≤ m) : waited timeout n ≤ waited timeout m := by
  induction longer with
  | refl => exact Nat.le_refl _
  | step _ ih => exact Nat.le_trans ih (Nat.le_add_right _ _)

theorem waited_one_le (some : 0 < timeout) (n : Nat) : waited 1 n ≤ waited timeout n := by
  induction n with
  | zero => exact Nat.le_refl _
  | succ n ih => exact Nat.add_le_add ih (Count.double_mono.iterate n some)

theorem le_of_waited_lt (some : 0 < timeout) (short : waited timeout n < Count.bound) : n ≤ 64 := by
  by_contra many
  have all : waited 1 64 = 1 * (2 ^ 64 - 1) := waited_eq (by decide)
  have last : 0 < Count.double^[64] 1 := Count.iterate_double_pos Nat.one_pos 64
  have whole : waited 1 65 = waited 1 64 + Count.double^[64] 1 := rfl
  have least := waited_one_le some 65
  have reached : waited timeout 65 ≤ waited timeout n := waited_mono (Nat.lt_of_not_le many)
  have bound_eq : Count.bound = 2 ^ 64 := rfl
  omega

end waiting

/-- The time that was spent is enough for as often as the oldest segment was sent again, and with what the timer has
left for once more. -/
structure Spends (timeout spent : Nat) (s : Sender) : Prop where
  waited_le : waited timeout s.resends ≤ spent
  runs : ∀ remaining, s.timer = .running remaining → waited timeout (s.resends + 1) ≤ spent + remaining

theorem spends_initial (capacity timeout spent : Nat) (isn : SeqNum) :
    Spends timeout spent (initial capacity timeout isn) := ⟨Nat.zero_le _, nofun⟩

theorem Spends.of_same (spends : Spends timeout spent s) (resends_eq : after.resends = s.resends)
    (timer_eq : after.timer = s.timer) : Spends timeout spent after :=
  ⟨resends_eq ▸ spends.waited_le, resends_eq ▸ timer_eq ▸ spends.runs⟩

theorem Spends.later (spends : Spends timeout spent s) (elapsed : Nat) : Spends timeout (spent + elapsed) s := by
  refine ⟨Nat.le_add_right_of_le spends.waited_le, fun remaining running => ?_⟩
  have enough := spends.runs remaining running
  omega

theorem spends_of_fresh (spent : Nat) (fresh : s.resends = 0)
    (timer : s.timer = .idle ∨ s.timer = .running timeout) : Spends timeout spent s := by
  have one : waited timeout (0 + 1) = 0 + timeout := rfl
  refine ⟨fresh ▸ Nat.zero_le _, fun remaining running => ?_⟩
  rw [fresh, one]
  rcases timer with idle | whole
  · cases idle.symm.trans running
  · cases whole.symm.trans running
    omega

theorem Spends.launch (spends : Spends timeout spent s) (books : Books timeout s)
    (launch : Launch s segment after) : Spends timeout spent after := by
  obtain ⟨now, timed⟩ := books.timed
  obtain ⟨stream, fin, plain, -, after_eq⟩ := launch.afterSend_of
  have resends_eq : after.resends = s.resends := by
    rw [after_eq]
    exact resends_afterSend _ _
  have timer_eq : after.timer = s.timer.start s.timeout := by
    rw [after_eq]
    rfl
  cases before : s.timer with
  | idle =>
    have none := timed.idle_iff.mp before
    have fresh : s.resends = 0 := resends_eq_zero (by simp [none])
    have timeout_eq : s.timeout = timeout := (timed.rests none).2.trans books.first
    refine spends_of_fresh spent (resends_eq.trans fresh) (Or.inr ?_)
    rw [timer_eq, before, timeout_eq]
    rfl
  | running remaining =>
    refine spends.of_same resends_eq ?_
    rw [timer_eq, before]
    rfl

theorem Spends.launches (spends : Spends timeout spent s) (books : Books timeout s)
    (launches : Launches s segments after) : Spends timeout spent after := by
  induction launches with
  | nothing => exact spends
  | next launch _ ih => exact ih (spends.launch books launch) (books.launch launch)

theorem Spends.heeds (spends : Spends timeout spent s) (books : Books timeout s) {ackno : SeqNum} {window : UInt16}
    (heeds : Heeds s ackno window after) : Spends timeout spent after := by
  cases heeds with
  | again => exact spends.of_same rfl rfl
  | moves _ _ _ hadvance =>
    rcases (advance_timed hadvance).2.2.2 with ⟨same, timer_eq, -⟩ | ⟨fewer, -, timer_eq⟩
    · exact spends.of_same (resends_of_same same) timer_eq
    · have fresh : after.resends = 0 :=
        resends_eq_zero fun item member => books.fresh item (fewer.subset member)
      have first : s.initialTimeout = timeout := books.first
      refine spends_of_fresh spent fresh ?_
      change s.initialTimeout = timeout at first
      rw [timer_eq]
      split
      · exact Or.inl rfl
      · exact Or.inr (congrArg Timer.running first)

theorem Spends.ages (spends : Spends timeout spent s) (books : Books timeout s) (ages : Ages s elapsed after) :
    Spends timeout (spent + elapsed) after := by
  have later := spends.later elapsed
  cases ages with
  | waits ticks =>
    refine ⟨later.waited_le, fun remaining running => ?_⟩
    cases before : s.timer with
    | idle =>
      rw [before] at ticks
      cases ticks
      cases running
    | running left =>
      have enough := spends.runs left before
      rw [before, tick_running] at ticks
      split at ticks
      · cases ticks
      · cases ticks
        cases running
        change waited timeout (s.resends + 1) ≤ _
        omega
  | rests ticks none =>
    obtain ⟨_, timed⟩ := books.timed
    rw [timed.idle_iff.mpr none] at ticks
    cases ticks
  | @resends timer oldest rest ticks inFlight =>
    cases before : s.timer with
    | idle =>
      rw [before] at ticks
      cases ticks
    | running left =>
      have enough := spends.runs left before
      have timeout_eq : Count.double s.timeout = Count.double^[s.resends + 1] timeout := by
        rw [Function.iterate_succ_apply', ← books.backoff]
      rw [resends_of_front inFlight] at enough timeout_eq
      rw [before, tick_running] at ticks
      split at ticks
      · cases ticks
        refine ⟨?_, fun remaining running => ?_⟩
        · change waited timeout (oldest.resends + 1) ≤ _
          omega
        · cases running
          change waited timeout (oldest.resends + 1) + Count.double^[oldest.resends + 1] timeout ≤ _
          omega
      · cases ticks

theorem Spends.perform (spends : Spends timeout spent s) (books : Books timeout s)
    (h : (s.perform call).result = .ok (after, reply)) : Spends timeout (spent + call.span) after := by
  cases perform_answers h with
  | fill hfill =>
    obtain ⟨_, launches⟩ := fillWindow_launches hfill
    exact spends.launches books launches
  | ack hack =>
    rcases ackReceived_launches hack with rfl | ⟨_, _, heeds, launches⟩
    · exact spends
    · exact (spends.heeds books heeds).launches (books.heeds heeds) launches
  | legal => exact spends
  | tick htick => exact spends.ages books (tick_ages htick)
  | sendEmpty | stream => exact spends.of_same rfl rfl

theorem Since.spends (since : Since first events s) (reachable : Reachable timeout first)
    (spends : Spends timeout spent first) : Spends timeout (spent + Sender.elapsed events) s := by
  induction since with
  | start => exact spends
  | called before performs ih =>
    rw [elapsed_append, elapsed_singleton, ← Nat.add_assoc]
    exact ih.perform (before.reachable reachable).books performs
  | drained _ _ ih => exact ih.of_same rfl rfl

theorem elapsed_of_timeless (timeless : ∀ e ∈ events, e.call.ticks = false) : Sender.elapsed events = 0 := by
  refine List.sum_eq_zero_iff_forall_eq_nat.mpr fun span member => ?_
  obtain ⟨e, inside, rfl⟩ := List.mem_map.mp member
  have quiet := timeless e inside
  cases call_eq : e.call with
  | tick =>
    rw [call_eq] at quiet
    cases quiet
  | fill | ack | legal | sendEmpty | stream => rfl

theorem Spends.resends_le (spends : Spends timeout spent s) (some : 0 < timeout) (short : spent < Count.bound) :
    s.resends ≤ 64 :=
  le_of_waited_lt some (Nat.lt_of_le_of_lt spends.waited_le short)

theorem Spends.tick_returns (spends : Spends timeout spent s) (some : 0 < timeout) (short : spent < Count.bound)
    (elapsed : Nat) : ∃ after, (s.tick elapsed).result = .ok after := by
  have few := spends.resends_le some short
  have size_eq : UInt32.size = 2 ^ 32 := rfl
  exact Sender.tick_returns (by omega) elapsed

end Sender
end TcpStack

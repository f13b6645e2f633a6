import Mathlib.Algebra.GroupWithZero.Nat
import TcpStack.Proofs.Sender.History

/-! How long a sender waits. While no acknowledgment comes it sends the oldest segment in flight again and nothing
else, and each time it waits twice as long as the time before. A timeout that is too long for a counter is cut to the
largest one. -/

namespace TcpStack

theorem mul_two_pow_succ (a n : Nat) : a * 2 ^ (n + 1) = 2 * (a * 2 ^ n) := by
  rw [Nat.pow_succ, Nat.mul_comm _ 2, Nat.mul_left_comm]

theorem Count.iterate_double {a n : Nat} (fits : a * 2 ^ n < Count.bound) :
    Count.double^[n] a = a * 2 ^ n := by
  induction n with
  | zero => exact (Nat.mul_one a).symm
  | succ n ih =>
    rw [mul_two_pow_succ] at fits ⊢
    rw [Function.iterate_succ_apply', ih (by omega)]
    exact Nat.min_eq_left (Nat.le_sub_one_of_lt fits)

theorem Count.iterate_double_pos {a : Nat} (some : 0 < a) (n : Nat) : 0 < Count.double^[n] a := by
  induction n with
  | zero => exact some
  | succ n ih =>
    rw [Function.iterate_succ_apply']
    exact Nat.lt_min.mpr ⟨Nat.mul_pos Nat.two_pos ih, by decide⟩

namespace Sender

open Outcome

def Call.span : Call → Nat
  | .tick elapsed => elapsed
  | .fill | .ack .. | .legal _ | .sendEmpty | .stream _ => 0

def elapsed (events : List Event) : Nat := (events.map fun e => e.call.span).sum

def resent (events : List Event) : List Segment :=
  events.flatMap fun e => if e.call.ticks then e.queued else []

def waited (timeout : Nat) : (n : Nat) → Nat
  | 0 => 0
  | n + 1 => waited timeout n + Count.double^[n] timeout

@[simp] theorem elapsed_append (events more : List Event) :
    elapsed (events ++ more) = elapsed events + elapsed more := by
  simp [elapsed]

@[simp] theorem elapsed_singleton (e : Event) : elapsed [e] = e.call.span := by
  simp [elapsed]

@[simp] theorem resent_append (events more : List Event) :
    resent (events ++ more) = resent events ++ resent more := List.flatMap_append

@[simp] theorem resent_singleton (e : Event) :
    resent [e] = if e.call.ticks then e.queued else [] := List.flatMap_singleton _ e

variable {timeout n spent : Nat} {oldest : Outstanding} {steady : Prop} {first s after : Sender}
  {events : List Event} {call : Call} {reply : Reply} {segment : Segment} {segments : List Segment}

theorem Performs.mem (performs : Performs s call after reply segments) (member : segment ∈ segments)
    (some : 0 < segment.sequenceLength) : call.ticks = true ∨ call.fills = true := by
  cases performs with
  | fills | heeds => exact Or.inr rfl
  | ignores | judges | ages | writes | finishes => cases member
  | resends => exact Or.inl rfl
  | replies =>
    obtain rfl := List.mem_singleton.mp member
    exact absurd some (Nat.lt_irrefl 0)

theorem Since.mem_sent (since : Since first events s) (member : segment ∈ sent events)
    (some : 0 < segment.sequenceLength) : segment ∈ resent events ∨ segment ∈ launched events := by
  induction since with
  | start => cases member
  | called _ performs ih =>
    rw [sent_append, sent_singleton, List.mem_append] at member
    rw [resent_append, launched_append, resent_singleton, launched_singleton, List.mem_append, List.mem_append]
    rcases member with old | new
    · exact (ih old).imp Or.inl Or.inl
    · rcases perform_cases performs with ⟨_, _, rfl, rfl, event_eq⟩ | ⟨segments, performs⟩
      · rw [event_eq] at new
        cases new
      · rw [performs.event_eq] at new ⊢
        rcases performs.mem new some with ticks | fills
        · exact Or.inl (Or.inr ((if_pos ticks).symm ▸ new))
        · exact Or.inr (Or.inr ((if_pos fills).symm ▸ new))
  | drained _ _ ih => exact ih member

section waiting

theorem waited_eq (fits : timeout * 2 ^ n < 2 * Count.bound) :
    waited timeout n = timeout * (2 ^ n - 1) := by
  have whole : waited timeout n + timeout = timeout * 2 ^ n := by
    induction n with
    | zero => exact (Nat.zero_add timeout).trans (Nat.mul_one timeout).symm
    | succ n ih =>
      have twice := mul_two_pow_succ timeout n
      have last : Count.double^[n] timeout = timeout * 2 ^ n := Count.iterate_double (by omega)
      have before := ih (by omega)
      rw [waited, last]
      omega
  rw [Nat.mul_sub_one, ← whole, Nat.add_sub_cancel]

theorem mul_le_iff_of_waited {time : Nat} (fits : timeout * 2 ^ n < Count.bound)
    (reached : waited timeout n ≤ time) (going : time < waited timeout (n + 1)) (m : Nat) :
    timeout * (2 ^ m - 1) ≤ time ↔ m ≤ n := by
  have twice := mul_two_pow_succ timeout n
  rw [waited_eq (by omega)] at reached going
  have mono {a b : Nat} (le : a ≤ b) : timeout * (2 ^ a - 1) ≤ timeout * (2 ^ b - 1) :=
    Nat.mul_le_mul_left timeout (Nat.sub_le_sub_right (Nat.pow_le_pow_right Nat.two_pos le) 1)
  constructor
  · intro done
    by_contra more
    have longer := mono (show n + 1 ≤ m by omega)
    omega
  · intro few
    exact Nat.le_trans (mono few) reached

end waiting

section oldest

/-- The segment was sent again `n` times in the time that was spent, and the timer runs for the next time. If all
that time came in the smallest steps, none of it was lost. -/
structure Backs (timeout : Nat) (oldest : Outstanding) (n spent : Nat) (steady : Prop) (s : Sender) : Prop where
  oldest_eq : ∃ rest, s.outstanding = { oldest with resends := n } :: rest
  timeout_eq : s.timeout = Count.double^[n] timeout
  runs : ∃ remaining ≤ Count.double^[n] timeout, s.timer = .running remaining ∧
    waited timeout (n + 1) ≤ spent + remaining ∧
    (steady → 0 < remaining ∧ waited timeout (n + 1) = spent + remaining)

theorem resends_of_front {rest : List Outstanding} (inFlight : s.outstanding = oldest :: rest) :
    s.resends = oldest.resends := by
  unfold Sender.resends
  rw [inFlight]

theorem Backs.resends_eq (backs : Backs timeout oldest n spent steady s) : s.resends = n := by
  obtain ⟨rest, inFlight⟩ := backs.oldest_eq
  exact resends_of_front inFlight

theorem Backs.waited_le (backs : Backs timeout oldest n spent steady s) : waited timeout n ≤ spent := by
  obtain ⟨remaining, remaining_le, -, enough, -⟩ := backs.runs
  rw [waited] at enough
  omega

theorem Backs.lt_waited (backs : Backs timeout oldest n spent steady s) (here : steady) :
    spent < waited timeout (n + 1) := by
  obtain ⟨remaining, -, -, -, exact⟩ := backs.runs
  obtain ⟨some, all⟩ := exact here
  omega

theorem Backs.mono (backs : Backs timeout oldest n spent steady s) {steady' : Prop} (mono : steady' → steady) :
    Backs timeout oldest n spent steady' s := by
  obtain ⟨remaining, remaining_le, running, enough, exact⟩ := backs.runs
  exact ⟨backs.oldest_eq, backs.timeout_eq, remaining, remaining_le, running, enough, exact ∘ mono⟩

theorem Backs.launch (backs : Backs timeout oldest n spent steady s) (launch : Launch s segment after) :
    Backs timeout oldest n spent steady after := by
  obtain ⟨rest, inFlight⟩ := backs.oldest_eq
  obtain ⟨remaining, remaining_le, running, exact⟩ := backs.runs
  obtain ⟨_, _, plain, -, rfl⟩ := launch.afterSend_of
  refine ⟨⟨_, by rw [launch.sends.inFlight_eq, inFlight, List.cons_append]⟩, backs.timeout_eq, remaining,
    remaining_le, ?_, exact⟩
  change s.timer.start s.timeout = .running remaining
  rw [running]
  rfl

theorem Backs.launches (backs : Backs timeout oldest n spent steady s) (launches : Launches s segments after) :
    Backs timeout oldest n spent steady after := by
  induction launches with
  | nothing => exact backs
  | next launch _ ih => exact ih (backs.launch launch)

theorem Backs.ages {elapsed : Nat} (backs : Backs timeout oldest n spent steady s)
    (ages : Ages s elapsed after) (steps : steady → 0 < timeout ∧ elapsed = 1) :
    after.queued = s.queued ∧ Backs timeout oldest n (spent + elapsed) steady after ∨
      after.queued = s.queued ++ [oldest.segment] ∧
        Backs timeout oldest (n + 1) (spent + elapsed) steady after := by
  obtain ⟨rest, inFlight⟩ := backs.oldest_eq
  obtain ⟨remaining, remaining_le, running, enough, exact⟩ := backs.runs
  cases ages with
  | @waits timer ticks =>
    rw [running, tick_running] at ticks
    split at ticks
    · cases ticks
    · obtain ⟨rfl, -⟩ := Prod.mk.inj ticks
      refine Or.inl ⟨rfl, backs.oldest_eq, backs.timeout_eq, remaining - elapsed, by omega, rfl, by omega,
        fun here => ?_⟩
      obtain ⟨some, all⟩ := exact here
      omega
  | rests _ none => cases inFlight.symm.trans none
  | @resends timer oldest' rest' ticks inFlight' =>
    obtain ⟨rfl, rfl⟩ := List.cons.inj (inFlight'.symm.trans inFlight)
    rw [running, tick_running] at ticks
    split at ticks
    · obtain ⟨rfl, -⟩ := Prod.mk.inj ticks
      have timeout_eq : Count.double s.timeout = Count.double^[n + 1] timeout := by
        rw [Function.iterate_succ_apply', backs.timeout_eq]
      refine Or.inr ⟨rfl, ⟨_, rfl⟩, timeout_eq, _, Nat.le_refl _, congrArg Timer.running timeout_eq, ?_,
        fun here => ?_⟩
      · rw [waited]
        omega
      · obtain ⟨some, all⟩ := exact here
        obtain ⟨positive, one⟩ := steps here
        rw [waited]
        exact ⟨Count.iterate_double_pos positive _, by omega⟩
    · cases ticks

theorem Backs.perform (backs : Backs timeout oldest n spent steady s)
    (h : (s.perform call).result = .ok (after, reply)) (silent : ∀ ackno window, call ≠ .ack ackno window)
    (steps : steady → 0 < timeout ∧ ∀ elapsed, call = .tick elapsed → elapsed = 1) :
    ∃ more, resent [s.event call after reply] = List.replicate more oldest.segment ∧
      Backs timeout oldest (n + more) (spent + call.span) steady after := by
  cases perform_answers h with
  | fill hfill =>
    obtain ⟨_, launches⟩ := fillWindow_launches hfill
    exact ⟨0, rfl, backs.launches launches⟩
  | ack => exact absurd rfl (silent _ _)
  | legal => exact ⟨0, rfl, backs⟩
  | @tick elapsed _ htick =>
    have ticks (queued : List Segment) (queued_eq : after.queued = s.queued ++ queued) :
        resent [s.event (.tick elapsed) after .done] = queued := by
      rw [resent_singleton, event, queued_eq, List.drop_left]
      rfl
    rcases backs.ages (tick_ages htick) fun here => (steps here).imp_right fun one => one elapsed rfl with
      ⟨same, backs⟩ | ⟨again, backs⟩
    · exact ⟨0, ticks [] (same.trans (List.append_nil _).symm), backs⟩
    · exact ⟨1, ticks _ again, backs⟩
  | sendEmpty | stream => exact ⟨0, rfl, backs.oldest_eq, backs.timeout_eq, backs.runs⟩

def Steady (events : List Event) : Prop := ∀ e ∈ events, ∀ elapsed, e.call = .tick elapsed → elapsed = 1

theorem Since.backs (since : Since first events s) (start : Backs timeout oldest 0 0 (0 < timeout) first)
    (silent : ∀ e ∈ events, ∀ ackno window, e.call ≠ .ack ackno window) :
    ∃ n, resent events = List.replicate n oldest.segment ∧
      Backs timeout oldest n (elapsed events) (0 < timeout ∧ Steady events) s := by
  induction since with
  | start => exact ⟨0, rfl, start.mono And.left⟩
  | @called events s after call reply _ performs ih =>
    rw [List.forall_mem_append, List.forall_mem_singleton] at silent
    obtain ⟨n, resent_eq, backs⟩ := ih silent.1
    have split : Steady (events ++ [s.event call after reply]) ↔
        Steady events ∧ ∀ elapsed, call = .tick elapsed → elapsed = 1 := by
      unfold Steady
      rw [List.forall_mem_append, List.forall_mem_singleton]
      rfl
    have backs : Backs timeout oldest n (elapsed events)
        (0 < timeout ∧ Steady (events ++ [s.event call after reply])) s :=
      backs.mono fun here => ⟨here.1, (split.mp here.2).1⟩
    obtain ⟨more, more_eq, backs⟩ := backs.perform performs silent.2
      fun here => ⟨here.1, (split.mp here.2).2⟩
    refine ⟨n + more, ?_, ?_⟩
    · rw [resent_append, resent_eq, more_eq, List.replicate_append_replicate]
    · rw [elapsed_append, elapsed_singleton]
      exact backs
  | drained _ _ ih =>
    obtain ⟨n, resent_eq, backs⟩ := ih silent
    exact ⟨n, resent_eq, backs.oldest_eq, backs.timeout_eq, backs.runs⟩

end oldest

section opening

theorem launches_of_perform (reachable : Reachable timeout s)
    (h : (s.perform call).result = .ok (after, reply)) :
    ∃ middle segments, Books timeout middle ∧ middle.nextSeqno = s.nextSeqno ∧
      Launches middle segments after := by
  have books := reachable.books
  have books' := books.perform h
  have nothing (next_eq : after.nextSeqno = s.nextSeqno) : ∃ middle segments, Books timeout middle ∧
      middle.nextSeqno = s.nextSeqno ∧ Launches middle segments after :=
    ⟨after, [], books', next_eq, .nothing after⟩
  cases perform_answers h with
  | fill hfill =>
    obtain ⟨segments, launches⟩ := fillWindow_launches hfill
    exact ⟨s, segments, books, rfl, launches⟩
  | ack hack =>
    rcases ackReceived_launches hack with rfl | ⟨heard, segments, heeds, launches⟩
    · exact nothing rfl
    · refine ⟨heard, segments, books.heeds heeds, ?_, launches⟩
      cases heeds with
      | again => rfl
      | moves _ _ _ hadvance => exact (advance_timed hadvance).2.1
  | legal | sendEmpty | stream => exact nothing rfl
  | tick htick =>
    refine nothing ?_
    cases tick_ages htick with
    | waits | rests | resends => rfl

theorem Launch.backs (launch : Launch s segment after) (books : Books timeout s) (none : s.outstanding = []) :
    Backs timeout { endSeqno := s.nextSeqno + segment.sequenceLength, segment } 0 0 (0 < timeout) after := by
  obtain ⟨now, timed⟩ := books.timed
  obtain ⟨idle, timeout_eq⟩ := timed.rests none
  have inFlight := launch.sends.inFlight_eq
  rw [none, List.nil_append] at inFlight
  obtain ⟨_, _, _, -, rfl⟩ := launch.afterSend_of
  have timeout_eq : s.timeout = timeout := timeout_eq.trans books.first
  have whole : waited timeout (0 + 1) = 0 + timeout := rfl
  refine ⟨⟨[], inFlight⟩, timeout_eq, timeout, Nat.le_refl _, ?_, Nat.le_of_eq whole, fun some => ⟨some, whole⟩⟩
  change s.timer.start s.timeout = .running timeout
  rw [idle, timeout_eq]
  rfl

theorem perform_backs {rest : List Outstanding} (reachable : Reachable timeout s)
    (h : (s.perform call).result = .ok (after, reply)) (inFlight : after.outstanding = oldest :: rest)
    (new : s.nextSeqno < oldest.endSeqno) : Backs timeout oldest 0 0 (0 < timeout) after := by
  obtain ⟨middle, segments, books, next_eq, launches⟩ := launches_of_perform reachable h
  have place {item : Outstanding} (member : item ∈ middle.outstanding) : item.endSeqno ≤ middle.nextSeqno :=
    (books.contiguous.lt_endSeqno member).2
  cases launches with
  | nothing =>
    have old := place (inFlight ▸ List.mem_cons_self)
    omega
  | next launch launches =>
    -- nothing was in flight before, or the oldest segment would not be new
    have none : middle.outstanding = [] := by
      cases before : middle.outstanding with
      | nil => rfl
      | cons item others =>
        have front := (Launches.next launch launches).front
        rw [before, inFlight, List.cons_prefix_cons] at front
        obtain ⟨rfl, -⟩ := front
        have old := place (before ▸ List.mem_cons_self)
        omega
    have first := launch.backs books none
    obtain ⟨_, inFlight'⟩ := (first.launches launches).oldest_eq
    obtain ⟨rfl, -⟩ := List.cons.inj (inFlight.symm.trans inFlight')
    exact first.launches launches

theorem tick_returns (few : s.resends + 1 < UInt32.size) (elapsed : Nat) :
    ∃ after, (s.tick elapsed).result = .ok after := by
  unfold tick
  generalize s.timer.tick elapsed = ticked
  obtain ⟨timer, expired⟩ := ticked
  cases expired with
  | false => exact ⟨_, rfl⟩
  | true =>
    cases inFlight : s.outstanding with
    | nil => exact ⟨_, rfl⟩
    | cons oldest rest =>
      rw [resends_of_front inFlight] at few
      have next : Count.nextAttempt oldest.resends = .ok (oldest.resends + 1) :=
        Count.nextAttempt_eq_ok_iff.mpr ⟨rfl, few⟩
      simp only [Run.result_bind, Run.result_lift, next, ok_bind]
      exact ⟨_, rfl⟩

end opening

/-- Let a segment be the only one in flight when it is sent, and let no acknowledgment come from then on. However the
time is told, the segment is sent again `n` times and nothing else is; that is the number that the sender counts, and
the first `n` timeouts are over, each twice the one before up to the largest counter. If time is told in steps of
one, timeout `n + 1` is not over. -/
theorem backs_off {timeout : Nat} {before first s : Sender} {call : Call} {reply : Reply} {oldest : Outstanding}
    {rest : List Outstanding} {events : List Event} (reachable : Reachable timeout before)
    (h : (before.perform call).result = .ok (first, reply)) (inFlight : first.outstanding = oldest :: rest)
    (new : before.nextSeqno < oldest.endSeqno) (since : Since first events s)
    (silent : ∀ e ∈ events, ∀ ackno window, e.call ≠ .ack ackno window) :
    ∃ n, resent events = List.replicate n oldest.segment ∧ s.resends = n ∧
      (∀ segment ∈ sent events, 0 < segment.sequenceLength →
        segment ∈ resent events ∨ segment ∈ launched events) ∧
      Placed first.isn first.nextSeqno (launched events) ∧
      waited timeout n ≤ elapsed events ∧
      (timeout * 2 ^ n < 2 * Count.bound → timeout * (2 ^ n - 1) ≤ elapsed events) ∧
      (0 < timeout → (∀ e ∈ events, ∀ elapsed, e.call = .tick elapsed → elapsed = 1) →
        elapsed events < waited timeout (n + 1) ∧
        (timeout * 2 ^ n < Count.bound → ∀ m, timeout * (2 ^ m - 1) ≤ elapsed events ↔ m ≤ n)) ∧
      (n + 1 < UInt32.size → ∀ elapsed, ∃ after, (s.tick elapsed).result = .ok after) := by
  obtain ⟨n, resent_eq, backs⟩ := since.backs (perform_backs reachable h inFlight new) silent
  have reached := backs.waited_le
  refine ⟨n, resent_eq, backs.resends_eq, fun segment => since.mem_sent, since.placed.1, reached,
    fun fits => waited_eq fits ▸ reached, fun some steady => ?_, fun few => tick_returns (backs.resends_eq ▸ few)⟩
  have going := backs.lt_waited ⟨some, steady⟩
  exact ⟨going, fun fits => mul_le_iff_of_waited fits reached going⟩

theorem backs_off_in_steps_of_one : ∃ first oldest events s, first.outstanding = [oldest] ∧ Since first events s ∧
    elapsed events = 7 ∧ resent events = List.replicate 2 oldest.segment ∧ s.resends = 2 ∧
    (launched events).length = 1 ∧ Placed first.isn first.nextSeqno (launched events) ∧
    ∀ m, 2 * (2 ^ m - 1) ≤ elapsed events ↔ m ≤ 2 := by
  have seen : (do
      let opened ← record (initial 8 2 ⟨1000⟩) [.fill, .ack ⟨1001⟩ 3, .stream (.write [97, 98])]
      let filled ← (opened.2.perform .fill).result
      let log ← filled.1.record [.tick 1, .tick 1, .stream (.write [99]), .fill, .tick 1, .tick 1, .tick 1, .tick 1,
        .tick 1]
      return ((opened.2.nextSeqno, filled.2, filled.1.outstanding), log.1.map Event.call, (resent log.1).length,
        (launched log.1).length) :
      Except Fault ((Nat × Reply × List Outstanding) × List Call × Nat × Nat)) =
      .ok ((1, .done, [{ endSeqno := 3, segment := { seqno := ⟨1001⟩, payload := [97, 98] } }]),
        [.tick 1, .tick 1, .stream (.write [99]), .fill, .tick 1, .tick 1, .tick 1, .tick 1, .tick 1], 2, 1) := by
    decide +kernel
  simp only [bind_eq_ok, pure_eq_ok, Prod.mk.injEq] at seen
  obtain ⟨⟨_, before⟩, opened, ⟨first, _⟩, h, ⟨events, s⟩, logged, ⟨next_eq, rfl, inFlight⟩, calls, two, one⟩ :=
    seen
  have made : create 8 2 ⟨1000⟩ = .ok (initial 8 2 ⟨1000⟩) := rfl
  have reachable : Reachable 2 before := (Reachable.made made).record opened
  have since : Since first events s := Since.start.record logged
  have called {P : Call → Prop} (all : ∀ call ∈ events.map Event.call, P call) : ∀ e ∈ events, P e.call :=
    List.forall_mem_map.mp all
  have time : elapsed events = 7 := by
    have sum : elapsed events = ((events.map Event.call).map Call.span).sum := by
      rw [List.map_map]
      rfl
    rw [sum, calls]
    rfl
  have new : before.nextSeqno < 3 := by
    simp only at next_eq
    omega
  have silent : ∀ e ∈ events, ∀ ackno window, e.call ≠ .ack ackno window :=
    called (P := fun call => ∀ ackno window, call ≠ .ack ackno window) (by simp [calls])
  have steady : ∀ e ∈ events, ∀ elapsed, e.call = .tick elapsed → elapsed = 1 :=
    called (P := fun call => ∀ elapsed, call = .tick elapsed → elapsed = 1) (by simp [calls])
  obtain ⟨n, resent_eq, resends_eq, -, placed, -, -, exact, -⟩ := backs_off reachable h inFlight new since silent
  obtain rfl : n = 2 := by
    rw [← two, resent_eq, List.length_replicate]
  obtain ⟨-, largest⟩ := exact Nat.two_pos steady
  exact ⟨first, _, events, s, inFlight, since, time, resent_eq, resends_eq, one, placed, largest (by decide)⟩

/-- Twice a timeout of half the counters is cut, so the segment is sent again for the second time before the sum of
the two is over. -/
theorem second_attempt_of_half_the_counters : ∃ before first oldest events s, Reachable (2 ^ 63) before ∧
    (before.perform .fill).result = .ok (first, .done) ∧ first.outstanding = [oldest] ∧
    before.nextSeqno < oldest.endSeqno ∧ Since first events s ∧
    (∀ e ∈ events, ∀ ackno window, e.call ≠ .ack ackno window) ∧
    resent events = List.replicate 2 oldest.segment ∧ ¬2 ^ 63 * (2 ^ 2 - 1) ≤ elapsed events := by
  have seen : (do
      let filled ← ((initial 8 (2 ^ 63) ⟨1000⟩).perform .fill).result
      let log ← filled.1.record [.tick (2 ^ 63), .tick (2 ^ 64 - 1)]
      return (filled.2, filled.1.outstanding, log.1) : Except Fault (Reply × List Outstanding × List Event)) =
      .ok (.done, [{ endSeqno := 1, segment := { syn := true, seqno := ⟨1000⟩ } }],
        [⟨.tick (2 ^ 63), .done, [{ syn := true, seqno := ⟨1000⟩ }]⟩,
          ⟨.tick (2 ^ 64 - 1), .done, [{ syn := true, seqno := ⟨1000⟩ }]⟩]) := by decide +kernel
  simp only [bind_eq_ok, pure_eq_ok, Prod.mk.injEq] at seen
  obtain ⟨⟨first, _⟩, h, ⟨events, s⟩, logged, rfl, inFlight, rfl⟩ := seen
  have made : create 8 (2 ^ 63) ⟨1000⟩ = .ok (initial 8 (2 ^ 63) ⟨1000⟩) := rfl
  exact ⟨_, first, _, _, s, .made made, h, inFlight, by decide, Since.start.record logged, by simp, rfl, by decide⟩

end Sender
end TcpStack

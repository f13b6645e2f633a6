import TcpStack.Proofs.Sender.Returns
import TcpStack.Proofs.Sender.Timing

/-! The books of a sender. Whatever is asked of it, what it keeps about the segments in flight agrees: their
numbers, how many those are, how far they are acknowledged, whether the timer runs, and how often the timeout
was doubled. -/

namespace TcpStack.Sender

open Outcome

/-- The sender was made with this first timeout, and has come this way since. What is queued may leave at any
time between two calls. -/
inductive Reachable (timeout : Nat) : Sender → Prop
  | made {capacity : Nat} {isn : SeqNum} {s : Sender} (makes : create capacity timeout isn = .ok s) :
      Reachable timeout s
  | called {s after : Sender} {call : Call} {reply : Reply} (before : Reachable timeout s)
      (performs : (s.perform call).result = .ok (after, reply)) : Reachable timeout after
  | drained {s : Sender} (before : Reachable timeout s) (count : Nat) :
      Reachable timeout { s with queued := s.queued.drop count }

/-- What is so of every sender that was made with this first timeout. No account is kept here of when something
was sent. -/
structure Books (timeout : Nat) (s : Sender) : Prop extends Ledger s where
  sound : s.stream.Sound
  short : s.stream.written < Count.bound
  waits : s.Waits
  first : s.initialTimeout = timeout
  fresh : ∀ item ∈ s.outstanding.tail, item.resends = 0
  backoff : s.timeout = Count.double^[s.resends] timeout
  timed : ∃ now, Timed (fun _ _ => True) now s

variable {timeout elapsed : Nat} {s after : Sender} {segment : Segment} {segments : List Segment}
  {call : Call} {reply : Reply}

section resends

theorem resends_eq_zero (fresh : ∀ item ∈ s.outstanding, item.resends = 0) : s.resends = 0 := by
  unfold Sender.resends
  split
  · rfl
  · rename_i oldest rest inFlight
    exact fresh oldest (inFlight ▸ List.mem_cons_self)

theorem resends_of_same (outstanding_eq : after.outstanding = s.outstanding) :
    after.resends = s.resends := by
  unfold Sender.resends
  rw [outstanding_eq]

theorem resends_afterSend (s : Sender) (segment : Segment) :
    (s.afterSend segment).resends = s.resends := by
  unfold Sender.resends afterSend
  cases s.outstanding <;> rfl

theorem fresh_afterSend (fresh : ∀ item ∈ s.outstanding.tail, item.resends = 0) :
    ∀ item ∈ (s.afterSend segment).outstanding.tail, item.resends = 0 := by
  unfold afterSend
  cases inFlight : s.outstanding with
  | nil => simp
  | cons oldest rest =>
    rw [inFlight] at fresh
    exact forall_mem_concat fresh rfl

end resends

theorem Timed.idle_iff {sent : Nat → Nat → Prop} {now : Nat} (timed : Timed sent now s) :
    s.timer = .idle ↔ s.outstanding = [] := by
  refine ⟨fun idle => ?_, fun none => (timed.rests none).1⟩
  by_contra some
  obtain ⟨oldest, rest, inFlight⟩ := List.exists_cons_of_ne_nil some
  obtain ⟨remaining, _, running, -⟩ := timed.runs oldest rest inFlight
  rw [idle] at running
  cases running

theorem books_initial {capacity : Nat} (isn : SeqNum) (fits : capacity < Cells.limit) :
    Books timeout (initial capacity timeout isn) := by
  have short : 0 < Count.bound := by decide
  exact ⟨ledger_initial _ _ _, ByteStream.sound_ofCapacity fits, short, nofun, rfl, nofun, rfl, 0,
    ⟨fun _ => ⟨rfl, rfl⟩, nofun, nofun⟩⟩

theorem Books.of_same (books : Books timeout s) {stream : ByteStream} {queued : List Segment}
    (sound : stream.Sound) (short : stream.written < Count.bound)
    (plain : ∀ segment ∈ queued, segment.ack = false) :
    Books timeout { s with stream, queued } := by
  obtain ⟨now, timed⟩ := books.timed
  exact ⟨books.toLedger.of_same rfl rfl rfl rfl plain, sound, short, books.waits, books.first, books.fresh,
    books.backoff, now, timed.rests, timed.runs, timed.known⟩

theorem Books.launch (books : Books timeout s) (launch : Launch s segment after) : Books timeout after := by
  have step : Step none s after := launch.step
  have ledger := books.toLedger.step step
  have sound := (step.stream_sound books.sound).1
  have short := step.written_eq books.sound ▸ books.short
  have waits := launch.sends.waits books.highestAck_le books.waits
  have timed : ∃ now, Timed (fun _ _ => True) now after :=
    books.timed.imp fun now timed => timed.move (.launches launch) fun _ _ _ => trivial
  obtain ⟨stream, fin, plain, -, rfl⟩ := launch.afterSend_of
  refine ⟨ledger, sound, short, waits, books.first, fresh_afterSend books.fresh, ?_, timed⟩
  rw [resends_afterSend]
  exact books.backoff

theorem Books.launches (books : Books timeout s) (launches : Launches s segments after) :
    Books timeout after := by
  induction launches with
  | nothing => exact books
  | next launch _ ih => exact ih (books.launch launch)

theorem Books.heeds (books : Books timeout s) {ackno : SeqNum} {window : UInt16}
    (heeds : Heeds s ackno window after) : Books timeout after := by
  have waits := heeds.waits books.waits
  have timed : ∃ now, Timed (fun _ _ => True) now after :=
    books.timed.imp fun now timed => timed.move (.heeds heeds) fun _ _ _ => trivial
  cases heeds with
  | again =>
    exact ⟨books.toLedger.of_same rfl rfl rfl rfl books.plain, books.sound, books.short, waits, books.first,
      books.fresh, books.backoff, timed⟩
  | moves hunwrap ahead sent hadvance =>
    have heard : Ledger { s with window } := books.toLedger.of_same rfl rfl rfl rfl books.plain
    have ledger := heard.advance ahead sent hadvance
    obtain ⟨first_eq, -, -, released⟩ := advance_timed hadvance
    have stream_eq : after.stream = s.stream := by
      obtain ⟨_, _, _, _, _, rfl⟩ := advance_eq_ok hadvance
      rfl
    have fresh_backoff : (∀ item ∈ after.outstanding.tail, item.resends = 0) ∧
        after.timeout = Count.double^[after.resends] timeout := by
      rcases released with ⟨same, -, timeout_eq⟩ | ⟨fewer, timeout_eq, -⟩
      · have resends_eq : after.resends = s.resends := resends_of_same same
        rw [same, resends_eq, timeout_eq]
        exact ⟨books.fresh, books.backoff⟩
      · have fresh : ∀ item ∈ after.outstanding, item.resends = 0 :=
          fun item member => books.fresh item (fewer.subset member)
        rw [resends_eq_zero fresh, timeout_eq]
        exact ⟨fun item member => fresh item (List.mem_of_mem_tail member), books.first⟩
    exact ⟨ledger, stream_eq ▸ books.sound, stream_eq ▸ books.short, waits, first_eq.trans books.first,
      fresh_backoff.1, fresh_backoff.2, timed⟩

theorem Books.ages (books : Books timeout s) (ages : Ages s elapsed after) : Books timeout after := by
  have timed : ∃ now, Timed (fun _ _ => True) now after := by
    obtain ⟨now, timed⟩ := books.timed
    exact ⟨now + elapsed, timed.ages ages⟩
  cases ages with
  | waits | rests =>
    exact ⟨books.toLedger.of_same rfl rfl rfl rfl books.plain, books.sound, books.short, books.waits,
      books.first, books.fresh, books.backoff, timed⟩
  | @resends timer oldest rest _ inFlight =>
    have step : Step none s _ := .resends (oldest.resends + 1) (Count.double s.timeout)
      (timer.start (Count.double s.timeout)) inFlight
    have resends_eq : s.resends = oldest.resends := by
      unfold Sender.resends
      rw [inFlight]
    refine ⟨books.toLedger.step step, books.sound, books.short, fun other others split => ?_, books.first,
      ?_, ?_, timed⟩
    · cases split
      exact books.waits oldest rest inFlight
    · have fresh := books.fresh
      rw [inFlight] at fresh
      exact fresh
    · change Count.double s.timeout = Count.double^[oldest.resends + 1] timeout
      rw [Function.iterate_succ_apply', ← resends_eq, ← books.backoff]

theorem Books.perform (books : Books timeout s) (h : (s.perform call).result = .ok (after, reply)) :
    Books timeout after := by
  cases perform_answers h with
  | fill hfill =>
    obtain ⟨_, launches⟩ := fillWindow_launches hfill
    exact books.launches launches
  | ack hack =>
    rcases ackReceived_launches hack with rfl | ⟨_, _, heeds, launches⟩
    · exact books
    · exact (books.heeds heeds).launches launches
  | legal => exact books
  | tick htick => exact books.ages (tick_ages htick)
  | sendEmpty => exact books.of_same books.sound books.short (forall_mem_concat books.plain rfl)
  | stream performs =>
    exact books.of_same (ByteStream.perform_sound books.sound performs).1
      (ByteStream.perform_short books.sound books.short performs) books.plain

theorem Reachable.books (reachable : Reachable timeout s) : Books timeout s := by
  induction reachable with
  | made makes =>
    obtain ⟨fits, rfl⟩ := create_eq_ok makes
    exact books_initial _ fits
  | called _ performs ih => exact ih.perform performs
  | drained _ count ih =>
    exact ih.of_same ih.sound ih.short fun segment member => ih.plain segment (List.mem_of_mem_drop member)

/-- The segments in flight stand one behind the other up to the next number, and as many numbers as they take
are counted. The acknowledged number is inside the oldest of them, or is the next one if there is none. Only
the oldest was sent again, the timer runs while something is in flight, and the timeout was doubled as often as
the oldest was sent again. -/
theorem in_flight_accounted (reachable : Reachable timeout s) :
    (∃ start, Contiguous start s.outstanding s.nextSeqno ∧ start ≤ s.highestAck) ∧
    s.inFlight = numbers (s.outstanding.map Outstanding.segment) ∧
    s.highestAck ≤ s.nextSeqno ∧
    (∀ oldest rest, s.outstanding = oldest :: rest →
      s.highestAck < oldest.endSeqno ∧ ∀ item ∈ rest, item.resends = 0) ∧
    (s.outstanding = [] → s.highestAck = s.nextSeqno) ∧
    (s.timer = .idle ↔ s.outstanding = []) ∧
    s.timeout = Count.double^[s.resends] timeout := by
  have books := reachable.books
  have contiguous := books.contiguous
  have released_le := books.released_le
  have highestAck_le := books.highestAck_le
  have inFlight_le := books.inFlight_le
  have stop_eq := contiguous.stop_eq
  obtain ⟨now, timed⟩ := books.timed
  refine ⟨⟨_, contiguous, released_le⟩, by omega, highestAck_le, fun oldest rest inFlight => ?_,
    fun none => ?_, timed.idle_iff, books.backoff⟩
  · have fresh := books.fresh
    rw [inFlight] at fresh
    exact ⟨books.waits oldest rest inFlight, fresh⟩
  · rw [none] at contiguous
    have start_eq : s.nextSeqno - s.inFlight = s.nextSeqno := contiguous
    omega

theorem Reachable.record {calls : List Call} {events : List Event} (before : Reachable timeout s)
    (h : s.record calls = .ok (events, after)) : Reachable timeout after := by
  induction calls generalizing s events with
  | nil =>
    cases h
    exact before
  | cons call rest ih =>
    unfold Sender.record at h
    simp only [bind_eq_ok, pure_eq_ok] at h
    obtain ⟨⟨middle, reply⟩, performs, ⟨_, last⟩, hrest, h⟩ := h
    cases h
    exact ih (before.called performs) hrest

theorem reachable_logOfCalls {calls : List Call} {events : List Event}
    (h : logOfCalls calls = .ok (events, s)) : Reachable 100 s :=
  Reachable.record (.made (show create 8 100 ⟨1000⟩ = .ok (initial 8 100 ⟨1000⟩) by rfl)) h

theorem accounted_over_resends : ∃ s, Reachable 100 s ∧ s.nextSeqno = 6 ∧ s.highestAck = 2 ∧
    s.outstanding.length = 2 ∧ s.inFlight = numbers (s.outstanding.map Outstanding.segment) ∧
    s.timer ≠ .idle ∧ s.timeout = Count.double^[2] 100 := by
  have seen : (fun log : List Event × Sender => (log.2.nextSeqno, log.2.highestAck,
      log.2.outstanding.length, log.2.resends)) <$>
      logOfCalls [.stream (.write [97, 98, 99, 100, 101]), .fill, .ack ⟨1001⟩ 3, .tick 100,
        .ack ⟨1002⟩ 4, .tick 200] = .ok (6, 2, 2, 2) := by decide +kernel
  obtain ⟨⟨events, s⟩, logged, look⟩ := map_eq_ok.mp seen
  simp only [Prod.mk.injEq] at look
  obtain ⟨next_eq, ack_eq, two, resends_eq⟩ := look
  have reachable := reachable_logOfCalls logged
  obtain ⟨-, count, -, -, -, idle_iff, backoff⟩ := in_flight_accounted reachable
  refine ⟨s, reachable, next_eq, ack_eq, two, count, fun idle => ?_, resends_eq ▸ backoff⟩
  rw [idle_iff.mp idle] at two
  cases two

end TcpStack.Sender

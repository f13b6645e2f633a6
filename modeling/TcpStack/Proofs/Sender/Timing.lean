import TcpStack.Proofs.Sender.Emission

/-! When a sender sends a segment again. It reads no clock: it knows the time that it was told of, and takes
what it sends for sent at that time. By this reckoning nothing is sent again before the first timeout is
over. -/

namespace TcpStack.Sender

open Outcome

variable {sent : Nat → Nat → Prop} {now elapsed : Nat} {s middle after : Sender} {segment : Segment}
  {segments : List Segment} {ackno : SeqNum} {window : UInt16} {o : Outstanding}

inductive Move (s : Sender) : Sender → Prop
  | launches {segment : Segment} {after : Sender} (launch : Launch s segment after) : Move s after
  | heeds {ackno : SeqNum} {window : UInt16} {after : Sender} (heeds : Heeds s ackno window after) :
      Move s after
  | turns (stream : ByteStream) (queued : List Segment) : Move s { s with stream, queued }

def Moves : Sender → Sender → Prop := Relation.ReflTransGen Move

theorem Move.moves (move : Move s after) : Moves s after := Relation.ReflTransGen.single move

theorem Moves.refl (s : Sender) : Moves s s := Relation.ReflTransGen.refl

theorem Moves.trans (first : Moves s middle) (second : Moves middle after) : Moves s after :=
  Relation.ReflTransGen.trans first second

theorem Launches.moves (launches : Launches s segments after) : Moves s after := by
  induction launches with
  | nothing => exact .refl _
  | next launch _ ih => exact (Move.launches launch).moves.trans ih

theorem fillWindow_moves (h : s.fillWindow.result = .ok after) : Moves s after := by
  obtain ⟨_, launches⟩ := fillWindow_launches h
  exact launches.moves

theorem ackReceived_moves {legal : Bool} (h : (s.ackReceived ackno window).result = .ok (after, legal)) :
    Moves s after := by
  rcases ackReceived_launches h with rfl | ⟨heard, _, heeds, launches⟩
  · exact .refl _
  · exact (Move.heeds heeds).moves.trans launches.moves

inductive Ages (s : Sender) (elapsed : Nat) : Sender → Prop
  | waits {timer : Timer} (ticks : s.timer.tick elapsed = (timer, false)) : Ages s elapsed { s with timer }
  | rests {timer : Timer} (ticks : s.timer.tick elapsed = (timer, true)) (none : s.outstanding = []) :
      Ages s elapsed { s with timer }
  | resends {timer : Timer} {oldest : Outstanding} {rest : List Outstanding}
      (ticks : s.timer.tick elapsed = (timer, true)) (inFlight : s.outstanding = oldest :: rest) :
      Ages s elapsed { s with
        outstanding := { oldest with resends := oldest.resends + 1 } :: rest
        queued := s.queued ++ [oldest.segment]
        timeout := Count.double s.timeout
        timer := timer.start (Count.double s.timeout) }

theorem tick_ages (h : (s.tick elapsed).result = .ok after) : Ages s elapsed after := by
  unfold tick at h
  generalize ticks : s.timer.tick elapsed = ticked at h
  obtain ⟨timer, expired⟩ := ticked
  cases expired with
  | false =>
    cases h
    exact .waits ticks
  | true =>
    simp only at h
    split at h
    · rename_i oldest rest _ inFlight
      simp only [Run.result_bind, Run.result_lift, Run.result_say, Run.result_pure, bind_eq_ok,
        Count.nextAttempt_eq_ok_iff, Except.ok.injEq] at h
      obtain ⟨attempt, ⟨rfl, -⟩, _, -, rfl⟩ := h
      exact .resends ticks inFlight
    · rename_i other
      cases h
      refine .rests ticks ?_
      by_contra some
      obtain ⟨oldest, rest, inFlight⟩ := List.exists_cons_of_ne_nil some
      exact other oldest rest rfl inFlight

/-- The segment is counted as sent again between the two. It is counted when it is queued again, and only
then. -/
def Repeats (s after : Sender) (o : Outstanding) : Prop :=
  o ∈ s.outstanding ∧
    ∃ again ∈ after.outstanding, again.endSeqno = o.endSeqno ∧ o.resends < again.resends

def Patient (limit : Nat) (s : Sender) : Prop := ∀ item ∈ s.outstanding, item.resends ≤ limit

/-- The timer runs while something is in flight, and leaves the oldest segment the first timeout at least.
`sent` says which numbers were sent first, each by its last one, and at what time. -/
structure Timed (sent : Nat → Nat → Prop) (now : Nat) (s : Sender) : Prop where
  rests : s.outstanding = [] → s.timer = .idle ∧ s.timeout = s.initialTimeout
  runs : ∀ oldest rest, s.outstanding = oldest :: rest → ∃ remaining since,
    s.timer = .running remaining ∧ sent oldest.endSeqno since ∧
      since + s.initialTimeout ≤ now + remaining
  known : ∀ item ∈ s.outstanding, ∃ since ≤ now, sent item.endSeqno since

theorem Timed.later (timed : Timed sent now s) {later : Nat} (past : now ≤ later) : Timed sent later s := by
  refine ⟨timed.rests, fun oldest rest inFlight => ?_, fun item member => ?_⟩
  · obtain ⟨remaining, since, running, oldest_sent, left⟩ := timed.runs oldest rest inFlight
    exact ⟨remaining, since, running, oldest_sent, by omega⟩
  · obtain ⟨since, before, item_sent⟩ := timed.known item member
    exact ⟨since, Nat.le_trans before past, item_sent⟩

theorem Timed.mono (timed : Timed sent now s) {sent' : Nat → Nat → Prop}
    (more : ∀ number since, sent number since → sent' number since) : Timed sent' now s := by
  refine ⟨timed.rests, fun oldest rest inFlight => ?_, fun item member => ?_⟩
  · obtain ⟨remaining, since, running, oldest_sent, left⟩ := timed.runs oldest rest inFlight
    exact ⟨remaining, since, running, more _ _ oldest_sent, left⟩
  · obtain ⟨since, before, item_sent⟩ := timed.known item member
    exact ⟨since, before, more _ _ item_sent⟩

section numbers

theorem Contiguous.lt_endSeqno {start stop : Nat} {outstanding : List Outstanding}
    (contiguous : Contiguous start outstanding stop) {item : Outstanding} (member : item ∈ outstanding) :
    start < item.endSeqno ∧ item.endSeqno ≤ stop := by
  induction outstanding generalizing start with
  | nil => cases member
  | cons oldest rest ih =>
    obtain ⟨place, some, others⟩ := contiguous
    have behind := others.stop_eq
    rcases List.mem_cons.mp member with rfl | member
    · omega
    · have inside := ih others member
      omega

theorem Contiguous.eq_of_endSeqno {start stop : Nat} {outstanding : List Outstanding}
    (contiguous : Contiguous start outstanding stop) {item other : Outstanding}
    (member : item ∈ outstanding) (member' : other ∈ outstanding)
    (same : item.endSeqno = other.endSeqno) : item = other := by
  induction outstanding generalizing start with
  | nil => cases member
  | cons oldest rest ih =>
    obtain ⟨-, -, others⟩ := contiguous
    rcases List.mem_cons.mp member with first | later <;>
      rcases List.mem_cons.mp member' with first' | later'
    · exact first.trans first'.symm
    · exact absurd (first ▸ same) (Nat.ne_of_lt (others.lt_endSeqno later').1)
    · exact absurd (first' ▸ same.symm) (Nat.ne_of_lt (others.lt_endSeqno later).1)
    · exact ih others later later'

end numbers

section moves

theorem advance_timed {ack : Nat} (h : s.advance ack = .ok after) :
    after.initialTimeout = s.initialTimeout ∧ after.nextSeqno = s.nextSeqno ∧
      (∀ item ∈ after.outstanding, item ∈ s.outstanding) ∧
      (after.outstanding = s.outstanding ∧ after.timer = s.timer ∧ after.timeout = s.timeout ∨
        after.outstanding <:+ s.outstanding.tail ∧ after.timeout = s.initialTimeout ∧
          after.timer = if after.outstanding.isEmpty then .idle else .running s.initialTimeout) := by
  unfold advance at h
  simp only [bind_eq_ok] at h
  obtain ⟨⟨inFlight, outstanding⟩, hrelease, h⟩ := h
  simp only at h
  by_cases same : outstanding.length = s.outstanding.length
  · rw [if_pos same, pure_eq_ok] at h
    subst h
    exact ⟨rfl, rfl, fun _ => mem_of_release hrelease,
      Or.inl ⟨(release_suffix hrelease).eq_of_length same, rfl, rfl⟩⟩
  · rw [if_neg same, pure_eq_ok] at h
    subst h
    have fewer : outstanding <:+ s.outstanding.tail := by
      have suffix := release_suffix hrelease
      cases before : s.outstanding with
      | nil =>
        rw [before] at suffix
        exact suffix
      | cons oldest rest =>
        rw [before] at suffix same
        exact (List.suffix_cons_iff.mp suffix).resolve_left fun all => same (congrArg List.length all)
    exact ⟨rfl, rfl, fun _ => mem_of_release hrelease, Or.inr ⟨fewer, rfl, rfl⟩⟩

theorem Launch.afterSend_of (launch : Launch s segment after) :
    ∃ stream fin plain, 0 < Segment.sequenceLength plain ∧
      after = afterSend { s with stream, finSent := fin } plain := by
  cases launch with
  | opens => exact ⟨s.stream, s.finSent, _, by decide, rfl⟩
  | cuts _ _ _ _ some => exact ⟨_, _, _, sequenceLength_pos some, rfl⟩

theorem Move.mem (move : Move s after) : s.nextSeqno ≤ after.nextSeqno ∧
    after.initialTimeout = s.initialTimeout ∧
    ∀ item ∈ after.outstanding, item ∈ s.outstanding ∨
      s.nextSeqno < item.endSeqno ∧ item.endSeqno ≤ after.nextSeqno ∧ item.resends = 0 := by
  cases move with
  | launches launch =>
    obtain ⟨stream, fin, plain, some, rfl⟩ := launch.afterSend_of
    refine ⟨Nat.le_add_right _ _, rfl, fun item member => ?_⟩
    rcases List.mem_append.mp member with old | new
    · exact Or.inl old
    · obtain rfl := List.mem_singleton.mp new
      exact Or.inr ⟨Nat.lt_add_of_pos_right some, Nat.le_refl _, rfl⟩
  | heeds heeds =>
    cases heeds with
    | again => exact ⟨Nat.le_refl _, rfl, fun _ => Or.inl⟩
    | moves _ _ _ hadvance =>
      obtain ⟨timeout_eq, next_eq, stays, -⟩ := advance_timed hadvance
      exact ⟨Nat.le_of_eq next_eq.symm, timeout_eq, fun item member => Or.inl (stays item member)⟩
  | turns => exact ⟨Nat.le_refl _, rfl, fun _ => Or.inl⟩

theorem Moves.mem (moves : Moves s after) : s.nextSeqno ≤ after.nextSeqno ∧
    after.initialTimeout = s.initialTimeout ∧
    ∀ item ∈ after.outstanding, item ∈ s.outstanding ∨
      s.nextSeqno < item.endSeqno ∧ item.endSeqno ≤ after.nextSeqno ∧ item.resends = 0 := by
  induction moves with
  | refl => exact ⟨Nat.le_refl _, rfl, fun _ => Or.inl⟩
  | tail _ move ih =>
    obtain ⟨next_le, timeout_eq, stays⟩ := ih
    obtain ⟨next_le', timeout_eq', stays'⟩ := move.mem
    refine ⟨Nat.le_trans next_le next_le', timeout_eq'.trans timeout_eq, fun item member => ?_⟩
    rcases stays' item member with old | ⟨first, last, fresh⟩
    · rcases stays item old with older | ⟨first, last, fresh⟩
      · exact Or.inl older
      · exact Or.inr ⟨first, Nat.le_trans last next_le', fresh⟩
    · exact Or.inr ⟨Nat.lt_of_le_of_lt next_le first, last, fresh⟩

theorem Moves.patient (moves : Moves s after) {limit : Nat} (patient : Patient limit s) :
    Patient limit after := by
  obtain ⟨-, -, stays⟩ := moves.mem
  intro item member
  rcases stays item member with old | ⟨-, -, fresh⟩
  · exact patient item old
  · exact fresh ▸ Nat.zero_le limit

theorem Moves.not_repeats (moves : Moves s after) (ledger : Ledger s) : ¬Repeats s after o := by
  obtain ⟨-, -, stays⟩ := moves.mem
  rintro ⟨member, again, member', same, more⟩
  rcases stays again member' with old | ⟨first, -, -⟩
  · obtain rfl := ledger.contiguous.eq_of_endSeqno old member same
    exact Nat.lt_irrefl _ more
  · have last := (ledger.contiguous.lt_endSeqno member).2
    omega

theorem Timed.afterSend (timed : Timed sent now s)
    (here : sent (s.nextSeqno + segment.sequenceLength) now) : Timed sent now (s.afterSend segment) := by
  refine ⟨fun none => ?_, fun oldest rest inFlight => ?_, ?_⟩
  · exact absurd none (List.append_ne_nil_of_right_ne_nil _ (List.cons_ne_nil _ _))
  · have inFlight : s.outstanding ++ [_] = oldest :: rest := inFlight
    change ∃ remaining since, s.timer.start s.timeout = .running remaining ∧ _
    cases before : s.outstanding with
    | nil =>
      obtain ⟨timer, timeout⟩ := timed.rests before
      rw [before] at inFlight
      obtain ⟨rfl, -⟩ := List.cons.inj inFlight
      exact ⟨s.timeout, now, by rw [timer]; rfl, here, Nat.le_of_eq (by rw [timeout]; rfl)⟩
    | cons first others =>
      obtain ⟨remaining, since, timer, first_sent, left⟩ := timed.runs first others before
      rw [before] at inFlight
      obtain ⟨rfl, -⟩ := List.cons.inj inFlight
      exact ⟨remaining, since, by rw [timer]; rfl, first_sent, left⟩
  · exact forall_mem_concat timed.known ⟨now, Nat.le_refl _, here⟩

theorem Timed.advance (timed : Timed sent now s) {ack : Nat} (h : s.advance ack = .ok after) :
    Timed sent now after := by
  obtain ⟨initial_eq, -, stays, same | ⟨-, timeout, timer⟩⟩ := advance_timed h
  · obtain ⟨outstanding, timer, timeout⟩ := same
    refine ⟨?_, ?_, ?_⟩
    · rw [outstanding, timer, timeout, initial_eq]
      exact timed.rests
    · rw [outstanding, timer, initial_eq]
      exact timed.runs
    · rw [outstanding]
      exact timed.known
  · refine ⟨fun none => ?_, fun oldest rest inFlight => ?_, fun item member =>
      timed.known item (stays item member)⟩
    · rw [none] at timer
      exact ⟨timer, timeout.trans initial_eq.symm⟩
    · rw [inFlight] at timer
      obtain ⟨since, past, oldest_sent⟩ :=
        timed.known oldest (stays oldest (inFlight ▸ List.mem_cons_self))
      exact ⟨s.initialTimeout, since, timer, oldest_sent, by omega⟩

theorem Timed.move (timed : Timed sent now s) (move : Move s after)
    (here : ∀ number, s.nextSeqno < number → number ≤ after.nextSeqno → sent number now) :
    Timed sent now after := by
  cases move with
  | launches launch =>
    obtain ⟨stream, fin, plain, some, rfl⟩ := launch.afterSend_of
    have same : Timed sent now { s with stream, finSent := fin } := ⟨timed.rests, timed.runs, timed.known⟩
    exact same.afterSend (here _ (Nat.lt_add_of_pos_right some) (Nat.le_refl _))
  | @heeds ackno window _ heeds =>
    cases heeds with
    | again => exact ⟨timed.rests, timed.runs, timed.known⟩
    | moves _ _ _ hadvance =>
      have same : Timed sent now { s with window } := ⟨timed.rests, timed.runs, timed.known⟩
      exact same.advance hadvance
  | turns => exact ⟨timed.rests, timed.runs, timed.known⟩

theorem Timed.moves (timed : Timed sent now s) (moves : Moves s after)
    (here : ∀ number, s.nextSeqno < number → number ≤ after.nextSeqno → sent number now) :
    Timed sent now after := by
  induction moves with
  | refl => exact timed
  | tail before move ih =>
    have next_le := move.mem.1
    have timed := ih fun number first last => here number first (Nat.le_trans last next_le)
    exact timed.move move fun number first =>
      here number (Nat.lt_of_le_of_lt (Moves.mem before).1 first)

end moves

section ageing

theorem tick_running (remaining : Nat) : Timer.tick (.running remaining) elapsed =
    if remaining ≤ elapsed then (.idle, true) else (.running (remaining - elapsed), false) := rfl

theorem Timed.ages (timed : Timed sent now s) (ages : Ages s elapsed after) :
    Timed sent (now + elapsed) after := by
  have known := (timed.later (Nat.le_add_right now elapsed)).known
  cases ages with
  | @waits timer ticks =>
    refine ⟨fun none => ?_, fun oldest rest inFlight => ?_, known⟩
    · obtain ⟨idle, timeout⟩ := timed.rests none
      rw [idle] at ticks
      obtain ⟨rfl, -⟩ := Prod.mk.inj ticks
      exact ⟨rfl, timeout⟩
    · obtain ⟨remaining, since, running, oldest_sent, left⟩ := timed.runs oldest rest inFlight
      rw [running, tick_running] at ticks
      split at ticks
      · cases ticks
      · obtain ⟨rfl, -⟩ := Prod.mk.inj ticks
        exact ⟨_, since, rfl, oldest_sent, by simp only; omega⟩
  | rests ticks none =>
    rw [(timed.rests none).1] at ticks
    cases ticks
  | @resends timer oldest rest ticks inFlight =>
    obtain ⟨remaining, since, running, oldest_sent, left⟩ := timed.runs oldest rest inFlight
    rw [running, tick_running] at ticks
    split at ticks
    · obtain ⟨rfl, -⟩ := Prod.mk.inj ticks
      refine ⟨fun none => absurd none (List.cons_ne_nil _ _), fun other others split => ?_,
        fun item member => ?_⟩
      · obtain ⟨rfl, -⟩ := List.cons.inj split
        exact ⟨_, since, rfl, oldest_sent, by simp only; omega⟩
      · rcases List.mem_cons.mp member with rfl | old
        · exact known oldest (inFlight ▸ List.mem_cons_self)
        · exact known item (inFlight ▸ List.mem_cons_of_mem _ old)
    · cases ticks

theorem Ages.initialTimeout_eq (ages : Ages s elapsed after) : after.initialTimeout = s.initialTimeout := by
  cases ages with
  | waits | rests | resends => rfl

theorem Ages.repeats_iff (ages : Ages s elapsed after) (ledger : Ledger s) : Repeats s after o ↔
    ∃ timer rest, s.timer.tick elapsed = (timer, true) ∧ s.outstanding = o :: rest := by
  have alone {again : Outstanding} (member : o ∈ s.outstanding) (member' : again ∈ s.outstanding)
      (same : again.endSeqno = o.endSeqno) : ¬o.resends < again.resends := by
    rw [ledger.contiguous.eq_of_endSeqno member' member same]
    exact Nat.lt_irrefl _
  constructor
  · rintro ⟨member, again, member', same, more⟩
    cases ages with
    | waits => exact absurd more (alone member member' same)
    | rests => exact absurd more (alone member member' same)
    | @resends timer oldest rest ticks inFlight =>
      have first : oldest ∈ s.outstanding := inFlight ▸ List.mem_cons_self
      rcases List.mem_cons.mp member' with rfl | old
      · obtain rfl := ledger.contiguous.eq_of_endSeqno first member same
        exact ⟨timer, rest, ticks, inFlight⟩
      · exact absurd more (alone member (inFlight ▸ List.mem_cons_of_mem _ old) same)
  · rintro ⟨timer, rest, expired, first⟩
    have member : o ∈ s.outstanding := first ▸ List.mem_cons_self
    cases ages with
    | waits ticks => cases (Prod.mk.inj (ticks.symm.trans expired)).2
    | rests _ none => cases none.symm.trans first
    | resends _ inFlight =>
      obtain ⟨rfl, -⟩ := List.cons.inj (inFlight.symm.trans first)
      exact ⟨member, _, List.mem_cons_self, rfl, Nat.lt_succ_self _⟩

theorem Timed.due (timed : Timed sent now s) (ledger : Ledger s) (ages : Ages s elapsed after)
    (repeats : Repeats s after o) :
    ∃ since, sent o.endSeqno since ∧ since + s.initialTimeout ≤ now + elapsed := by
  obtain ⟨timer, rest, expired, inFlight⟩ := (ages.repeats_iff ledger).mp repeats
  obtain ⟨remaining, since, running, oldest_sent, left⟩ := timed.runs o rest inFlight
  rw [running, tick_running] at expired
  split at expired
  · exact ⟨since, oldest_sent, by omega⟩
  · cases expired

theorem Ages.patient (ages : Ages s elapsed after) {limit : Nat} (patient : Patient limit s)
    (few : after.resends ≤ limit) : Patient limit after := by
  cases ages with
  | waits | rests => exact patient
  | resends _ inFlight =>
    intro item member
    rcases List.mem_cons.mp member with rfl | old
    · exact few
    · exact patient item (inFlight ▸ List.mem_cons_of_mem _ old)

theorem Ages.repeats_of_many (ages : Ages s elapsed after) {limit : Nat} (patient : Patient limit s)
    (many : limit < after.resends) : ∃ o, Repeats s after o ∧ limit ≤ o.resends := by
  have few {item : Outstanding} {rest : List Outstanding} (inFlight : s.outstanding = item :: rest) :
      item.resends ≤ limit := patient item (inFlight ▸ List.mem_cons_self)
  unfold Sender.resends at many
  cases ages with
  | waits | rests =>
    split at many
    · exact absurd many (Nat.not_lt_zero _)
    · rename_i inFlight
      exact absurd many (Nat.not_lt_of_le (few inFlight))
  | @resends _ oldest rest _ inFlight =>
    have member : oldest ∈ s.outstanding := inFlight ▸ List.mem_cons_self
    exact ⟨oldest, ⟨member, _, List.mem_cons_self, rfl, Nat.lt_succ_self _⟩, Nat.le_of_lt_succ many⟩

end ageing

end TcpStack.Sender

import TcpStack.Proofs.Sender.History

/-! What the state of a sender tells. It is read off the numbers in flight, which lag behind what is
acknowledged as long as a segment is acknowledged in part; it still tells what was sent, and how far that is
acknowledged. -/

namespace TcpStack.Sender

open Outcome

variable {timeout : Nat} {first s after : Sender} {events : List Event} {call : Call} {reply : Reply}
  {segment : Segment} {said segments : List Segment}

/-- What a sender remembers of all that it sent. A segment in flight that starts with the number of the SYN is
the SYN alone. -/
structure Tells (said : List Segment) (s : Sender) : Prop where
  opened_iff : 0 < s.nextSeqno ↔ ∃ segment ∈ said, 0 < segment.sequenceLength
  fin_iff : s.finSent = true ↔ ∃ segment ∈ said, segment.fin = true
  inFlight : ∀ item ∈ s.outstanding, item.segment.fin = true → s.finSent = true
  lone : ∀ item ∈ s.outstanding, item.endSeqno = item.segment.sequenceLength → item.endSeqno = 1

theorem tells_initial (capacity timeout : Nat) (isn : SeqNum) :
    Tells [] (initial capacity timeout isn) := by
  refine ⟨?_, ?_, nofun, nofun⟩ <;> simp [initial]

theorem Tells.of_same (tells : Tells said s) (next_eq : after.nextSeqno = s.nextSeqno)
    (fin_eq : after.finSent = s.finSent)
    (stays : ∀ item ∈ after.outstanding, ∃ old ∈ s.outstanding,
      item.endSeqno = old.endSeqno ∧ item.segment = old.segment) : Tells said after := by
  refine ⟨next_eq ▸ tells.opened_iff, fin_eq ▸ tells.fin_iff, fun item member fin => ?_,
    fun item member start => ?_⟩
  · obtain ⟨old, member, -, same⟩ := stays item member
    rw [fin_eq]
    exact tells.inFlight old member (same ▸ fin)
  · obtain ⟨old, member, end_eq, same⟩ := stays item member
    rw [end_eq] at start ⊢
    exact tells.lone old member (same ▸ start)

theorem Tells.going (tells : Tells said s) (unopened : s.nextSeqno = 0) : s.finSent = false := by
  by_contra sent
  obtain ⟨segment, member, fin⟩ := tells.fin_iff.mp (eq_true_of_ne_false sent)
  have some : 0 < segment.sequenceLength := by
    unfold Segment.sequenceLength
    rw [fin]
    exact Nat.succ_pos _
  have opened := tells.opened_iff.mpr ⟨segment, member, some⟩
  omega

theorem Tells.bare (tells : Tells said s) (none : segment.sequenceLength = 0) (fin : segment.fin = false) :
    Tells (said ++ [segment]) s := by
  refine ⟨?_, ?_, tells.inFlight, tells.lone⟩
  · simp [tells.opened_iff, or_and_right, exists_or, none]
  · simp [tells.fin_iff, or_and_right, exists_or, fin]

theorem Tells.again (tells : Tells said s) {item : Outstanding} (member : item ∈ s.outstanding)
    (some : 0 < item.segment.sequenceLength) (opened : 0 < s.nextSeqno) :
    Tells (said ++ [item.segment]) s := by
  refine ⟨iff_of_true opened ⟨item.segment, by simp, some⟩, ?_, tells.inFlight, tells.lone⟩
  rw [tells.fin_iff]
  constructor
  · rintro ⟨segment, old, fin⟩
    exact ⟨segment, List.mem_append_left _ old, fin⟩
  · rintro ⟨segment, sent, fin⟩
    rcases List.mem_append.mp sent with old | new
    · exact ⟨segment, old, fin⟩
    · obtain rfl := List.mem_singleton.mp new
      exact tells.fin_iff.mp (tells.inFlight item member fin)

theorem Tells.launch (tells : Tells said s) (launch : Launch s segment after) :
    Tells (said ++ [segment]) after := by
  have sends := launch.sends
  have opened : 0 < after.nextSeqno := launch.opened
  have going : s.finSent = false := by
    cases launch with
    | opens unopened => exact tells.going unopened
    | cuts _ going => exact going
  have fin_eq : after.finSent = segment.fin := by
    cases launch with
    | opens => exact going
    | cuts => rfl
  have unsent : ∀ old ∈ said, old.fin = false := fun old member =>
    Bool.eq_false_iff.mpr fun fin =>
      Bool.eq_false_iff.mp going (tells.fin_iff.mpr ⟨old, member, fin⟩)
  refine ⟨iff_of_true opened ⟨segment, by simp, sends.some⟩, ?_, ?_, ?_⟩
  · rw [fin_eq]
    constructor
    · exact fun fin => ⟨segment, by simp, fin⟩
    · rintro ⟨other, sent, fin⟩
      rcases List.mem_append.mp sent with old | new
      · rw [unsent other old] at fin
        cases fin
      · exact List.mem_singleton.mp new ▸ fin
  · rw [sends.inFlight_eq]
    refine forall_mem_concat (fun item member fin => ?_) fun fin => fin_eq.trans fin
    exact absurd (tells.inFlight item member fin) (Bool.eq_false_iff.mp going)
  · rw [sends.inFlight_eq]
    refine forall_mem_concat tells.lone fun start => ?_
    -- only the SYN starts where nothing was sent before
    cases launch with
    | opens unopened =>
      simp only [unopened]
      rfl
    | cuts before =>
      simp only at start
      omega

theorem Tells.launches (tells : Tells said s) (launches : Launches s segments after) :
    Tells (said ++ segments) after := by
  induction launches generalizing said with
  | nothing => rwa [List.append_nil]
  | next launch _ ih =>
    rw [← List.singleton_append, ← List.append_assoc]
    exact ih (tells.launch launch)

theorem Tells.heeds (tells : Tells said s) {ackno : SeqNum} {window : UInt16}
    (heeds : Heeds s ackno window after) : Tells said after := by
  cases heeds with
  | again => exact tells.of_same rfl rfl fun item member => ⟨item, member, rfl, rfl⟩
  | moves _ _ _ hadvance =>
    obtain ⟨_, _, _, _, hrelease, rfl⟩ := advance_eq_ok hadvance
    exact tells.of_same rfl rfl fun item member => ⟨item, mem_of_release hrelease member, rfl, rfl⟩

theorem Tells.performs (tells : Tells said s) (ledger : Ledger s)
    (performs : Performs s call after reply segments) : Tells (said ++ segments) after := by
  have kept {y : Sender} (next_eq : y.nextSeqno = s.nextSeqno) (fin_eq : y.finSent = s.finSent)
      (outstanding_eq : y.outstanding = s.outstanding) : Tells said y :=
    tells.of_same next_eq fin_eq fun item member => ⟨item, outstanding_eq ▸ member, rfl, rfl⟩
  cases performs with
  | fills launches => exact tells.launches launches
  | heeds _ heeds launches => exact (tells.heeds heeds).launches launches
  | ignores | judges | ages | writes | finishes =>
    rw [List.append_nil]
    exact kept rfl rfl rfl
  | replies =>
    have same : Tells said s.sendEmpty := kept rfl rfl rfl
    exact same.bare rfl rfl
  | @resends oldest rest _ _ _ _ inFlight =>
    have contiguous := ledger.contiguous
    have first : oldest ∈ s.outstanding := inFlight ▸ List.mem_cons_self
    have behind := contiguous.lt_endSeqno first
    rw [inFlight] at contiguous
    have opened : 0 < s.nextSeqno := by omega
    refine (tells.again first contiguous.2.1 opened).of_same rfl rfl fun item member => ?_
    rcases List.mem_cons.mp member with rfl | old
    · exact ⟨oldest, first, rfl, rfl⟩
    · exact ⟨item, inFlight ▸ List.mem_cons_of_mem _ old, rfl, rfl⟩

theorem Since.tells (since : Since first events s) (made : Reachable timeout first) (start : Tells [] first) :
    Tells (sent events) s := by
  induction since with
  | start => exact start
  | called before performs ih =>
    rw [sent_append, sent_singleton]
    rcases perform_cases performs with ⟨_, _, rfl, rfl, event_eq⟩ | ⟨segments, performs⟩
    · rw [event_eq, List.append_nil]
      exact ih.of_same rfl rfl fun item member => ⟨item, member, rfl, rfl⟩
    · rw [performs.event_eq]
      exact ih.performs (before.reachable made).books.toLedger performs
  | drained _ _ ih => exact ih.of_same rfl rfl fun item member => ⟨item, member, rfl, rfl⟩

theorem Tells.unanswered_iff (tells : Tells said s) (books : Books timeout s) (opened : 0 < s.nextSeqno) :
    s.nextSeqno = s.inFlight ↔ s.highestAck = 0 := by
  have inFlight_le := books.inFlight_le
  have released_le := books.released_le
  refine ⟨fun all => ?_, fun unanswered => by omega⟩
  have contiguous := books.contiguous
  rw [← all, Nat.sub_self] at contiguous
  cases inFlight : s.outstanding with
  | nil =>
    rw [inFlight] at contiguous
    exact absurd (show 0 = s.nextSeqno from contiguous) (Nat.ne_of_lt opened)
  | cons oldest rest =>
    have waits := books.waits oldest rest inFlight
    rw [inFlight] at contiguous
    have end_eq : oldest.endSeqno = 1 :=
      tells.lone oldest (inFlight ▸ List.mem_cons_self) (contiguous.1.trans (Nat.zero_add _))
    omega

theorem Books.pending_iff (books : Books timeout s) : 0 < s.inFlight ↔ s.highestAck < s.nextSeqno := by
  have inFlight_le := books.inFlight_le
  have released_le := books.released_le
  refine ⟨fun some => ?_, fun pending => by omega⟩
  have contiguous := books.contiguous
  cases inFlight : s.outstanding with
  | nil =>
    rw [inFlight] at contiguous
    have none : s.nextSeqno - s.inFlight = s.nextSeqno := contiguous
    omega
  | cons oldest rest =>
    have waits := books.waits oldest rest inFlight
    have behind := contiguous.lt_endSeqno (inFlight ▸ List.mem_cons_self : oldest ∈ s.outstanding)
    omega

theorem Tells.state_eq (tells : Tells said s) (books : Books timeout s) (going : s.stream.failed = false) :
    s.state = if s.nextSeqno = 0 then .closed else if s.highestAck = 0 then .synSent
      else if s.finSent = false then .synAcked else if s.highestAck < s.nextSeqno then .finSent
      else .finAcked := by
  unfold Sender.state
  rw [going, if_neg Bool.false_ne_true]
  by_cases unopened : s.nextSeqno = 0
  · rw [if_pos unopened, if_pos unopened]
  · have unanswered_iff := tells.unanswered_iff books (Nat.pos_of_ne_zero unopened)
    simp only [if_neg unopened, unanswered_iff, books.pending_iff, Bool.not_eq_true']

/-- Unless its stream failed, the state of a sender tells exactly what it sent and how far that is acknowledged:
nothing; something, none of it acknowledged; some of it acknowledged and the FIN not sent; the FIN sent and not
all acknowledged; all acknowledged, with the FIN. -/
theorem state_exact {capacity timeout : Nat} {isn : SeqNum} {made s : Sender} {events : List Event}
    (makes : create capacity timeout isn = .ok made) (since : Since made events s)
    (going : s.stream.failed = false) :
    (s.state = .closed ↔ ∀ segment ∈ sent events, segment.sequenceLength = 0) ∧
    (s.state = .synSent ↔
      (∃ segment ∈ sent events, 0 < segment.sequenceLength) ∧ s.highestAck = 0) ∧
    (s.state = .synAcked ↔ 0 < s.highestAck ∧ ∀ segment ∈ sent events, segment.fin = false) ∧
    (s.state = .finSent ↔ 0 < s.highestAck ∧ (∃ segment ∈ sent events, segment.fin = true) ∧
      s.highestAck < s.nextSeqno) ∧
    (s.state = .finAcked ↔
      (∃ segment ∈ sent events, segment.fin = true) ∧ s.highestAck = s.nextSeqno) := by
  have books := (since.reachable (.made makes)).books
  have tells : Tells (sent events) s := by
    obtain ⟨-, rfl⟩ := create_eq_ok makes
    exact since.tells (.made makes) (tells_initial capacity timeout isn)
  have highestAck_le := books.highestAck_le
  have unsent : (∀ segment ∈ sent events, segment.sequenceLength = 0) ↔ s.nextSeqno = 0 := by
    rw [← Nat.le_zero, ← Nat.not_lt, tells.opened_iff]
    simp
  have plain : (∀ segment ∈ sent events, segment.fin = false) ↔ s.finSent = false := by
    rw [← Bool.not_eq_true, tells.fin_iff]
    simp
  have opened : s.finSent = true → s.nextSeqno ≠ 0 := fun fin unopened =>
    Bool.false_ne_true ((tells.going unopened).symm.trans fin)
  rw [unsent, plain, ← tells.opened_iff, ← tells.fin_iff, tells.state_eq books going]
  by_cases unopened : s.nextSeqno = 0
  · have unanswered : s.highestAck = 0 := by omega
    simp [unopened, unanswered, tells.going unopened]
  by_cases unanswered : s.highestAck = 0
  · simp [unopened, unanswered, Nat.pos_of_ne_zero unopened, Ne.symm unopened]
  cases fin : s.finSent with
  | false => simp [unopened, unanswered, Nat.pos_of_ne_zero unanswered]
  | true =>
    by_cases pending : s.highestAck < s.nextSeqno
    · simp [unopened, unanswered, pending, Nat.pos_of_ne_zero unanswered, Nat.ne_of_lt pending]
    · have all : s.highestAck = s.nextSeqno := Nat.le_antisymm highestAck_le (Nat.le_of_not_lt pending)
      simp [unopened, all, Nat.pos_of_ne_zero unopened]

theorem fin_sent_over_partial_acknowledgment : ∃ events s, Since (initial 8 100 ⟨1000⟩) events s ∧
    s.stream.failed = false ∧ s.inFlight = 4 ∧ s.highestAck = 2 ∧ s.state = .finSent ∧
    0 < s.highestAck ∧ (∃ segment ∈ sent events, segment.fin = true) ∧ s.highestAck < s.nextSeqno := by
  have seen : (fun log : List Event × Sender => (log.2.stream.failed, log.2.inFlight, log.2.highestAck,
      log.2.state)) <$>
      logOfCalls [.stream (.write [97, 98, 99]), .fill, .ack ⟨1001⟩ 10, .tick 100, .ack ⟨1002⟩ 10,
        .stream .finish, .fill] = .ok (false, 4, 2, .finSent) := by decide +kernel
  obtain ⟨⟨events, s⟩, logged, look⟩ := map_eq_ok.mp seen
  simp only [Prod.mk.injEq] at look
  obtain ⟨going, four, two, state_eq⟩ := look
  have made : create 8 100 ⟨1000⟩ = .ok (initial 8 100 ⟨1000⟩) := rfl
  have since := since_logOfCalls logged
  obtain ⟨-, -, -, finSent_iff, -⟩ := state_exact made since going
  exact ⟨events, s, since, going, four, two, state_eq, finSent_iff.mp state_eq⟩

end TcpStack.Sender

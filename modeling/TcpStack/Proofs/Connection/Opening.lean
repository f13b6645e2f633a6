import TcpStack.Proofs.Connection.Reachable
import TcpStack.Proofs.SeqNum.Nearest

/-! A connection that opens. As long as it does not know the peer's number it has sent its SYN at most and
has heard of no acknowledgment, so an acknowledgment is legal if it covers the SYN, or nothing at all. The
second kind is the one that answers nothing and still counts. -/

namespace TcpStack

namespace Sender

structure Unanswered (s : Sender) : Prop where
  nextSeqno_le : s.nextSeqno ≤ 1
  inFlight_eq : s.inFlight = s.nextSeqno
  highestAck_eq : s.highestAck = 0
  window_eq : s.window = 1

theorem unanswered_initial (capacity timeout : Nat) (isn : SeqNum) :
    Unanswered (initial capacity timeout isn) := ⟨Nat.zero_le _, rfl, rfl, rfl⟩

variable {s after : Sender}

theorem Unanswered.step (unanswered : Unanswered s) (step : Step none s after) :
    Unanswered after := by
  cases step with
  | opens unopened =>
    have next_eq : (s.afterSend { syn := true }).nextSeqno = 1 := by
      simp [afterSend, unopened, Segment.sequenceLength]
    have inFlight_eq : (s.afterSend { syn := true }).inFlight = 1 := by
      simp [afterSend, unanswered.inFlight_eq, unopened, Segment.sequenceLength]
    exact ⟨Nat.le_of_eq next_eq, inFlight_eq.trans next_eq.symm, unanswered.highestAck_eq,
      unanswered.window_eq⟩
  | cuts opened _ room =>
    have one : s.probingWindow = 1 := by
      rw [probingWindow, unanswered.window_eq]
      rfl
    rw [one, unanswered.highestAck_eq] at room
    omega
  | hears offered => cases offered
  | acks offered => cases offered
  | ages | resends | replies =>
    exact ⟨unanswered.nextSeqno_le, unanswered.inFlight_eq, unanswered.highestAck_eq,
      unanswered.window_eq⟩

theorem Unanswered.ackIsLegal_eq (unanswered : Unanswered s) (opened : 0 < s.nextSeqno)
    (ackno : SeqNum) :
    s.ackIsLegal ackno = .ok (decide (ackno = s.isn ∨ ackno = s.isn + (1 : UInt32))) := by
  have next_eq : s.nextSeqno = 1 := by
    have nextSeqno_le := unanswered.nextSeqno_le
    omega
  unfold ackIsLegal
  rw [unanswered.highestAck_eq, SeqNum.unwrap_zero, next_eq]
  exact congrArg Except.ok (decide_eq_decide.mpr (SeqNum.distance_le_one_iff ackno s.isn))

end Sender

namespace Connection

open Outcome

variable {allows : ByteStream.Call → Bool} {c after : Connection} {segment : Segment}

def Waits (c : Connection) : Prop := c.receiver.isn = none → c.sender.Unanswered

theorem Waits.part (waits : Waits c) (part : Part none c after) : Waits after := by
  intro unknown
  cases part with
  | sends step => exact (waits unknown).step step
  | takes came => cases came
  | flushes | replaces | kills | ages | checks | expires =>
    have unanswered := waits unknown
    exact ⟨unanswered.nextSeqno_le, unanswered.inFlight_eq, unanswered.highestAck_eq,
      unanswered.window_eq⟩

theorem Waits.parts (waits : Waits c) (parts : Parts none c after) : Waits after :=
  parts.induction waits fun _ _ part waits => waits.part part

theorem Waits.withStream (waits : Waits c) (stream : ByteStream) :
    Waits { c with sender := { c.sender with stream } } := by
  intro unknown
  have unanswered := waits unknown
  exact ⟨unanswered.nextSeqno_le, unanswered.inFlight_eq, unanswered.highestAck_eq,
    unanswered.window_eq⟩

theorem Waits.handles (waits : Waits c) (handles : Handles c segment after) : Waits after := by
  have woken : Waits { c with idle := 0 } := waits
  cases handles with
  | sleeps | passes => exact waits
  | ends => exact woken.part (.kills _)
  | answers _ _ _ _ replies => exact woken.parts replies.parts
  | takes _ _ counts _ takes replies =>
    -- From here on the number is known, so there is nothing left to show.
    have known := known_of_takes counts takes
    refine Waits.parts (fun unknown => ?_) replies.parts
    exact absurd unknown known

theorem Reachable.waits (reachable : Reachable allows c) : Waits c := by
  induction reachable with
  | opened opens =>
    obtain ⟨rfl, -⟩ := new?_eq_ok_iff.mp opens
    exact fun _ => Sender.unanswered_initial _ _ _
  | called _ _ performs ih =>
    cases perform_performs performs with
    | connects acts | aborts acts | ticks _ acts => exact ih.parts acts.parts
    | receives _ handles => exact ih.handles handles
    | ignoresWrite | ignoresFinish | reads => exact ih
    | writes _ replies | finishes replies => exact (ih.withStream _).parts replies.parts
  | emitted _ _ ih => exact ih

/-- What is asked of the answer to a SYN: it is a SYN or an RST, and acknowledges the SYN that it answers,
which only a SYN may leave out. -/
def AnswersSyn (c : Connection) (segment : Segment) : Prop :=
  segment.syn = true ∧ segment.rst = false ∧
      (segment.ack = false ∨ segment.ackno = c.sender.isn + (1 : UInt32)) ∨
    segment.rst = true ∧ segment.ack = true ∧ segment.ackno = c.sender.isn + (1 : UInt32)

/-- A SYN or an RST whose acknowledgment covers nothing: it has the number of our SYN, not the next. -/
def CoversNothing (c : Connection) (segment : Segment) : Prop :=
  (segment.syn = true ∨ segment.rst = true) ∧ segment.ack = true ∧ segment.ackno = c.sender.isn

theorem answers_iff (c : Connection) (segment : Segment) :
    c.AnswersSyn segment ∨ c.CoversNothing segment ↔
      if segment.rst then segment.ack = true ∧
        (segment.ackno = c.sender.isn ∨ segment.ackno = c.sender.isn + (1 : UInt32))
      else segment.syn = true ∧ (segment.ack = true →
        segment.ackno = c.sender.isn ∨ segment.ackno = c.sender.isn + (1 : UInt32)) := by
  unfold AnswersSyn CoversNothing
  cases segment.rst <;> cases segment.syn <;> cases segment.ack <;> simp [or_comm]

structure Opens (c : Connection) : Prop where
  active : c.active = true
  unknown : c.receiver.isn = none
  opened : c.opened = true

theorem opens_of_synSent (state : c.summary.named = some .synSent) : Opens c := by
  have summary := (Summary.named_eq_some_iff.mp state).symm
  have sender : c.sender.state = .synSent := congrArg Summary.sender summary
  have receiver : c.receiver.state = .listen := congrArg Summary.receiver summary
  refine ⟨congrArg Summary.active summary, ?_, ?_⟩
  · unfold Receiver.state at receiver
    split at receiver
    · cases receiver
    split at receiver
    · exact Option.isNone_iff_eq_none.mp ‹_›
    split at receiver <;> cases receiver
  · unfold Sender.state at sender
    split at sender
    · cases sender
    split at sender
    · cases sender
    · exact decide_eq_true (Nat.pos_of_ne_zero ‹_›)

variable (opens : Opens c) (waits : Waits c)
include opens waits

theorem acceptsAck_eq : c.acceptsAck segment = .ok (decide (segment.ack = true →
    segment.ackno = c.sender.isn ∨ segment.ackno = c.sender.isn + (1 : UInt32))) := by
  have legal := (waits opens.unknown).ackIsLegal_eq (of_decide_eq_true opens.opened) segment.ackno
  unfold acceptsAck
  cases ack : segment.ack with
  | false => simp
  | true => simpa using legal

theorem answersOurs_eq : c.answersOurs segment = .ok (decide (segment.ack = true ∧
    (segment.ackno = c.sender.isn ∨ segment.ackno = c.sender.isn + (1 : UInt32)))) := by
  have legal := (waits opens.unknown).ackIsLegal_eq (of_decide_eq_true opens.opened) segment.ackno
  unfold answersOurs
  cases ack : segment.ack with
  | false => simp
  | true => simpa using legal

theorem passes_of_no_answer
    (other : ¬(c.AnswersSyn segment ∨ c.CoversNothing segment)) :
    (c.segmentReceived segment).result = .ok { c with idle := 0 } := by
  rw [answers_iff] at other
  have passes : ReceivesSynSent { c with idle := 0 } segment [] { c with idle := 0 } := by
    cases rst : segment.rst with
    | true =>
      rw [if_pos rst] at other
      exact .ignoresRst rst ((answersOurs_eq opens waits).trans (congrArg Except.ok (decide_eq_false other)))
    | false =>
      rw [rst, if_neg Bool.false_ne_true] at other
      refine .ignores rst ?_
      cases syn : segment.syn with
      | false => exact Or.inl rfl
      | true =>
        rw [syn, eq_self_iff_true, true_and] at other
        exact Or.inr ((acceptsAck_eq opens waits).trans (congrArg Except.ok (decide_eq_false other)))
  exact segmentReceived_eq_ok_iff.mpr ⟨_, .synSent opens.active opens.unknown opens.opened passes⟩

theorem not_listening_of_answer (answer : c.AnswersSyn segment ∨ c.CoversNothing segment)
    (h : (c.segmentReceived segment).result = .ok after) : after.receiver.state ≠ .listen := by
  rw [answers_iff] at answer
  have stays {x y : Connection} (parts : Parts none x y) (known : x.receiver.isn ≠ none) :
      y.receiver.state ≠ .listen :=
    Receiver.state_ne_listen (parts.induction (P := fun z => z.receiver.isn ≠ none) known
      fun _ _ part => part.known_stays)
  cases segmentReceived_handles h with
  | sleeps inactive => simp [opens.active] at inactive
  | passes _ ignored =>
    exfalso
    cases ignored with
    | unasked _ unopened => simp [opens.opened] at unopened
    | strayReset _ _ rst answers =>
      rw [answersOurs_eq opens waits, Except.ok.injEq, decide_eq_false_iff_not] at answers
      rw [if_pos rst] at answer
      exact answers answer
    | noAnswer _ _ rst other =>
      rw [rst, if_neg Bool.false_ne_true] at answer
      rcases other with syn | refused
      · simp [syn] at answer
      · rw [acceptsAck_eq opens waits, Except.ok.injEq, decide_eq_false_iff_not] at refused
        exact refused answer.2
    | outside known => exact known opens.unknown
  | ends => simp [kill, Receiver.state, Receiver.stream, ByteStream.fail]
  | answers _ known => exact absurd opens.unknown known
  | takes _ _ counts _ takes replies => exact stays replies.parts (known_of_takes counts takes)

omit opens waits

/-- What moves a connection in SYN_SENT: a segment that answers the SYN, and also one whose acknowledgment
covers nothing. Every other segment wakes it and does nothing else. -/
theorem synSent_moves_iff (reachable : Reachable allows c)
    (state : c.summary.named = some .synSent) (segment : Segment) :
    (∀ after, (c.segmentReceived segment).result = .ok after →
      (after.summary ≠ c.summary ↔ c.AnswersSyn segment ∨ c.CoversNothing segment)) ∧
    (¬c.AnswersSyn segment → ¬c.CoversNothing segment →
      (c.segmentReceived segment).result = .ok { c with idle := 0 }) := by
  have opens := opens_of_synSent state
  have waits := reachable.waits
  have listening : c.receiver.state = .listen :=
    congrArg Summary.receiver (Summary.named_eq_some_iff.mp state).symm
  refine ⟨fun after h => ⟨fun moved => ?_, fun answer same => ?_⟩, fun plain bare => ?_⟩
  · by_contra other
    rw [passes_of_no_answer opens waits other, Except.ok.injEq] at h
    subst h
    exact moved rfl
  · have receiver : after.receiver.state = c.receiver.state := congrArg Summary.receiver same
    exact not_listening_of_answer opens waits answer h (receiver.trans listening)
  · exact passes_of_no_answer opens waits (not_or.mpr ⟨plain, bare⟩)

def ring : Except Fault Connection :=
  performAll (initial { capacity := 10, isn := some ⟨1000⟩ } ⟨1000⟩) [.connect]

theorem reachable_ring (h : ring = .ok c) : Reachable allows c := by
  have opens : new? { capacity := 10, isn := some ⟨1000⟩ } ⟨1000⟩ =
      .ok (.ok (initial { capacity := 10, isn := some ⟨1000⟩ } ⟨1000⟩)) :=
    new?_eq_ok_iff.mpr ⟨rfl, ⟨Nat.succ_pos _, Nat.succ_pos _⟩, show 10 < Cells.limit by decide⟩
  exact (Reachable.opened opens).performAll (by simp [Call.within]) h

def answered (segment : Segment) : Except Fault (SeqNum × Option State × Option State) := do
  let c ← ring
  let after ← (c.segmentReceived segment).result
  return (c.sender.isn, c.summary.named, after.summary.named)

theorem of_answered {isn : SeqNum} {before later : Option State}
    (seen : answered segment = .ok (isn, before, later)) :
    ∃ c after, Reachable allows c ∧ (c.segmentReceived segment).result = .ok after ∧
      c.sender.isn = isn ∧ c.summary.named = before ∧ after.summary.named = later := by
  unfold answered at seen
  simp only [bind_eq_ok, pure_eq_ok, Prod.mk.injEq] at seen
  obtain ⟨c, rung, after, h, look⟩ := seen
  exact ⟨c, after, reachable_ring rung, h, look⟩

theorem synSent_moved_by_synAck : ∃ c after : Connection, Reachable ByteStream.Call.reads c ∧
    c.summary.named = some .synSent ∧
    (c.segmentReceived { syn := true, ack := true, ackno := ⟨1001⟩ }).result = .ok after ∧
    after.summary ≠ c.summary ∧
    (c.segmentReceived { rst := true, ack := true, ackno := ⟨1002⟩ }).result =
      .ok { c with idle := 0 } := by
  have seen : answered { syn := true, ack := true, ackno := ⟨1001⟩ } =
      .ok (⟨1000⟩, some .synSent, some .established) := by decide +kernel
  obtain ⟨c, after, reachable, h, isn, state, -⟩ := of_answered seen
  have moves := synSent_moves_iff reachable state { syn := true, ack := true, ackno := ⟨1001⟩ }
  have stays := synSent_moves_iff reachable state { rst := true, ack := true, ackno := ⟨1002⟩ }
  refine ⟨c, after, reachable, state, h, (moves.1 after h).mpr (Or.inl (Or.inl ?_)), stays.2 ?_ ?_⟩
  · exact ⟨rfl, rfl, Or.inr (by rw [isn]; rfl)⟩
  · rintro (⟨syn, -⟩ | ⟨-, -, ackno⟩)
    · cases syn
    · rw [isn] at ackno
      exact absurd ackno (by decide)
  · rintro ⟨-, -, ackno⟩
    rw [isn] at ackno
    exact absurd ackno (by decide)

/-- With the number of the SYN itself, an RST ends the connection and a SYN moves it on. -/
theorem synSent_moved_by_nothing_covered :
    (∃ c after : Connection, Reachable ByteStream.Call.reads c ∧ c.summary.named = some .synSent ∧
      (c.segmentReceived { rst := true, ack := true, ackno := ⟨1000⟩ }).result = .ok after ∧
      after.summary.named = some .reset ∧
      ¬c.AnswersSyn { rst := true, ack := true, ackno := ⟨1000⟩ }) ∧
    (∃ c after : Connection, Reachable ByteStream.Call.reads c ∧ c.summary.named = some .synSent ∧
      (c.segmentReceived { syn := true, ack := true, ackno := ⟨1000⟩ }).result = .ok after ∧
      after.summary.named = some .synReceived ∧
      ¬c.AnswersSyn { syn := true, ack := true, ackno := ⟨1000⟩ }) := by
  constructor
  · have seen : answered { rst := true, ack := true, ackno := ⟨1000⟩ } =
        .ok (⟨1000⟩, some .synSent, some .reset) := by decide +kernel
    obtain ⟨c, after, reachable, h, isn, state, later⟩ := of_answered seen
    refine ⟨c, after, reachable, state, h, later, ?_⟩
    rintro (⟨syn, -⟩ | ⟨-, -, ackno⟩)
    · cases syn
    · rw [isn] at ackno
      exact absurd ackno (by decide)
  · have seen : answered { syn := true, ack := true, ackno := ⟨1000⟩ } =
        .ok (⟨1000⟩, some .synSent, some .synReceived) := by decide +kernel
    obtain ⟨c, after, reachable, h, isn, state, later⟩ := of_answered seen
    refine ⟨c, after, reachable, state, h, later, ?_⟩
    rintro (⟨-, -, bare | ackno⟩ | ⟨rst, -⟩)
    · cases bare
    · rw [isn] at ackno
      exact absurd ackno (by decide)
    · cases rst

end Connection
end TcpStack

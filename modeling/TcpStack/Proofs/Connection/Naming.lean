import TcpStack.Proofs.Connection.Opening

/-! Which states a connection can be seen in once its SYN is acknowledged. All of them have a name but one:
the peer has ended its stream, our own is sent up to its last byte, but its FIN is not sent yet. The
connection lingers then as if it had been. -/

namespace TcpStack

namespace Sender

variable {s after : Sender}

theorem error_iff : s.state = .error ↔ s.stream.failed = true := by
  unfold Sender.state
  split_ifs <;> simp_all

theorem finSent_of_synAcked (state : s.state = .synAcked) : s.finSent = false := by
  unfold Sender.state at state
  split_ifs at state
  simpa using ‹(!s.finSent) = true›

theorem finAcked_iff : s.state = .finAcked ↔
    s.stream.failed = false ∧ 0 < s.nextSeqno ∧ s.finSent = true ∧ s.inFlight = 0 := by
  unfold Sender.state
  split_ifs <;> simp_all
  all_goals omega

theorem Unanswered.state (unanswered : Unanswered s) :
    s.state = .error ∨ s.state = .closed ∨ s.state = .synSent := by
  unfold Sender.state
  split
  · exact Or.inl rfl
  split
  · exact Or.inr (Or.inl rfl)
  · rw [if_pos unanswered.inFlight_eq.symm]
    exact Or.inr (Or.inr rfl)

theorem Step.finAcked_iff (step : Step none s after) (sound : s.stream.Sound) :
    after.state = .finAcked ↔ s.state = .finAcked := by
  have failed_eq := (step.stream_sound sound).2
  rw [Sender.finAcked_iff, Sender.finAcked_iff, failed_eq]
  cases step with
  | opens unopened =>
    have some : 0 < (s.afterSend { syn := true }).inFlight := Nat.add_pos_right _ (by decide)
    omega
  | @cuts stream payload fin _ going _ _ some =>
    have some : 0 < (afterSend { s with stream, finSent := fin } { payload, fin }).inFlight :=
      Nat.add_pos_right _ (sequenceLength_pos some)
    simp only [going, Bool.false_eq_true, false_and, and_false, iff_false]
    omega
  | hears offered => cases offered
  | acks offered => cases offered
  | ages | resends | replies => rfl

theorem Step.atEnd (step : Step none s after) (sound : s.stream.Sound)
    (atEnd : s.stream.atEnd = true) : after.stream.atEnd = true := by
  cases step with
  | cuts _ _ _ hcut => exact (cut_spec sound hcut).2.1.atEnd atEnd
  | hears offered => cases offered
  | acks offered => cases offered
  | opens | ages | resends | replies => exact atEnd

theorem Step.finSent_le (step : Step none s after) (sent : s.finSent = true) :
    after.finSent = true := by
  cases step with
  | cuts _ going => simp [sent] at going
  | hears offered => cases offered
  | acks offered => cases offered
  | opens | ages | resends | replies => exact sent

end Sender

namespace Connection

open Outcome

/-- What the marks of a connection and its two streams have to do with each other at any time. -/
structure Coherent (c : Connection) : Prop where
  intact : Intact c
  poisoned : c.outbound.failed = c.inbound.failed
  known : c.inbound.ended = true → c.receiver.isn ≠ none
  hurried : c.linger = false → c.inbound.ended = true
  closed : c.active = false →
    c.inbound.failed = true ∨ c.inbound.ended = true ∧ c.sender.state = .finAcked

structure Settled (c : Connection) : Prop extends Coherent c where
  lasts : c.active = true → c.inbound.ended = true → c.sender.state = .finAcked → c.linger = true
  spent : c.inbound.ended = true → c.linger = true → c.sender.finSent = false →
    c.outbound.atEnd = true

variable {c after : Connection} {segment : Segment}

theorem Coherent.checked (coherent : Coherent c) : Settled c.checked := by
  have intact := coherent.intact
  refine ⟨⟨intact.part (Part.checks : Part none c c.checked), coherent.poisoned, coherent.known,
    ?_, ?_⟩, ?_, ?_⟩
  · intro hurried
    have marks : c.linger = false ∨ (c.inbound.ended && !c.outbound.atEnd) = true := by
      simpa [Connection.checked, lingers, imp_iff_not_or] using hurried
    rcases marks with marks | marks
    · exact coherent.hurried marks
    · exact (Bool.and_eq_true_iff.mp marks).1
  · intro inactive
    have marks : c.active = false ∨ c.isOver = true := by
      simpa [Connection.checked, imp_iff_not_or] using inactive
    rcases marks with marks | marks
    · exact coherent.closed marks
    · simp only [isOver, Bool.and_eq_true, decide_eq_true_eq] at marks
      exact Or.inr ⟨marks.1.1, marks.2⟩
  · intro active ended state
    have going : ¬c.isOver = true := by
      simpa using (Bool.and_eq_true_iff.mp active).2
    by_contra hurried
    refine going ?_
    simp only [isOver, Bool.and_eq_true, decide_eq_true_eq]
    exact ⟨⟨ended, by simpa [Connection.checked] using hurried⟩, state⟩
  · intro ended lingers _
    have marks : (c.inbound.ended && !c.outbound.atEnd) = false := by
      simpa only [Bool.not_eq_true'] using (Bool.and_eq_true_iff.mp lingers).2
    have ended : c.inbound.ended = true := ended
    rw [ended, Bool.true_and, Bool.not_eq_false'] at marks
    exact marks

theorem settled_initial {config : Config} {isn : SeqNum} (fits : config.capacity < Cells.limit) :
    Settled (initial config isn) := by
  refine ⟨⟨intact_initial fits, rfl, ?_, ?_, ?_⟩, ?_, ?_⟩
  · intro ended
    cases ended
  · intro hurried
    cases hurried
  · intro inactive
    cases inactive
  · intro _ ended
    cases ended
  · intro ended
    cases ended

theorem Settled.part (settled : Settled c) (part : Part none c after) : Settled after := by
  have intact := settled.intact.part part
  cases part with
  | sends step =>
    have sound := settled.intact.outbound
    have state := step.finAcked_iff sound
    refine ⟨⟨intact, (step.stream_sound sound).2.trans settled.poisoned, settled.known,
      settled.hurried, fun inactive => ?_⟩, fun active ended acked => ?_, fun ended lingers going => ?_⟩
    · exact (settled.closed inactive).imp_right fun closed => ⟨closed.1, state.mpr closed.2⟩
    · exact settled.lasts active ended (state.mp acked)
    · refine step.atEnd sound (settled.spent ended lingers ?_)
      by_contra sent
      have later := step.finSent_le (by simpa using sent)
      rw [later] at going
      cases going
  | takes came => cases came
  | flushes | replaces | ages =>
    exact ⟨⟨intact, settled.poisoned, settled.known, settled.hurried, settled.closed⟩, settled.lasts,
      settled.spent⟩
  | kills =>
    refine ⟨⟨intact, rfl, settled.known, settled.hurried, fun _ => Or.inl rfl⟩, ?_, settled.spent⟩
    intro active
    cases active
  | checks => exact settled.toCoherent.checked
  | expires waits =>
    have summary := (Summary.named_eq_some_iff.mp waits).symm
    have sender : c.sender.state = .finAcked := congrArg Summary.sender summary
    have receiver : c.receiver.state = .finReceived := congrArg Summary.receiver summary
    refine ⟨⟨intact, settled.poisoned, settled.known, settled.hurried, fun _ =>
      Or.inr ⟨Receiver.ended_of_finReceived receiver, sender⟩⟩, ?_, settled.spent⟩
    intro active
    cases active

theorem Settled.parts (settled : Settled c) (parts : Parts none c after) : Settled after :=
  parts.induction settled fun _ _ part settled => settled.part part

theorem Settled.handles (settled : Settled c) (handles : Handles c segment after) :
    Settled after := by
  have woken : Settled { c with idle := 0 } := settled.part (.ages 0)
  cases handles with
  | sleeps => exact settled
  | passes => exact woken
  | ends => exact woken.part (.kills _)
  | answers _ _ _ _ replies => exact woken.parts replies.parts
  | @takes sender receiver accepted _ active _ counts hears takes replies =>
    obtain ⟨_, goes, -⟩ := takes.spec settled.intact.inbound
    have intact := settled.intact.parts (intake_parts hears takes)
    obtain ⟨spared, spared'⟩ := intact.alive active
    refine Settled.parts (Coherent.checked ⟨intact, spared'.trans spared.symm, fun _ =>
      known_of_takes counts takes, fun hurried => ?_, fun inactive => ?_⟩) replies.parts
    · exact (goes.stays_ended (settled.hurried hurried)).1
    · exact absurd (active.symm.trans inactive) (by decide)

theorem Settled.withStream (settled : Settled c) {stream : ByteStream} (sound : stream.Sound)
    (failed_eq : stream.failed = c.outbound.failed)
    (atEnd : c.outbound.atEnd = true → stream.atEnd = true) :
    Settled { c with sender := { c.sender with stream } } := by
  have intact := settled.intact
  have state : Sender.state { c.sender with stream } = .finAcked ↔ c.sender.state = .finAcked := by
    rw [Sender.finAcked_iff, Sender.finAcked_iff]
    change stream.failed = false ∧ _ ↔ c.outbound.failed = false ∧ _
    rw [failed_eq]
  exact ⟨⟨⟨intact.inbound, sound, intact.cells, fun active =>
      ⟨(intact.alive active).1, failed_eq.trans (intact.alive active).2⟩⟩,
    failed_eq.trans settled.poisoned, settled.known, settled.hurried, fun inactive =>
      (settled.closed inactive).imp_right fun closed => ⟨closed.1, state.mpr closed.2⟩⟩,
    fun active ended acked => settled.lasts active ended (state.mp acked),
    fun ended lingers going => atEnd (settled.spent ended lingers going)⟩

theorem Settled.performs (settled : Settled c) {call : Call} {reply : Reply}
    (within : call.within ByteStream.Call.reads = true) (performs : Performs c call after reply) :
    Settled after := by
  have intact := settled.intact
  cases performs with
  | connects acts | aborts acts | ticks _ acts => exact settled.parts acts.parts
  | receives _ handles => exact settled.handles handles
  | ignoresWrite | ignoresFinish => exact settled
  | writes accepts replies =>
    have accepts := ByteStream.write_accepts intact.outbound accepts
    exact (settled.withStream accepts.sound accepts.failed_eq accepts.atEnd).parts replies.parts
  | finishes replies =>
    exact (settled.withStream intact.outbound.finish rfl ByteStream.finish_atEnd).parts
      replies.parts
  | reads takes =>
    obtain ⟨_, drops, -⟩ := ByteStream.perform_drops intact.inbound within takes
    have ended_eq := drops.ended_eq
    have failed_eq := drops.failed_eq
    refine ⟨⟨⟨drops.sound, intact.outbound, drops.capacity_eq.trans intact.cells, fun active =>
      ⟨failed_eq.trans (intact.alive active).1, (intact.alive active).2⟩⟩,
      settled.poisoned.trans failed_eq.symm, fun ended => settled.known (ended_eq.symm.trans ended),
      fun hurried => ended_eq.trans (settled.hurried hurried), fun inactive => ?_⟩,
      fun active ended => settled.lasts active (ended_eq.symm.trans ended),
      fun ended => settled.spent (ended_eq.symm.trans ended)⟩
    rcases settled.closed inactive with failed | ⟨ended, acked⟩
    · exact Or.inl (failed_eq.trans failed)
    · exact Or.inr ⟨ended_eq.trans ended, acked⟩

theorem Reachable.settled (reachable : Reachable ByteStream.Call.reads c) : Settled c := by
  induction reachable with
  | opened opens =>
    obtain ⟨rfl, -, fits⟩ := new?_eq_ok_iff.mp opens
    exact settled_initial fits
  | called _ within performs ih => exact ih.performs within (perform_performs performs)
  | emitted _ count ih =>
    exact ⟨⟨⟨ih.intact.inbound, ih.intact.outbound, ih.intact.cells, ih.intact.alive⟩, ih.poisoned,
      ih.known, ih.hurried, ih.closed⟩, ih.lasts, ih.spent⟩

theorem Settled.summary_eq (settled : Settled c) (waits : Waits c) {sender : SendState}
    (state : c.sender.state = sender)
    (acked : sender = .synAcked ∨ sender = .finSent ∨ sender = .finAcked) :
    c.summary = ⟨sender, if c.inbound.ended then .finReceived else .synReceived, c.active,
      c.active && c.linger⟩ := by
  have known : c.receiver.isn ≠ none := by
    intro unknown
    have early := (waits unknown).state
    rw [state] at early
    rcases acked with rfl | rfl | rfl <;> simp at early
  have spared : c.inbound.failed = false := by
    rw [← settled.poisoned, ← Bool.not_eq_true]
    intro failed
    rw [Sender.error_iff.mpr failed] at state
    rcases acked with rfl | rfl | rfl <;> cases state
  unfold summary
  rw [state, Receiver.state_of_known known spared]
  rfl

theorem Settled.active_of_state (settled : Settled c) (spared : c.sender.state ≠ .error)
    (going : c.inbound.ended = false ∨ c.sender.state ≠ .finAcked) : c.active = true := by
  by_contra inactive
  rcases settled.closed (Bool.eq_false_iff.mpr inactive) with failed | ⟨ended, acked⟩
  · exact spared (Sender.error_iff.mpr (settled.poisoned.trans failed))
  · rcases going with going | going
    · simp [ended] at going
    · exact going acked

theorem Settled.linger_of_going (settled : Settled c) (going : c.inbound.ended = false) :
    c.linger = true := by
  by_contra hurried
  simp [settled.hurried (Bool.eq_false_iff.mpr hurried)] at going

theorem Settled.summary_cases (settled : Settled c) (waits : Waits c)
    (opened : c.sender.state ≠ .closed) (acked : c.sender.state ≠ .synSent) :
    (∃ state : State, c.summary = state.summary) ∨
      c.summary = ⟨.synAcked, .finReceived, true, true⟩ ∧ c.outbound.atEnd = true ∧
        c.sender.finSent = false := by
  cases state : c.sender.state with
  | closed => exact absurd state opened
  | synSent => exact absurd state acked
  | error =>
    have failed := Sender.error_iff.mp state
    have poisoned : c.inbound.failed = true := settled.poisoned.symm.trans failed
    have inactive : c.active = false := by
      by_contra active
      simp [(settled.intact.alive (by simpa using active)).1] at poisoned
    have receiver : c.receiver.state = .error := if_pos poisoned
    refine Or.inl ⟨.reset, ?_⟩
    simp [summary, state, receiver, inactive, State.summary]
  | synAcked =>
    have seen := settled.summary_eq waits state (by simp)
    have active := settled.active_of_state (by simp [state]) (by simp [state])
    have waiting := Sender.finSent_of_synAcked state
    cases ended : c.inbound.ended with
    | false =>
      have lingers := settled.linger_of_going ended
      exact Or.inl ⟨.established, by simp [seen, ended, active, lingers, State.summary]⟩
    | true =>
      cases lingers : c.linger with
      | false => exact Or.inl ⟨.closeWait, by simp [seen, ended, active, lingers, State.summary]⟩
      | true =>
        exact Or.inr ⟨by simp [seen, ended, active, lingers], settled.spent ended lingers waiting,
          waiting⟩
  | finSent =>
    have seen := settled.summary_eq waits state (by simp)
    have active := settled.active_of_state (by simp [state]) (by simp [state])
    cases ended : c.inbound.ended with
    | false =>
      have lingers := settled.linger_of_going ended
      exact Or.inl ⟨.finWait1, by simp [seen, ended, active, lingers, State.summary]⟩
    | true =>
      cases lingers : c.linger with
      | false => exact Or.inl ⟨.lastAck, by simp [seen, ended, active, lingers, State.summary]⟩
      | true => exact Or.inl ⟨.closing, by simp [seen, ended, active, lingers, State.summary]⟩
  | finAcked =>
    have seen := settled.summary_eq waits state (by simp)
    cases ended : c.inbound.ended with
    | false =>
      have active := settled.active_of_state (by simp [state]) (Or.inl ended)
      have lingers := settled.linger_of_going ended
      exact Or.inl ⟨.finWait2, by simp [seen, ended, active, lingers, State.summary]⟩
    | true =>
      cases active : c.active with
      | false => exact Or.inl ⟨.closed, by simp [seen, ended, active, State.summary]⟩
      | true =>
        have lingers := settled.lasts active ended state
        exact Or.inl ⟨.timeWait, by simp [seen, ended, active, lingers, State.summary]⟩

/-- Which connections past their handshake have no name: those that linger with the peer's stream ended
and the last byte of our own sent, but not the FIN. -/
theorem named_eq_none_iff (reachable : Reachable ByteStream.Call.reads c)
    (opened : c.sender.state ≠ .closed) (acked : c.sender.state ≠ .synSent) :
    (c.summary.named = none ↔ c.summary = ⟨.synAcked, .finReceived, true, true⟩) ∧
    (c.summary.named = none → c.outbound.atEnd = true ∧ c.sender.finSent = false) := by
  have unnamed : Summary.named ⟨.synAcked, .finReceived, true, true⟩ = none := by decide
  rcases reachable.settled.summary_cases reachable.waits opened acked with
    ⟨state, seen⟩ | ⟨seen, spent, waiting⟩
  · have named : c.summary.named = some state := by rw [seen, State.named_summary]
    refine ⟨⟨fun none => ?_, fun same => ?_⟩, fun none => ?_⟩
    · simp [named] at none
    · simp [same, unnamed] at named
    · simp [named] at none
  · exact ⟨⟨fun _ => seen, fun _ => seen ▸ unnamed⟩, fun _ => ⟨spent, waiting⟩⟩

def pinched (calls : List Call) : Except Fault (SendState × Option State × Summary) := do
  let c ← dial 10 (.segment { ack := true, seqno := ⟨5001⟩, ackno := ⟨1001⟩, window := 3 } :: calls)
  return (c.sender.state, c.summary.named, c.summary)

theorem of_pinched {calls : List Call} {sender : SendState} {named : Option State}
    {summary : Summary} (within : ∀ call ∈ calls, call.within ByteStream.Call.reads = true)
    (seen : pinched calls = .ok (sender, named, summary)) :
    ∃ c, Reachable ByteStream.Call.reads c ∧ c.sender.state = sender ∧ c.summary.named = named ∧
      c.summary = summary := by
  unfold pinched at seen
  simp only [bind_eq_ok, pure_eq_ok, Prod.mk.injEq] at seen
  obtain ⟨c, dialed, look⟩ := seen
  refine ⟨c, reachable_dial (by decide) (by decide) (fun call member => ?_) dialed, look⟩
  rcases List.mem_cons.mp member with rfl | member
  · rfl
  · exact within call member

def outrun : List Call :=
  [.write [97, 98, 99], .finish, .segment
    { ack := true, fin := true, seqno := ⟨5001⟩, ackno := ⟨1001⟩, window := 3 }]

theorem of_outrun : ∃ c, Reachable ByteStream.Call.reads c ∧ c.sender.state = .synAcked ∧
    c.summary.named = none := by
  have seen : pinched outrun =
      .ok (.synAcked, none, ⟨.synAcked, .finReceived, true, true⟩) := by decide +kernel
  obtain ⟨c, reachable, state, named, -⟩ := of_pinched (by simp [outrun, Call.within]) seen
  exact ⟨c, reachable, state, named⟩

theorem named_unless_fin_waits :
    (∃ c : Connection, Reachable ByteStream.Call.reads c ∧ c.sender.state = .synAcked ∧
      c.inbound.ended = true ∧ c.summary.named ≠ none) ∧
    (∃ c : Connection, Reachable ByteStream.Call.reads c ∧ c.sender.state = .synAcked ∧
      c.outbound.atEnd = true ∧ c.sender.finSent = false) := by
  constructor
  · have seen : pinched [.segment
        { ack := true, fin := true, seqno := ⟨5001⟩, ackno := ⟨1001⟩, window := 3 }] =
        .ok (.synAcked, some .closeWait, ⟨.synAcked, .finReceived, true, false⟩) := by
      decide +kernel
    obtain ⟨c, reachable, state, -, summary⟩ := of_pinched (by simp [Call.within]) seen
    have receiver : c.receiver.state = .finReceived := congrArg Summary.receiver summary
    refine ⟨c, reachable, state, Receiver.ended_of_finReceived receiver, fun none => ?_⟩
    have unnamed := (named_eq_none_iff reachable (by simp [state]) (by simp [state])).1.mp none
    rw [summary] at unnamed
    exact absurd unnamed (by decide)
  · obtain ⟨c, reachable, state, named⟩ := of_outrun
    exact ⟨c, reachable, state,
      (named_eq_none_iff reachable (by simp [state]) (by simp [state])).2 named⟩

/-- A connection past its handshake whose state has no name. -/
theorem unnamed_with_fin_waiting : ∃ c : Connection, Reachable ByteStream.Call.reads c ∧
    c.sender.state ≠ .closed ∧ c.sender.state ≠ .synSent ∧ c.summary.named = none := by
  obtain ⟨c, reachable, state, named⟩ := of_outrun
  exact ⟨c, reachable, by simp [state], by simp [state], named⟩

end Connection
end TcpStack

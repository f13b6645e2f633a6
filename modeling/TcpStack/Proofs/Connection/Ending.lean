import TcpStack.Proofs.Connection.Advertising
import TcpStack.Proofs.Connection.Naming

/-! How a connection ends. Either both streams have come to their end and all that was sent is acknowledged,
or both have failed, because the peer said so or because this end did; and in the second case the last
word is an RST. Nothing that is asked of a connection afterwards changes it. -/

namespace TcpStack

namespace Sender

structure Civil (s : Sender) : Prop where
  queued : ∀ segment ∈ s.queued, segment.rst = false
  inFlight : ∀ item ∈ s.outstanding, item.segment.rst = false

theorem civil_initial (capacity timeout : Nat) (isn : SeqNum) :
    Civil (initial capacity timeout isn) := by
  refine ⟨?_, ?_⟩
  · intro segment member
    cases member
  · intro item member
    cases member

variable {s after : Sender} {offer : Option (SeqNum × UInt16)}

theorem Civil.step (civil : Civil s) (step : Step offer s after) : Civil after := by
  cases step with
  | opens | cuts => exact ⟨forall_mem_concat civil.queued rfl, forall_mem_concat civil.inFlight rfl⟩
  | hears | ages => exact ⟨civil.queued, civil.inFlight⟩
  | acks _ _ _ _ hadvance =>
    obtain ⟨_, _, _, _, hrelease, rfl⟩ := advance_eq_ok hadvance
    exact ⟨civil.queued, fun item member => civil.inFlight item (mem_of_release hrelease member)⟩
  | @resends oldest rest _ _ _ inFlight =>
    have plain := civil.inFlight oldest (by simp [inFlight])
    refine ⟨forall_mem_concat civil.queued plain, fun item member => ?_⟩
    rcases List.mem_cons.mp member with rfl | old
    · exact plain
    · exact civil.inFlight item (by simp [inFlight, old])
  | replies => exact ⟨forall_mem_concat civil.queued rfl, civil.inFlight⟩

theorem Civil.steps (civil : Civil s) (steps : Steps offer s after) : Civil after := by
  induction steps with
  | refl => exact civil
  | tail _ last ih => exact ih.step last

end Sender

namespace Connection

open Outcome

variable {events : List Event} {c x after : Connection} {call : Call} {reply : Reply}

section inactive

variable (inactive : c.active = false)
include inactive

theorem perform_of_inactive (other : call.within (fun _ => false) = true) :
    ∃ reply, (c.perform call).result = .ok (c, reply) := by
  cases call with
  | connect => exact ⟨.done, by simp [perform, connect, inactive]⟩
  | write bytes => exact ⟨.count 0, by simp [perform, write, inactive]⟩
  | finish => exact ⟨.done, by simp [perform, finish, inactive]⟩
  | abort => exact ⟨.done, by simp [perform, abort, inactive]⟩
  | segment segment => exact ⟨.done, by simp [perform, segmentReceived, inactive]⟩
  | tick elapsed => exact ⟨.done, by simp [perform, tick, inactive]⟩
  | inbound => cases other

theorem performAll_of_inactive {calls : List Call}
    (other : ∀ call ∈ calls, call.within (fun _ => false) = true) : c.performAll calls = .ok c := by
  induction calls with
  | nil => rfl
  | cons call rest ih =>
    obtain ⟨reply, performs⟩ := perform_of_inactive inactive (other call (by simp))
    unfold performAll
    rw [List.foldlM_cons, performs]
    exact ih fun call' inside => other call' (by simp [inside])

theorem perform_inactive (sound : c.inbound.Sound)
    (within : call.within ByteStream.Call.reads = true)
    (h : (c.perform call).result = .ok (after, reply)) :
    ∃ receiver, after = { c with receiver } ∧ receiver.stream.failed = c.inbound.failed := by
  by_cases other : call.within (fun _ => false) = true
  · obtain ⟨_, same⟩ := perform_of_inactive inactive other
    rw [same] at h
    cases h
    exact ⟨c.receiver, rfl, rfl⟩
  · cases call with
    | inbound call =>
      cases perform_performs h with
      | reads takes =>
        obtain ⟨_, drops, -⟩ := ByteStream.perform_drops sound within takes
        exact ⟨_, rfl, drops.failed_eq⟩
    | connect | write | finish | abort | segment | tick => exact absurd rfl other

end inactive

def ending (events : List Event) : Option Event := events.find? fun e => !e.after.active

theorem ending_append (events : List Event) (e : Event) :
    ending (events ++ [e]) = (ending events).or (if e.after.active then none else some e) := by
  unfold ending
  rw [List.find?_append, List.find?_singleton]
  cases e.after.active <;> rfl

/-- As long as a connection lives it has sent no RST and will send none. -/
structure Alive (events : List Event) (c : Connection) : Prop where
  active : c.active = true
  before : ending events = none
  cause : c.cause = none
  civil : c.sender.Civil
  calm : ∀ segment ∈ sent events, segment.rst = false

/-- Who ended a connection that failed: the peer, by an RST, or the application or the clock at this end,
which leave one RST behind all other segments. -/
inductive BrokenOff (events : List Event) (c : Connection) : Prop
  | byPeer {last : Event} {segment : Segment} (ended : ending events = some last)
      (call : last.call = .segment segment) (rst : segment.rst = true)
      (cause : c.cause = some .byPeer) : BrokenOff events c
  | byUs {last : Event} {earlier : List Segment} {rst : Segment} (ended : ending events = some last)
      (call : last.call = .abort ∧ c.cause = none ∨
        (∃ elapsed, last.call = .tick elapsed) ∧ c.cause = some .timedOut)
      (queued : sent events = earlier ++ [rst]) (calm : ∀ segment ∈ earlier, segment.rst = false)
      (marked : rst.rst = true)
      (seqno : rst.seqno = SeqNum.wrap c.sender.nextSeqno c.sender.isn) : BrokenOff events c

inductive Fate (events : List Event) (c : Connection) : Prop
  | lives (alive : Alive events c) : Fate events c
  | finished (inactive : c.active = false) (stopped : ending events ≠ none)
      (spared : c.inbound.failed = false) (cause : c.cause = none) : Fate events c
  | failed (inactive : c.active = false) (failed : c.inbound.failed = true)
      (reason : BrokenOff events c) : Fate events c

theorem Replies.civil (replies : Replies x after) (civil : x.sender.Civil) :
    after.sender.Civil ∧
      ∃ more, after.queued = x.queued ++ more ∧ ∀ segment ∈ more, segment.rst = false := by
  cases replies with
  | silent => exact ⟨civil, [], (List.append_nil _).symm, by simp⟩
  | @sends sender stamped steps stamps =>
    have civil' := civil.steps steps
    refine ⟨⟨by simp, civil'.inFlight⟩, stamped, rfl, fun segment member => ?_⟩
    obtain ⟨plain, inside, hstamp⟩ := mem_of_mapM stamps member
    obtain ⟨-, -, -, -, rst_eq⟩ := Receiver.stamp_same hstamp
    exact rst_eq.trans (civil'.queued plain inside)

theorem Replies.marks (replies : Replies x after) :
    after.active = x.active ∧ after.cause = x.cause ∧ after.receiver = x.receiver := by
  cases replies with
  | silent | sends => exact ⟨rfl, rfl, rfl⟩

theorem Alive.ended (alive : Alive events c) (inactive : after.active = false) :
    ending (events ++ [c.event call after reply]) = some (c.event call after reply) := by
  rw [ending_append, alive.before, Option.none_or]
  exact if_neg (by simp [event, inactive])

theorem Alive.replies (alive : Alive events c) (queued : x.queued = c.queued)
    (cause : x.cause = none) (civil : x.sender.Civil) (spared : x.inbound.failed = false)
    (replies : Replies x after) : Fate (events ++ [c.event call after reply]) after := by
  obtain ⟨active_eq, cause_eq, receiver_eq⟩ := replies.marks
  obtain ⟨civil', more, queued', calm⟩ := replies.civil civil
  cases active : after.active with
  | true =>
    refine .lives ⟨active, ?_, cause_eq.trans cause, civil', ?_⟩
    · rw [ending_append, alive.before, Option.none_or]
      exact if_pos active
    · rw [sent_append, sent_singleton, event, queued', queued, List.drop_left]
      exact List.forall_mem_append.mpr ⟨alive.calm, calm⟩
  | false =>
    refine .finished active (by simp [alive.ended active]) ?_ (cause_eq.trans cause)
    change after.receiver.stream.failed = false
    rw [receiver_eq]
    exact spared

theorem Alive.resets (alive : Alive events c) {cause : Option ResetCause} {rst : Segment}
    (queued : x.queued = c.queued) (resets : Resets x cause rst after)
    (why : call = .abort ∧ cause = none ∨
      (∃ elapsed, call = .tick elapsed) ∧ cause = some .timedOut) :
    Fate (events ++ [c.event call after reply]) after := by
  obtain ⟨stamps, after_eq⟩ := resets
  obtain ⟨-, seqno, -, -, marked⟩ := Receiver.stamp_same stamps
  have inactive : after.active = false := by rw [after_eq]; rfl
  have queued' : after.queued = c.queued ++ [rst] := by rw [after_eq, ← queued]; rfl
  obtain rfl : after.cause = cause := by rw [after_eq]; rfl
  refine .failed inactive (by rw [after_eq]; rfl)
    (.byUs (alive.ended inactive) why ?_ alive.calm marked ?_)
  · rw [sent_append, sent_singleton, event, queued', List.drop_left]
  · rw [after_eq]
    exact seqno

theorem Alive.elapses (alive : Alive events c) (intact : Intact c) {elapsed : Nat}
    (elapses : Elapses c elapsed after) : Fate (events ++ [c.event (.tick elapsed) after reply]) after := by
  have spared := (intact.alive alive.active).1
  cases elapses with
  | sleeps inactive => exact absurd (alive.active.symm.trans inactive) (by decide)
  | @givesUp sender rst _ _ _ ticks _ resets =>
    exact alive.resets (x := { c with idle := c.idle + elapsed, sender }) rfl resets (Or.inr ⟨⟨elapsed, rfl⟩, rfl⟩)
  | @goesOn _ flushed active _ ticks _ flushes _ =>
    have replies : Replies { c with idle := c.idle + elapsed } flushed := flushes.replies (Sender.tick_steps ticks)
    cases ended : flushed.expired with
    | false =>
      rw [Bool.not_false, flushes.eq_of_active active]
      exact alive.replies (x := { c with idle := c.idle + elapsed }) rfl alive.cause alive.civil spared replies
    | true =>
      obtain ⟨-, cause_eq, receiver_eq⟩ := replies.marks
      have stopped : ending (events ++ [c.event (.tick elapsed) { flushed with active := false } reply]) =
          some _ := alive.ended rfl
      refine .finished rfl (by simp [stopped]) ?_ (cause_eq.trans alive.cause)
      change flushed.receiver.stream.failed = false
      rw [receiver_eq]
      exact spared

theorem Alive.handles (alive : Alive events c) (intact : Intact c) {segment : Segment}
    (handles : Handles c segment after) :
    Fate (events ++ [c.event (.segment segment) after reply]) after := by
  have spared := (intact.alive alive.active).1
  cases handles with
  | sleeps inactive => exact absurd (alive.active.symm.trans inactive) (by decide)
  | passes => exact alive.replies (x := { c with idle := 0 }) rfl alive.cause alive.civil spared .silent
  | ends _ rst => exact .failed rfl rfl (.byPeer (alive.ended rfl) rfl rst rfl)
  | answers _ _ _ _ replies =>
    exact alive.replies (x := { c with idle := 0 }) rfl alive.cause alive.civil spared replies
  | @takes sender receiver accepted _ _ _ _ hears takes replies =>
    obtain ⟨_, goes, -⟩ := takes.spec intact.inbound
    exact alive.replies (x := checked { c with idle := 0, sender, receiver }) rfl alive.cause
      (alive.civil.steps hears) (goes.failed_eq.trans spared) replies

theorem Alive.performs (alive : Alive events c) (intact : Intact c)
    (within : call.within ByteStream.Call.reads = true) (performs : Performs c call after reply) :
    Fate (events ++ [c.event call after reply]) after := by
  have spared := (intact.alive alive.active).1
  have silent {x : Connection} (queued : x.queued = c.queued) (cause : x.cause = none)
      (civil : x.sender.Civil) (spared : x.inbound.failed = false) :
      Fate (events ++ [c.event call x reply]) x := alive.replies queued cause civil spared .silent
  cases performs with
  | connects replies => exact alive.replies rfl alive.cause alive.civil spared replies
  | aborts aborts =>
    cases aborts with
    | sleeps inactive => exact absurd (alive.active.symm.trans inactive) (by decide)
    | ends _ resets => exact alive.resets rfl resets (Or.inl ⟨rfl, rfl⟩)
  | ticks _ elapses => exact alive.elapses intact elapses
  | receives _ handles => exact alive.handles intact handles
  | ignoresWrite | ignoresFinish => exact silent rfl alive.cause alive.civil spared
  | @writes _ _ stream _ _ replies =>
    exact alive.replies (x := { c with sender := { c.sender with stream } }) rfl alive.cause
      ⟨alive.civil.queued, alive.civil.inFlight⟩ spared replies
  | finishes replies =>
    exact alive.replies
      (x := { c with sender := { c.sender with stream := c.sender.stream.finish } }) rfl alive.cause
      ⟨alive.civil.queued, alive.civil.inFlight⟩ spared replies
  | reads takes =>
    obtain ⟨_, drops, -⟩ := ByteStream.perform_drops intact.inbound within takes
    exact silent rfl alive.cause alive.civil (drops.failed_eq.trans spared)

theorem Fate.called (fate : Fate events c) (intact : Intact c)
    (within : call.within ByteStream.Call.reads = true)
    (h : (c.perform call).result = .ok (after, reply)) :
    Fate (events ++ [c.event call after reply]) after := by
  have dead (inactive : c.active = false) : ∃ receiver, after = { c with receiver } ∧
      receiver.stream.failed = c.inbound.failed :=
    perform_inactive inactive intact.inbound within h
  have still {receiver : Receiver} : sent (events ++ [c.event call { c with receiver } reply]) =
      sent events := by
    rw [sent_append, sent_singleton, event, List.drop_length, List.append_nil]
  have stopped {receiver : Receiver} {last : Event} (ended : ending events = some last) :
      ending (events ++ [c.event call { c with receiver } reply]) = some last := by
    rw [ending_append, ended, Option.some_or]
  cases fate with
  | lives alive => exact alive.performs intact within (perform_performs h)
  | finished inactive ended spared cause =>
    obtain ⟨receiver, rfl, failed_eq⟩ := dead inactive
    obtain ⟨last, ended⟩ := Option.ne_none_iff_exists'.mp ended
    exact .finished inactive (by simp [stopped ended]) (failed_eq.trans spared) cause
  | failed inactive failed reason =>
    obtain ⟨receiver, rfl, failed_eq⟩ := dead inactive
    refine .failed inactive (failed_eq.trans failed) ?_
    cases reason with
    | byPeer ended call rst cause => exact .byPeer (stopped ended) call rst cause
    | byUs ended call queued calm marked seqno =>
      exact .byUs (stopped ended) call (still.trans queued) calm marked seqno

theorem Traced.fate (traced : Traced ByteStream.Call.reads events c) : Fate events c := by
  induction traced with
  | opened opens =>
    obtain ⟨rfl, -⟩ := new?_eq_ok_iff.mp opens
    exact .lives ⟨rfl, rfl, rfl, Sender.civil_initial _ _ _, by simp [sent]⟩
  | called before within performs ih =>
    exact ih.called before.reachable.settled.intact within performs
  | emitted _ _ ih =>
    cases ih with
    | lives alive => exact .lives ⟨alive.active, alive.before, alive.cause, alive.civil, alive.calm⟩
    | finished inactive stopped spared cause => exact .finished inactive stopped spared cause
    | failed inactive failed reason =>
      refine .failed inactive failed ?_
      cases reason with
      | byPeer ended call rst cause => exact .byPeer ended call rst cause
      | byUs ended call queued calm marked seqno =>
        exact .byUs ended call queued calm marked seqno

/-- Both streams have ended, and the peer has acknowledged the SYN, every byte that was accepted, and the
FIN. -/
structure Closed (accepted : Bytes) (c : Connection) : Prop where
  named : c.summary.named = some .closed
  cause : c.cause = none
  inbound : c.inbound.failed = false ∧ c.inbound.ended = true
  outbound : c.outbound.failed = false ∧ c.outbound.atEnd = true
  finSent : c.sender.finSent = true
  inFlight : c.sender.inFlight = 0
  highestAck : c.sender.highestAck = accepted.length + 2

theorem Speaks.atEnd {accepted : Bytes} {ended : Bool} {isn : SeqNum}
    (speaks : Speaks accepted ended isn c) (finSent : c.sender.finSent = true) :
    c.outbound.atEnd = true := by
  obtain ⟨-, hended, here⟩ := speaks.serves.finished finSent
  have empty : c.outbound.size = 0 := by
    have waiting := congrArg List.length speaks.serves.waiting
    rwa [ByteStream.length_toList, List.length_drop, here, Nat.sub_self] at waiting
  exact Bool.and_eq_true_iff.mpr ⟨speaks.serves.ended_eq.trans hended, beq_iff_eq.mpr empty⟩

theorem Settled.closed_of_spared {accepted : Bytes} {ended : Bool} {isn : SeqNum}
    (settled : Settled c) (waits : Waits c) (speaks : Speaks accepted ended isn c)
    (ledger : c.sender.Ledger) (inactive : c.active = false) (spared : c.inbound.failed = false)
    (cause : c.cause = none) : Closed accepted c := by
  obtain ⟨stopped, state⟩ : c.inbound.ended = true ∧ c.sender.state = .finAcked :=
    (settled.closed inactive).resolve_left (by simp [spared])
  obtain ⟨spared', -, finSent, inFlight⟩ := Sender.finAcked_iff.mp state
  refine ⟨?_, cause, ⟨spared, stopped⟩, ⟨spared', speaks.atEnd finSent⟩, finSent, inFlight,
    (ledger.finAcked speaks.serves state).1⟩
  rw [settled.summary_eq waits state (by simp), stopped, inactive]
  rfl

theorem Settled.named_of_failed (settled : Settled c) (inactive : c.active = false)
    (failed : c.inbound.failed = true) : c.summary.named = some .reset := by
  have sender : c.sender.state = .error := Sender.error_iff.mpr (settled.poisoned.trans failed)
  have receiver : c.receiver.state = .error := if_pos failed
  unfold summary
  rw [sender, receiver, inactive]
  rfl

/-- How a connection dies. One that is inactive is closed, with all that was accepted acknowledged and
neither stream in error, or reset, with both in error; where this end gave it up, the last segment that
was ever queued is the only RST, and has the next number. Nothing that is asked of it afterwards changes
it or makes it queue a segment. -/
theorem closed_or_reset_of_inactive (traced : Traced ByteStream.Call.reads events c)
    (inactive : c.active = false) :
    (Closed (written events) c ∨ c.summary.named = some .reset ∧ c.inbound.failed = true ∧
      c.outbound.failed = true ∧ BrokenOff events c) ∧
    ∀ calls : List Call, (∀ call ∈ calls, call.within (fun _ => false) = true) →
      c.performAll calls = .ok c := by
  refine ⟨?_, fun calls other => performAll_of_inactive inactive other⟩
  have settled := traced.reachable.settled
  cases traced.fate with
  | lives alive => exact absurd (alive.active.symm.trans inactive) (by decide)
  | finished _ _ spared cause =>
    obtain ⟨⟨ended, isn, speaks⟩, -⟩ := traced.speaks
    exact Or.inl (settled.closed_of_spared traced.reachable.waits speaks
      traced.reachable.vouches.ledger inactive spared cause)
  | failed _ failed reason =>
    exact Or.inr ⟨settled.named_of_failed inactive failed, failed, settled.poisoned.trans failed, reason⟩

theorem ended_either_way :
    (∃ events c, Traced ByteStream.Call.reads events c ∧ c.active = false ∧
      (∃ earlier rst, sent events = earlier ++ [rst] ∧ rst.rst = true ∧ rst.seqno = ⟨1004⟩) ∧
      c.performAll [.write [100], .tick 5, .connect] = .ok c) ∧
    (∃ events c, Traced ByteStream.Call.reads events c ∧ c.active = false ∧
      Closed (written events) c) := by
  constructor
  · have seen : (fun log => (log.2.active, log.2.cause, log.2.summary.named, log.2.sender.nextSeqno,
        log.2.sender.isn)) <$> logOfDial 4 [.write [97, 98, 99], .abort] =
        .ok (false, none, some .reset, 4, ⟨1000⟩) := by decide +kernel
    obtain ⟨⟨events, c⟩, logged, look⟩ := map_eq_ok.mp seen
    simp only [Prod.mk.injEq] at look
    obtain ⟨inactive, cause, named, next, isn⟩ := look
    have traced : Traced ByteStream.Call.reads events c :=
      traced_logOfDial (by decide) (by decide) (by simp [Call.within]) logged
    obtain ⟨outcome, still⟩ := closed_or_reset_of_inactive traced inactive
    refine ⟨events, c, traced, inactive, ?_, still _ (by simp [Call.within])⟩
    rcases outcome with closed | ⟨-, -, -, reason⟩
    · simp [closed.named] at named
    · cases reason with
      | byPeer _ _ _ byPeer => simp [cause] at byPeer
      | byUs _ _ queued _ marked seqno =>
        refine ⟨_, _, queued, marked, ?_⟩
        rw [seqno, next, isn]
        rfl
  · have seen : (fun log => (log.2.active, log.2.summary.named)) <$> logOfDial 4
        [.segment { ack := true, fin := true, seqno := ⟨5001⟩, ackno := ⟨1001⟩, window := 9 }, .finish,
          .segment { ack := true, seqno := ⟨5002⟩, ackno := ⟨1002⟩, window := 9 }] =
        .ok (false, some .closed) := by decide +kernel
    obtain ⟨⟨events, c⟩, logged, look⟩ := map_eq_ok.mp seen
    rw [Prod.mk.injEq] at look
    obtain ⟨inactive, named⟩ := look
    have traced : Traced ByteStream.Call.reads events c :=
      traced_logOfDial (by decide) (by decide) (by simp [Call.within]) logged
    refine ⟨events, c, traced, inactive, ?_⟩
    rcases (closed_or_reset_of_inactive traced inactive).1 with closed | ⟨reset, -⟩
    · exact closed
    · simp [reset] at named

end Connection
end TcpStack

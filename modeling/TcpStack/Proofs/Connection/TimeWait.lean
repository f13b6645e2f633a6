import Mathlib.Algebra.GroupWithZero.Nat
import TcpStack.Proofs.Connection.Ending
import TcpStack.Proofs.Connection.Faultless
import TcpStack.Proofs.Connection.Output
import TcpStack.Proofs.Reassembler.Room

/-! How a connection waits once both streams have ended and all is acknowledged. It sends nothing of its own, takes
nothing in, and acknowledges again what should not have come, until the peer was silent for long enough. It begins
to wait with a segment of the peer, so the silence is as long as the wait or shorter. -/

namespace TcpStack

open Outcome

namespace Sender

/-- All is sent, with the end of the stream, and all is acknowledged. -/
structure Spent (s : Sender) : Prop where
  opened : 0 < s.nextSeqno
  finSent : s.finSent = true
  acked : s.highestAck = s.nextSeqno
  none : s.outstanding = []
  idle : s.timer = .idle

variable {timeout : Nat} {s after : Sender} {segment : Segment} {segments : List Segment}

theorem Reachable.spent (reachable : Reachable timeout s) (state : s.state = .finAcked) : Spent s := by
  obtain ⟨-, opened, finSent, none⟩ := finAcked_iff.mp state
  have books := reachable.books
  have contiguous := books.contiguous
  have released_le := books.released_le
  rw [none, Nat.sub_zero] at contiguous released_le
  have outstanding : s.outstanding = [] := by
    refine List.eq_nil_iff_forall_not_mem.mpr fun item member => ?_
    have inside := contiguous.mem member
    omega
  obtain ⟨now, timed⟩ := books.timed
  exact ⟨opened, finSent, Nat.le_antisymm books.highestAck_le released_le, outstanding,
    timed.idle_iff.mpr outstanding⟩

theorem Steps.finAcked_iff (steps : Steps none s after) (sound : s.stream.Sound) :
    after.stream.Sound ∧ (after.state = .finAcked ↔ s.state = .finAcked) := by
  induction steps with
  | refl => exact ⟨sound, Iff.rfl⟩
  | tail _ step ih => exact ⟨(step.stream_sound ih.1).1, (step.finAcked_iff ih.1).trans ih.2⟩

theorem Spent.launches (spent : Spent s) (launches : Launches s segments after) : after = s := by
  cases launches with
  | nothing => rfl
  | next launch _ =>
    cases launch with
    | opens unopened => exact absurd unopened (Nat.ne_of_gt spent.opened)
    | cuts _ going => cases going.symm.trans spent.finSent

theorem Spent.fillWindow (spent : Spent s) (h : s.fillWindow.result = .ok after) : after = s := by
  obtain ⟨_, launches⟩ := fillWindow_launches h
  exact spent.launches launches

theorem Spent.ackReceived (spent : Spent s) {ackno : SeqNum} {window : UInt16} {legal : Bool}
    (h : (s.ackReceived ackno window).result = .ok (after, legal)) : ∃ window, after = { s with window } := by
  rcases ackReceived_launches h with rfl | ⟨_, _, heeds, launches⟩
  · exact ⟨after.window, rfl⟩
  cases heeds with
  | again =>
    have still : Spent { s with window } := ⟨spent.opened, spent.finSent, spent.acked, spent.none, spent.idle⟩
    exact ⟨window, still.launches launches⟩
  | moves _ ahead sent _ =>
    have acked := spent.acked
    omega

theorem Spent.tick_eq (spent : Spent s) (elapsed : Nat) : s.tick elapsed = pure s := by
  unfold tick
  rw [spent.idle]
  simp only [Timer.tick]
  rw [← spent.idle]

end Sender

theorem Receiver.Takes.eq_of_bare {r after : Receiver} {segment : Segment} {accepted : Bool}
    (takes : r.Takes segment after accepted) (known : r.isn ≠ none) (prompt : r.reassembler.Prompt)
    (bare : segment.sequenceLength = 0) : after = r := by
  cases takes with
  | refused => rfl
  | late unknown | opens unknown => exact absurd unknown known
  | goesOn _ _ _ _ _ push =>
    unfold Segment.sequenceLength at bare
    have payload : segment.payload = [] := List.eq_nil_of_length_eq_zero (by omega)
    have fin : segment.fin = false := Bool.toNat_eq_zero.mp (by omega)
    rw [payload, fin] at push
    rw [prompt.push_nothing push]

theorem Receiver.Takes.eq_of_finished {r after : Receiver} {segment : Segment} {accepted : Bool}
    (takes : r.Takes segment after accepted) (known : r.isn ≠ none) (finished : r.reassembler.finished = true) :
    after = r := by
  cases id takes with
  | refused => rfl
  | late unknown | opens unknown => exact absurd unknown known
  | goesOn _ _ _ empty => exact takes.eq_of_bare known (fun _ _ _ => finished) (empty finished)

theorem Receiver.state_of_drops {r : Receiver} {output : ByteStream} {count : Nat}
    (drops : r.stream.Drops count output) :
    Receiver.state { r with reassembler := { r.reassembler with output } } = r.state := by
  unfold Receiver.state Receiver.stream
  rw [drops.failed_eq, drops.ended_eq]
  rfl

namespace Connection

variable {c before after : Connection} {segment : Segment} {call : Call} {reply : Reply} {calls : List Call}
  {elapsed limit : Nat}

theorem named_timeWait_iff : c.summary.named = some .timeWait ↔
    c.active = true ∧ c.linger = true ∧ c.sender.state = .finAcked ∧ c.receiver.state = .finReceived := by
  rw [Summary.named_eq_some_iff]
  unfold summary State.summary
  constructor
  · intro same
    obtain ⟨sender, receiver, active, lingers⟩ := Summary.mk.inj same
    rw [← active, Bool.true_and] at lingers
    exact ⟨active.symm, lingers.symm, sender.symm, receiver.symm⟩
  · rintro ⟨active, lingers, sender, receiver⟩
    rw [active, lingers, sender, receiver]
    rfl

section entry

theorem Replies.timeWait (replies : Replies c after) (sound : c.outbound.Sound)
    (named : after.summary.named = some .timeWait) : c.summary.named = some .timeWait := by
  cases replies with
  | silent => exact named
  | @sends sender stamped steps stamps =>
    rw [named_timeWait_iff] at named ⊢
    obtain ⟨active, lingers, state, receiver⟩ := named
    exact ⟨active, lingers, (steps.finAcked_iff sound).2.mp state, receiver⟩

theorem Replies.idle_eq (replies : Replies c after) : after.idle = c.idle := by
  cases replies with
  | silent | sends => rfl

theorem Handles.idle_eq (handles : Handles c segment after) (active : c.active = true) : after.idle = 0 := by
  cases handles with
  | sleeps inactive => cases active.symm.trans inactive
  | passes | ends => rfl
  | answers _ _ _ _ replies | takes _ _ _ _ _ replies => exact replies.idle_eq

theorem Reachable.enters_timeWait (reachable : Reachable ByteStream.Call.reads c)
    (within : call.within ByteStream.Call.reads = true) (h : (c.perform call).result = .ok (after, reply))
    (other : c.summary.named ≠ some .timeWait) (named : after.summary.named = some .timeWait) :
    (∃ segment, call = .segment segment) ∧ after.idle = 0 := by
  have intact := reachable.settled.intact
  have active := (named_timeWait_iff.mp named).1
  have still (same : after = c) : False := other (same ▸ named)
  have resets {cause : Option ResetCause} {rst : Segment} {x : Connection} (resets : Resets x cause rst after) :
      False := by
    rw [resets.after_eq] at active
    cases active
  -- a change of the outbound stream that does not mend it, and what is said then, leave the state as it was
  have replies {stream : ByteStream} {idle : Nat} (sound : stream.Sound)
      (failed_eq : stream.failed = c.outbound.failed)
      (replies : Replies { c with idle, sender := { c.sender with stream } } after) : False := by
    have named := replies.timeWait sound named
    refine other ?_
    rw [named_timeWait_iff, Sender.finAcked_iff] at named ⊢
    exact ⟨named.1, named.2.1, failed_eq ▸ named.2.2.1, named.2.2.2⟩
  cases perform_performs h with
  | connects acts => exact (replies intact.outbound rfl acts).elim
  | aborts aborts =>
    cases aborts with
    | sleeps => exact (still rfl).elim
    | ends _ ends => exact (resets ends).elim
  | ticks elapsed elapses =>
    cases elapses with
    | sleeps => exact (still rfl).elim
    | givesUp _ _ _ _ ends => exact (resets ends).elim
    | @goesOn _ flushed alive _ ticks _ flushes _ =>
      have going : (!flushed.expired) = true := active
      have acts : Replies { c with idle := c.idle + elapsed } { flushed with active := !flushed.expired } := by
        rw [going, flushes.eq_of_active alive]
        exact flushes.replies (Sender.tick_steps ticks)
      exact (replies intact.outbound rfl acts).elim
  | receives segment handles =>
    cases active' : c.active with
    | true => exact ⟨⟨segment, rfl⟩, handles.idle_eq active'⟩
    | false =>
      obtain ⟨_, rfl, -⟩ := perform_inactive active' intact.inbound within h
      cases active'.symm.trans active
  | ignoresWrite | ignoresFinish => exact (still rfl).elim
  | writes accepts acts =>
    have accepts := ByteStream.write_accepts intact.outbound accepts
    exact (replies accepts.sound accepts.failed_eq acts).elim
  | finishes acts => exact (replies intact.outbound.finish rfl acts).elim
  | reads takes =>
    obtain ⟨_, drops, -⟩ := ByteStream.perform_drops intact.inbound within takes
    refine (other ?_).elim
    rw [named_timeWait_iff] at named ⊢
    exact ⟨named.1, named.2.1, named.2.2.1, (Receiver.state_of_drops drops).symm.trans named.2.2.2⟩

end entry

theorem flushes_of_empty (empty : c.sender.queued = []) : Flushes c c := by
  have nothing : c.sender.queued.mapM c.receiver.stamp = .ok [] := by
    rw [empty]
    rfl
  have flushes : Flushes c _ := .moves nothing
  rw [List.append_nil, ← empty] at flushes
  exact flushes

theorem tick_of_timeWait (named : c.summary.named = some .timeWait) (spent : c.sender.Spent)
    (empty : c.sender.queued = []) (elapsed : Nat) : (c.tick elapsed).result = do
    let idle ← Count.add c.idle elapsed
    let limit ← Count.mul timeWaitFactor c.config.timeout
    return { c with idle, active := !decide (limit ≤ idle) } := by
  have active : c.active = true := (named_timeWait_iff.mp named).1
  have none : c.sender.resends = 0 := Sender.resends_eq_zero (by simp [spent.none])
  have few : ¬c.config.maxResends < c.sender.resends := by omega
  rw [tick_eq, if_neg (by simp [active]), Run.result_bind, Run.result_lift]
  apply bind_congr
  intro idle
  have flushes : (flush { c with idle }).result = .ok { c with idle } :=
    flush_eq_ok_iff.mpr (flushes_of_empty (c := { c with idle }) empty)
  have waits : ({ c with idle } : Connection).summary.named = some .timeWait := named
  rw [spent.tick_eq, pure_bind, if_neg few, Run.result_bind, flushes, ok_bind, expire, if_pos waits,
    Run.result_bind, Run.result_lift]
  apply bind_congr
  intro limit
  by_cases due : limit ≤ idle
  · rw [if_pos due, decide_eq_true due]
    rfl
  · rw [if_neg due, decide_eq_false due, Bool.not_false, ← active]
    rfl

/-- A connection that waits out the silence of its peer. -/
structure Lingers (c : Connection) : Prop where
  named : c.summary.named = some .timeWait
  spent : c.sender.Spent
  empty : c.sender.queued = []
  atEnd : c.outbound.atEnd = true
  known : c.receiver.isn ≠ none
  inbound : c.inbound.Sound

theorem Reachable.lingers (reachable : Reachable ByteStream.Call.reads c)
    (named : c.summary.named = some .timeWait) : Lingers c := by
  obtain ⟨-, -, acked, received⟩ := named_timeWait_iff.mp named
  have settled := reachable.settled
  obtain ⟨sender, empty⟩ := reachable.sender
  have spent := sender.spent acked
  obtain ⟨_, traced⟩ := reachable.traced
  obtain ⟨⟨_, _, speaks⟩, -⟩ := traced.speaks
  exact ⟨named, spent, empty, speaks.atEnd spent.finSent,
    settled.known (Receiver.ended_of_finReceived received), settled.intact.inbound⟩

section waiting

theorem Lingers.active (lingers : Lingers c) : c.active = true := (named_timeWait_iff.mp lingers.named).1

theorem Lingers.named_stopped (lingers : Lingers c) (idle : Nat) :
    ({ c with idle, active := false } : Connection).summary.named = some .closed := by
  obtain ⟨-, -, acked, received⟩ := named_timeWait_iff.mp lingers.named
  refine Summary.named_eq_some_iff.mpr ?_
  unfold summary State.summary
  rw [acked, received]
  rfl

theorem Lingers.ended (lingers : Lingers c) : c.inbound.ended = true :=
  Receiver.ended_of_finReceived (named_timeWait_iff.mp lingers.named).2.2.2

theorem Lingers.of_same (lingers : Lingers c) (window : UInt16) (idle : Nat) (queued : List Segment) :
    Lingers { c with sender := { c.sender with window }, idle, queued } :=
  ⟨lingers.named, ⟨lingers.spent.opened, lingers.spent.finSent, lingers.spent.acked, lingers.spent.none,
    lingers.spent.idle⟩, lingers.empty, lingers.atEnd, lingers.known, lingers.inbound⟩

theorem Lingers.checked_eq (lingers : Lingers c) : c.checked = c := by
  obtain ⟨-, linger, -, -⟩ := named_timeWait_iff.mp lingers.named
  have stays : c.lingers = true := by simp [Connection.lingers, linger, lingers.atEnd]
  have going : c.isOver = false := by simp [isOver, stays]
  unfold checked
  rw [stays, going, Bool.not_false, Bool.and_true, ← linger]

theorem Lingers.answers (lingers : Lingers c) (flushes : Flushes { c with sender := c.sender.sendEmpty } after) :
    ∃ answer, c.receiver.stamp { seqno := c.sender.nextWire } = .ok answer ∧
      after = { c with queued := c.queued ++ [answer] } := by
  obtain ⟨stamps⟩ := flushes
  simp only [Sender.sendEmpty, lingers.empty, List.nil_append, List.mapM_cons, List.mapM_nil, bind_eq_ok,
    pure_eq_ok] at stamps
  obtain ⟨answer, stamps, _, rfl, rfl⟩ := stamps
  refine ⟨answer, stamps, ?_⟩
  rw [← lingers.empty]
  rfl

theorem Lingers.tick_result (lingers : Lingers c) (elapsed : Nat) : (c.tick elapsed).result = do
    let idle ← Count.add c.idle elapsed
    let limit ← Count.mul timeWaitFactor c.config.timeout
    return { c with idle, active := !decide (limit ≤ idle) } :=
  tick_of_timeWait lingers.named lingers.spent lingers.empty elapsed

/-- A segment is answered if it took numbers, and may be answered if it did not. -/
inductive Attends (c : Connection) (segment : Segment) : Connection → Prop
  | passes (bare : segment.sequenceLength = 0) (window : UInt16) :
      Attends c segment { c with idle := 0, sender := { c.sender with window } }
  | acknowledges {answer : Segment} (window : UInt16)
      (stamps : c.receiver.stamp { seqno := c.sender.nextWire } = .ok answer) :
      Attends c segment { c with
        idle := 0, sender := { c.sender with window }, queued := c.queued ++ [answer] }

theorem Lingers.hear (lingers : Lingers c) {asked : List Sender.Call} {sender : Sender}
    (hears : Hearing c.sender segment asked sender) : ∃ window, sender = { c.sender with window } := by
  cases hears with
  | nothing => exact ⟨c.sender.window, rfl⟩
  | acknowledgment _ hears => exact lingers.spent.ackReceived hears

theorem Lingers.responds (lingers : Lingers c) {asked : List Sender.Call} (responds : Responds c segment asked after) :
    segment.sequenceLength = 0 ∧ after = c ∨
      ∃ answer, c.receiver.stamp { seqno := c.sender.nextWire } = .ok answer ∧
        after = { c with queued := c.queued ++ [answer] } := by
  cases responds with
  | ended inactive => cases lingers.active.symm.trans inactive
  | answers _ fills _ _ flushes =>
    obtain rfl := lingers.spent.fillWindow fills
    exact Or.inr (lingers.answers flushes)
  | sends _ fills said flushes =>
    obtain rfl := lingers.spent.fillWindow fills
    refine Or.inl ⟨?_, ?_⟩
    · by_contra some
      exact said (Nat.pos_of_ne_zero some) lingers.empty
    · have same := flush_eq_ok_iff.mpr (flushes_of_empty lingers.empty)
      exact Except.ok.inj ((flush_eq_ok_iff.mpr flushes).symm.trans same)

theorem Lingers.segmentReceived (lingers : Lingers c) (plain : segment.rst = false)
    (h : (c.segmentReceived segment).result = .ok after) : Attends c segment after := by
  have woken : Lingers { c with idle := 0 } := lingers.of_same c.sender.window 0 c.queued
  obtain ⟨_, receives⟩ := segmentReceived_eq_ok_iff.mp h
  cases receives with
  | sleeps inactive => cases lingers.active.symm.trans inactive
  | listening _ unknown | synSent _ unknown => exact absurd unknown lingers.known
  | synchronized _ _ receives =>
    cases receives with
    | ignores rst | ends rst => cases plain.symm.trans rst
    | answers _ _ _ _ _ flushes =>
      obtain ⟨answer, stamps, rfl⟩ := woken.answers flushes
      exact .acknowledges c.sender.window stamps
    | takes _ _ _ _ hears receives responds =>
      obtain ⟨window, rfl⟩ := woken.hear hears
      obtain rfl := (Receiver.segmentReceived_takes receives).eq_of_finished lingers.known lingers.ended
      have heard : Lingers { c with idle := 0, sender := { c.sender with window } } :=
        lingers.of_same window 0 c.queued
      rw [heard.checked_eq] at responds
      rcases heard.responds responds with ⟨bare, rfl⟩ | ⟨answer, stamps, rfl⟩
      · exact .passes bare window
      · exact .acknowledges window stamps

end waiting

section quiet

/-- The calls that leave a connection to its wait: time passes, the application reads, and a segment comes that is no
RST. -/
def Call.quiet : Call → Bool
  | .tick _ => true
  | .segment segment => !segment.rst
  | .inbound call => call.reads
  | .connect | .write _ | .finish | .abort => false

def Call.span : Call → Nat
  | .tick elapsed => elapsed
  | .segment _ | .inbound _ | .connect | .write _ | .finish | .abort => 0

/-- For how long the peer is silent after the call. -/
def Call.silence (idle : Nat) : Call → Nat
  | .tick elapsed => idle + elapsed
  | .segment _ => 0
  | .inbound _ | .connect | .write _ | .finish | .abort => idle

/-- The call is a tick, and the silence is long enough after it. -/
def Call.overdue (limit idle : Nat) : Call → Bool
  | .tick elapsed => limit ≤ idle + elapsed
  | .segment _ | .inbound _ | .connect | .write _ | .finish | .abort => false

def silence (idle : Nat) (calls : List Call) : Nat := calls.foldl Call.silence idle

def Early (limit : Nat) : (idle : Nat) → List Call → Prop
  | _, [] => True
  | idle, call :: rest => call.overdue limit idle = false ∧ Early limit (call.silence idle) rest

theorem Call.within_of_quiet (quiet : call.quiet = true) : call.within ByteStream.Call.reads = true := by
  cases call with
  | inbound => exact quiet
  | _ => rfl

inductive Passes (c : Connection) : Call → Connection → Prop
  | ticks (elapsed : Nat) : Passes c (.tick elapsed) { c with
      idle := c.idle + elapsed
      active := !decide (timeWaitFactor * c.config.timeout ≤ c.idle + elapsed) }
  | hears {segment : Segment} {after : Connection} (attends : Attends c segment after) :
      Passes c (.segment segment) after
  | reads {call : ByteStream.Call} {output : ByteStream} {count : Nat} (drops : c.inbound.Drops count output) :
      Passes c (.inbound call) { c with receiver := { c.receiver with
        reassembler := { c.receiver.reassembler with output } } }

theorem Lingers.passes (lingers : Lingers c) (quiet : call.quiet = true)
    (h : (c.perform call).result = .ok (after, reply)) : Passes c call after := by
  cases call with
  | connect | write | finish | abort => cases quiet
  | tick elapsed =>
    simp only [perform, Run.result_bind, lingers.tick_result, Run.result_pure, bind_eq_ok, Count.add_eq_ok_iff,
      Count.mul_eq_ok_iff, pure_eq_ok] at h
    obtain ⟨_, ⟨_, ⟨rfl, -⟩, _, ⟨rfl, -⟩, rfl⟩, h⟩ := h
    cases h
    exact .ticks elapsed
  | segment segment =>
    obtain ⟨_, receives⟩ := perform_eq_ok_iff.mp h
    cases receives with
    | receives receives =>
      have received := segmentReceived_eq_ok_iff.mpr ⟨_, receives⟩
      exact .hears (lingers.segmentReceived (by simpa [Call.quiet] using quiet) received)
  | inbound call =>
    obtain ⟨_, reads⟩ := perform_eq_ok_iff.mp h
    cases reads with
    | reads takes =>
      obtain ⟨_, drops, -⟩ := ByteStream.perform_drops lingers.inbound quiet takes
      exact .reads drops

theorem Lingers.step (lingers : Lingers c) (passes : Passes c call after)
    (early : call.overdue (timeWaitFactor * c.config.timeout) c.idle = false) : Lingers after := by
  cases passes with
  | ticks elapsed =>
    have going : (!decide (timeWaitFactor * c.config.timeout ≤ c.idle + elapsed)) = c.active := by
      rw [lingers.active, Bool.not_eq_true']
      exact early
    rw [going]
    exact lingers.of_same c.sender.window (c.idle + elapsed) c.queued
  | hears attends =>
    cases attends with
    | passes _ window => exact lingers.of_same window 0 c.queued
    | acknowledges window => exact lingers.of_same window 0 _
  | reads drops =>
    obtain ⟨active, linger, acked, received⟩ := named_timeWait_iff.mp lingers.named
    exact ⟨named_timeWait_iff.mpr ⟨active, linger, acked, (Receiver.state_of_drops drops).trans received⟩,
      lingers.spent, lingers.empty, lingers.atEnd, lingers.known, drops.sound⟩

structure Keeps (c : Connection) (idle : Nat) (after : Connection) : Prop where
  config_eq : after.config = c.config
  outbound_eq : after.outbound = c.outbound
  written_eq : after.inbound.written = c.inbound.written
  capacity_eq : after.receiver.reassembler.capacity = c.receiver.reassembler.capacity
  next_eq : after.receiver.reassembler.nextIndex = c.receiver.reassembler.nextIndex
  ackno_eq : after.receiver.ackno = c.receiver.ackno
  idle_eq : after.idle = idle

theorem Passes.keeps (passes : Passes c call after) : Keeps c (call.silence c.idle) after := by
  cases passes with
  | ticks => exact ⟨rfl, rfl, rfl, rfl, rfl, rfl, rfl⟩
  | hears attends =>
    cases attends with
    | passes | acknowledges => exact ⟨rfl, rfl, rfl, rfl, rfl, rfl, rfl⟩
  | reads drops =>
    refine ⟨rfl, rfl, drops.written_eq, rfl, rfl, ?_, rfl⟩
    unfold Receiver.ackno Receiver.ackPosition Reassembler.finished
    rw [drops.ended_eq]
    rfl

theorem Keeps.trans {idle idle' : Nat} (first : Keeps c idle before) (second : Keeps before idle' after) :
    Keeps c idle' after :=
  ⟨second.config_eq.trans first.config_eq, second.outbound_eq.trans first.outbound_eq,
    second.written_eq.trans first.written_eq, second.capacity_eq.trans first.capacity_eq,
    second.next_eq.trans first.next_eq, second.ackno_eq.trans first.ackno_eq, second.idle_eq⟩

/-- What a quiet call comes to, seen from outside. -/
structure Bides (c : Connection) (call : Call) (queued : List Segment) (after : Connection) : Prop where
  keeps : Keeps c (call.silence c.idle) after
  named : after.summary.named = some
    (if call.overdue (timeWaitFactor * c.config.timeout) c.idle then .closed else .timeWait)
  active : after.active = !call.overdue (timeWaitFactor * c.config.timeout) c.idle
  bare : ∀ answer ∈ queued,
    answer.sequenceLength = 0 ∧ answer.ack = true ∧ c.receiver.ackno = some answer.ackno
  few : queued.length ≤ 1
  unasked : (∀ segment, call ≠ .segment segment) → queued = []
  once : ∀ segment, call = .segment segment → 0 < segment.sequenceLength → queued.length = 1

theorem Lingers.bides (lingers : Lingers c) (passes : Passes c call after) :
    Bides c call (c.event call after reply).queued after := by
  have keeps := passes.keeps
  have still (early : call.overdue (timeWaitFactor * c.config.timeout) c.idle = false) :
      after.summary.named = some .timeWait ∧ after.active = true :=
    ⟨(lingers.step passes early).named, (lingers.step passes early).active⟩
  have silent (queued_eq : after.queued = c.queued) : (c.event call after reply).queued = [] :=
    queued_event (by rw [queued_eq, List.append_nil])
  cases passes with
  | ticks elapsed =>
    rw [silent rfl]
    cases due : Call.overdue (timeWaitFactor * c.config.timeout) c.idle (.tick elapsed) with
    | false =>
      obtain ⟨named, active⟩ := still due
      exact ⟨keeps, by simpa [due] using named, by simpa [due] using active, nofun, Nat.zero_le 1, fun _ => rfl,
        nofun⟩
    | true =>
      have long : decide (timeWaitFactor * c.config.timeout ≤ c.idle + elapsed) = true := due
      rw [long, Bool.not_true] at keeps ⊢
      exact ⟨keeps, by simpa [due] using lingers.named_stopped (c.idle + elapsed), by simp [due], nofun,
        Nat.zero_le 1, fun _ => rfl, nofun⟩
  | @hears segment _ attends =>
    obtain ⟨named, active⟩ := still rfl
    cases attends with
    | passes bare =>
      rw [silent rfl]
      refine ⟨keeps, named, active, nofun, Nat.zero_le 1, fun _ => rfl, fun other same some => ?_⟩
      cases same
      omega
    | @acknowledges answer _ stamps =>
      rw [queued_event rfl]
      obtain ⟨isn, known⟩ := Option.ne_none_iff_exists'.mp lingers.known
      obtain ⟨syn, -, payload, fin, -⟩ := Receiver.stamp_same stamps
      obtain ⟨ack, ackno, -⟩ := Receiver.stamp_eq_ok known stamps
      have bare : answer.sequenceLength = 0 := by
        unfold Segment.sequenceLength
        rw [syn, payload, fin]
        rfl
      exact ⟨keeps, named, active, List.forall_mem_singleton.mpr ⟨bare, ack, ackno⟩, Nat.le_refl 1,
        fun none => absurd rfl (none segment), fun _ _ _ => rfl⟩
  | reads drops =>
    rw [silent rfl]
    obtain ⟨named, active⟩ := still rfl
    exact ⟨keeps, named, active, nofun, Nat.zero_le 1, fun _ => rfl, nofun⟩

end quiet

section run

theorem performAll_cons_eq_ok : c.performAll (call :: calls) = .ok after ↔
    ∃ middle reply, (c.perform call).result = .ok (middle, reply) ∧ middle.performAll calls = .ok after := by
  unfold performAll
  rw [List.foldlM_cons, bind_eq_ok]
  constructor
  · rintro ⟨middle, step, rest⟩
    obtain ⟨⟨_, reply⟩, performs, rfl⟩ := map_eq_ok.mp step
    exact ⟨_, reply, performs, rest⟩
  · rintro ⟨middle, reply, performs, rest⟩
    exact ⟨middle, map_eq_ok.mpr ⟨_, performs, rfl⟩, rest⟩

theorem Lingers.run (lingers : Lingers c) (quiet : ∀ call ∈ calls, call.quiet = true)
    (early : Early (timeWaitFactor * c.config.timeout) c.idle calls) (h : c.performAll calls = .ok after) :
    Lingers after ∧ Keeps c (silence c.idle calls) after := by
  induction calls generalizing c with
  | nil =>
    cases h
    exact ⟨lingers, rfl, rfl, rfl, rfl, rfl, rfl, rfl⟩
  | cons call rest ih =>
    obtain ⟨middle, reply, performs, h⟩ := performAll_cons_eq_ok.mp h
    obtain ⟨quiet, others⟩ := List.forall_mem_cons.mp quiet
    have passes := lingers.passes quiet performs
    have keeps := passes.keeps
    obtain ⟨here, later⟩ := early
    rw [← keeps.config_eq, ← keeps.idle_eq] at later
    obtain ⟨lingers', keeps'⟩ := ih (lingers.step passes here) others later h
    rw [keeps.idle_eq] at keeps'
    exact ⟨lingers', keeps.trans keeps'⟩

/-- Each number that comes up while these calls are dealt with has its place. -/
structure Affords (c : Connection) (calls : List Call) : Prop where
  time : c.idle + (calls.map Call.span).sum < Count.bound
  limit : timeWaitFactor * c.config.timeout < Count.bound
  inbound : ∀ call ∈ calls, c.receiver.reassembler.nextIndex + c.receiver.reassembler.capacity +
    call.payload.length + 2 * SeqNum.cycle ≤ Count.bound
  outbound : c.outbound.written + c.outbound.room + 2 + 2 * SeqNum.cycle ≤ Count.bound

theorem Affords.rest (affords : Affords c (call :: calls)) (keeps : Keeps c (call.silence c.idle) after) :
    Affords after calls := by
  obtain ⟨time, limit, inbound, outbound⟩ := affords
  refine ⟨?_, ?_, fun other member => ?_, ?_⟩
  · have silence_le : call.silence c.idle ≤ c.idle + call.span := by
      cases call with
      | segment => exact Nat.zero_le _
      | _ => exact Nat.le_refl _
    rw [List.map_cons, List.sum_cons] at time
    rw [keeps.idle_eq]
    omega
  · rw [keeps.config_eq]
    exact limit
  · rw [keeps.next_eq, keeps.capacity_eq]
    exact inbound other (List.mem_cons_of_mem _ member)
  · rw [keeps.outbound_eq]
    exact outbound

theorem Affords.perform_returns (affords : Affords c (call :: calls))
    (reachable : Reachable ByteStream.Call.reads c) (lingers : Lingers c) (quiet : call.quiet = true) :
    ∃ after reply, (c.perform call).result = .ok (after, reply) := by
  obtain ⟨time, limit, inbound, outbound⟩ := affords
  by_cases ticks : ∃ elapsed, call = .tick elapsed
  · obtain ⟨elapsed, rfl⟩ := ticks
    have span_eq : (Call.tick elapsed).span = elapsed := rfl
    rw [List.map_cons, List.sum_cons, span_eq] at time
    have idle_eq : Count.add c.idle elapsed = .ok (c.idle + elapsed) := Count.add_eq_ok_iff.mpr ⟨rfl, by omega⟩
    have limit_eq := Count.mul_eq_ok_iff.mpr ⟨rfl, limit⟩
    obtain ⟨after, ticked⟩ : ∃ after, (c.tick elapsed).result = .ok after := by
      rw [lingers.tick_result, idle_eq, ok_bind, limit_eq, ok_bind]
      exact ⟨_, rfl⟩
    exact ⟨after, .done, by simp [perform, ticked]⟩
  · obtain ⟨events, traced⟩ := reachable.traced
    obtain ⟨⟨_, _, speaks⟩, counted⟩ := traced.speaks
    rw [counted] at outbound
    have ready : c.receiver.Ready call.payload.length :=
      ⟨traced.gathers.rests, inbound call List.mem_cons_self⟩
    exact Connection.perform_returns ready ⟨speaks.serves, reachable.vouches.ledger, Nat.le_of_eq counted, by omega⟩
      outbound (Call.within_of_quiet quiet) fun elapsed same => ticks ⟨elapsed, same⟩

theorem Affords.run_returns {more : List Call} (affords : Affords c (calls ++ more))
    (reachable : Reachable ByteStream.Call.reads c) (lingers : Lingers c) (quiet : ∀ call ∈ calls, call.quiet = true)
    (early : Early (timeWaitFactor * c.config.timeout) c.idle calls) :
    ∃ after, c.performAll calls = .ok after ∧ Affords after more := by
  induction calls generalizing c with
  | nil => exact ⟨c, rfl, affords⟩
  | cons call rest ih =>
    obtain ⟨quiet, others⟩ := List.forall_mem_cons.mp quiet
    obtain ⟨middle, reply, performs⟩ := affords.perform_returns reachable lingers quiet
    have passes := lingers.passes quiet performs
    have keeps := passes.keeps
    obtain ⟨here, later⟩ := early
    rw [← keeps.config_eq, ← keeps.idle_eq] at later
    obtain ⟨after, h, affords'⟩ := ih (affords.rest keeps)
      (reachable.called (Call.within_of_quiet quiet) performs) (lingers.step passes here) others later
    exact ⟨after, performAll_cons_eq_ok.mpr ⟨middle, reply, performs, h⟩, affords'⟩

end run

/-- A connection begins to wait with a segment, and the silence begins then. As long as it waits, time, reads of the
application, and segments that are no RST leave it to its wait up to the first tick after which the peer was silent
for long enough, and with that tick it is closed. Until then a segment that takes numbers is answered once, with the
acknowledgment as it was, nothing that takes numbers is sent and nothing more comes into the inbound stream. Each of
the calls has a result if the whole of the time has its place. -/
theorem time_wait_lasts (reachable : Reachable ByteStream.Call.reads c) :
    (∀ call after reply, call.within ByteStream.Call.reads = true → (c.perform call).result = .ok (after, reply) →
      c.summary.named ≠ some .timeWait → after.summary.named = some .timeWait →
      (∃ segment, call = .segment segment) ∧ after.idle = 0) ∧
    (c.summary.named = some .timeWait → ∀ earlier call, (∀ other ∈ earlier ++ [call], other.quiet = true) →
      Early (timeWaitFactor * c.config.timeout) c.idle earlier →
      (∀ before, c.performAll earlier = .ok before →
        before.summary.named = some .timeWait ∧ before.active = true ∧ Keeps c (silence c.idle earlier) before ∧
        ∀ after reply, (before.perform call).result = .ok (after, reply) →
          Bides before call (before.event call after reply).queued after) ∧
      (Affords c (earlier ++ [call]) → ∃ before after reply, c.performAll earlier = .ok before ∧
        (before.perform call).result = .ok (after, reply))) := by
  refine ⟨fun call after reply within => reachable.enters_timeWait within, fun named earlier call quiet early => ?_⟩
  have lingers := reachable.lingers named
  rw [List.forall_mem_append] at quiet
  have last := quiet.2 call List.mem_cons_self
  have quiet := quiet.1
  refine ⟨fun before h => ?_, fun affords => ?_⟩
  · obtain ⟨lingers', keeps⟩ := lingers.run quiet early h
    exact ⟨lingers'.named, lingers'.active, keeps, fun after reply performs =>
      lingers'.bides (lingers'.passes last performs)⟩
  · obtain ⟨before, h, affords'⟩ := affords.run_returns reachable lingers quiet early
    have reachable' := reachable.performAll (fun call member => Call.within_of_quiet (quiet call member)) h
    obtain ⟨after, reply, performs⟩ :=
      affords'.perform_returns reachable' (lingers.run quiet early h).1 last
    exact ⟨before, after, reply, h, performs⟩

theorem waits_after_dial : ∃ c, Reachable ByteStream.Call.reads c ∧ c.summary.named = some .timeWait ∧ c.idle = 1 ∧
    c.config.timeout = 1000 ∧ c.receiver.reassembler.nextIndex = 0 ∧ c.receiver.reassembler.capacity = 4 ∧
    c.outbound.written = 0 ∧ c.outbound.room = 4 := by
  have seen : (fun c : Connection => (c.summary.named, [c.idle, c.config.timeout, c.receiver.reassembler.nextIndex,
      c.receiver.reassembler.capacity, c.outbound.written, c.outbound.room])) <$> dial 4 [.finish,
        .segment { fin := true, ack := true, seqno := ⟨5001⟩, ackno := ⟨1002⟩ }, .tick 1] =
      .ok (some .timeWait, [1, 1000, 0, 4, 0, 4]) := by decide +kernel
  obtain ⟨c, dialed, look⟩ := map_eq_ok.mp seen
  simp only [Prod.mk.injEq, List.cons.injEq] at look
  obtain ⟨named, idle, timeout, next, capacity, written, room, -⟩ := look
  exact ⟨c, reachable_dial (by decide) (by decide) (by simp [Call.within]) dialed, named, idle, timeout, next,
    capacity, written, room⟩

theorem time_wait_begun_anew : ∃ c fin before after reply answer almost last reply',
    Reachable ByteStream.Call.reads c ∧ c.summary.named = some .timeWait ∧ fin.sequenceLength = 1 ∧
    c.performAll [.tick 9998] = .ok before ∧ (before.perform (.segment fin)).result = .ok (after, reply) ∧
    (before.event (.segment fin) after reply).queued = [answer] ∧ answer.sequenceLength = 0 ∧
    c.performAll [.tick 9998, .segment fin, .tick 9999] = .ok almost ∧ almost.summary.named = some .timeWait ∧
    (almost.perform (.tick 1)).result = .ok (last, reply') ∧ last.summary.named = some .closed := by
  obtain ⟨c, reachable, named, idle, timeout, next, capacity, written, room⟩ := waits_after_dial
  obtain ⟨fin, one, plain, empty⟩ : ∃ fin : Segment, fin.sequenceLength = 1 ∧ fin.rst = false ∧ fin.payload = [] :=
    ⟨{ fin := true, ack := true, seqno := ⟨5001⟩, ackno := ⟨1002⟩ }, by decide, rfl, rfl⟩
  have affords {calls : List Call} (soon : (calls.map Call.span).sum ≤ 20000)
      (short : ∀ call ∈ calls, call.payload = []) : Affords c calls := by
    have place : 20001 < Count.bound := by decide
    refine ⟨by omega, by rw [timeout]; decide, fun call member => ?_, by rw [written, room]; decide⟩
    rw [next, capacity, short call member]
    decide
  obtain ⟨-, waits⟩ := time_wait_lasts reachable
  obtain ⟨describes, returns⟩ := waits named [.tick 9998] (.segment fin) (by simp [Call.quiet, plain])
    (by simp [Early, Call.overdue, timeout, idle, timeWaitFactor])
  obtain ⟨before, after, reply, first, performs⟩ :=
    returns (affords (by simp [Call.span]) (by simp [Call.payload, empty]))
  have answers := (describes before first).2.2.2 after reply performs
  obtain ⟨answer, queued⟩ := List.length_eq_one_iff.mp (answers.once fin rfl (by omega))
  obtain ⟨describes, returns⟩ := waits named [.tick 9998, .segment fin, .tick 9999] (.tick 1)
    (by simp [Call.quiet, plain]) (by simp [Early, Call.overdue, Call.silence, timeout, idle, timeWaitFactor])
  obtain ⟨almost, last, reply', second, ends⟩ :=
    returns (affords (by simp [Call.span]) (by simp [Call.payload, empty]))
  obtain ⟨still, -, keeps, bides⟩ := describes almost second
  have due := (bides last reply' ends).named
  have long : Call.overdue (timeWaitFactor * 1000) (silence 1 [.tick 9998, .segment fin, .tick 9999]) (.tick 1) =
      true := by
    simp [silence, Call.silence, Call.overdue, timeWaitFactor]
  rw [keeps.config_eq, timeout, keeps.idle_eq, idle, if_pos long] at due
  exact ⟨c, fin, before, after, reply, answer, almost, last, reply', reachable, named, one, first, performs,
    queued, (answers.bare answer (queued ▸ List.mem_cons_self)).1, second, still, ends, due⟩

/-- A tick that is as long as a counter can tell has no place beside one before it: there is no result, though the
silence was long enough and the tick is all the time that passes from here on. -/
theorem time_wait_overrun : ∃ c, Reachable ByteStream.Call.reads c ∧ c.summary.named = some .timeWait ∧
    timeWaitFactor * c.config.timeout < Count.bound ∧
    ([Call.tick (2 ^ 64 - 1)].map Call.span).sum < Count.bound ∧
    Call.overdue (timeWaitFactor * c.config.timeout) c.idle (.tick (2 ^ 64 - 1)) = true ∧
    (c.perform (.tick (2 ^ 64 - 1))).result = .error (.overflow .addition) := by
  obtain ⟨c, reachable, named, idle, timeout, -⟩ := waits_after_dial
  have ticked := (reachable.lingers named).tick_result (2 ^ 64 - 1)
  rw [idle] at ticked
  refine ⟨c, reachable, named, by rw [timeout]; decide, by decide, by rw [timeout, idle]; rfl, ?_⟩
  unfold perform
  rw [Run.result_bind, ticked]
  rfl

end Connection
end TcpStack

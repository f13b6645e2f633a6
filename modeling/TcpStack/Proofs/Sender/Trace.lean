import TcpStack.Proofs.Sender.Ledger

/-! The history of a sender on its own, call by call: what was asked and answered, and which segments the call
queued. Its stream is only written to and ended. What it queues when it fills the window it sends for the
first time; what it queues when time passes it sends again. -/

namespace TcpStack.Sender

open Outcome

structure Event where
  call : Call
  reply : Reply
  queued : List Segment
deriving DecidableEq

def Call.feeds : Call → Bool
  | .stream (.write _) | .stream .finish => true
  | .stream _ => false
  | .fill | .ack .. | .legal _ | .tick _ | .sendEmpty => true

def Call.fills : Call → Bool
  | .fill | .ack .. => true
  | .legal _ | .tick _ | .sendEmpty | .stream _ => false

def Call.accepts : Call → Reply → Bytes
  | .stream (.write bytes), .count accepted => bytes.take accepted
  | _, _ => []

def accepted (events : List Event) : Bytes := events.flatMap fun e => e.call.accepts e.reply

def finished (events : List Event) : Bool := events.any fun e => e.call == .stream .finish

def sent (events : List Event) : List Segment := events.flatMap Event.queued

def launched (events : List Event) : List Segment :=
  events.flatMap fun e => if e.call.fills then e.queued else []

@[simp] theorem accepted_append (events more : List Event) :
    accepted (events ++ more) = accepted events ++ accepted more := List.flatMap_append

@[simp] theorem accepted_singleton (e : Event) : accepted [e] = e.call.accepts e.reply :=
  List.flatMap_singleton _ e

@[simp] theorem finished_append (events more : List Event) :
    finished (events ++ more) = (finished events || finished more) := List.any_append

@[simp] theorem finished_singleton (e : Event) : finished [e] = (e.call == .stream .finish) := by
  simp [finished]

@[simp] theorem sent_append (events more : List Event) :
    sent (events ++ more) = sent events ++ sent more := List.flatMap_append

@[simp] theorem sent_singleton (e : Event) : sent [e] = e.queued := List.flatMap_singleton _ e

@[simp] theorem launched_append (events more : List Event) :
    launched (events ++ more) = launched events ++ launched more := List.flatMap_append

@[simp] theorem launched_singleton (e : Event) :
    launched [e] = if e.call.fills then e.queued else [] := List.flatMap_singleton _ e

def event (s : Sender) (call : Call) (after : Sender) (reply : Reply) : Event :=
  ⟨call, reply, after.queued.drop s.queued.length⟩

/-- The sender has come this way since it was made. What is queued may leave at any time between two
calls. -/
inductive Traced : List Event → Sender → Prop
  | made {capacity timeout : Nat} {isn : SeqNum} {s : Sender}
      (makes : create capacity timeout isn = .ok s) : Traced [] s
  | called {events : List Event} {s after : Sender} {call : Call} {reply : Reply}
      (before : Traced events s) (feeds : call.feeds = true)
      (performs : (s.perform call).result = .ok (after, reply)) :
      Traced (events ++ [s.event call after reply]) after
  | drained {events : List Event} {s : Sender} (before : Traced events s) (count : Nat) :
      Traced events { s with queued := s.queued.drop count }

inductive Performs (s : Sender) : Call → Sender → Reply → (queued : List Segment) → Prop
  | fills {after : Sender} {segments : List Segment} (launches : Launches s segments after) :
      Performs s .fill after .done segments
  | ignores (ackno : SeqNum) (window : UInt16) (legal : Bool) :
      Performs s (.ack ackno window) s (.verdict legal) []
  | heeds {ackno : SeqNum} {window : UInt16} {heard after : Sender} {segments : List Segment}
      (legal : Bool) (heeds : Heeds s ackno window heard) (launches : Launches heard segments after) :
      Performs s (.ack ackno window) after (.verdict legal) segments
  | judges (ackno : SeqNum) (legal : Bool) : Performs s (.legal ackno) s (.verdict legal) []
  | ages (elapsed : Nat) (timer : Timer) : Performs s (.tick elapsed) { s with timer } .done []
  | resends {oldest : Outstanding} {rest : List Outstanding} (elapsed attempt timeout : Nat)
      (timer : Timer) (inFlight : s.outstanding = oldest :: rest) :
      Performs s (.tick elapsed) { s with
        outstanding := { oldest with resends := attempt } :: rest
        queued := s.queued ++ [oldest.segment]
        timeout, timer } .done [oldest.segment]
  | replies : Performs s .sendEmpty s.sendEmpty .done [{ seqno := s.nextWire }]
  | writes {bytes : Bytes} {stream : ByteStream} {count : Nat}
      (accepts : s.stream.write bytes = .ok (stream, count)) :
      Performs s (.stream (.write bytes)) { s with stream } (.count count) []
  | finishes : Performs s (.stream .finish) { s with stream := s.stream.finish } .done []

theorem perform_performs {s after : Sender} {call : Call} {reply : Reply} (feeds : call.feeds = true)
    (h : (s.perform call).result = .ok (after, reply)) :
    ∃ segments, Performs s call after reply segments := by
  cases perform_answers h with
  | fill hfill =>
    obtain ⟨segments, launches⟩ := fillWindow_launches hfill
    exact ⟨segments, .fills launches⟩
  | @ack ackno window _ legal hack =>
    rcases ackReceived_launches hack with rfl | ⟨heard, segments, heeds, launches⟩
    · exact ⟨[], .ignores ackno window legal⟩
    · exact ⟨segments, .heeds legal heeds launches⟩
  | legal ackno legal => exact ⟨[], .judges ackno legal⟩
  | @tick elapsed _ htick =>
    rcases tick_eq_ok htick with ⟨timer, rfl⟩ | ⟨oldest, rest, attempt, timeout, timer, inFlight, rfl⟩
    · exact ⟨[], .ages elapsed timer⟩
    · exact ⟨_, .resends elapsed attempt timeout timer inFlight⟩
  | sendEmpty => exact ⟨_, .replies⟩
  | stream hstream =>
    cases ByteStream.perform_answers hstream with
    | write accepts => exact ⟨[], .writes accepts⟩
    | finish => exact ⟨[], .finishes⟩
    | peek | pop | read | fail => cases feeds

theorem Launches.queued_eq {s after : Sender} {segments : List Segment}
    (launches : Launches s segments after) : after.queued = s.queued ++ segments := by
  induction launches with
  | nothing => exact (List.append_nil _).symm
  | next launch _ ih =>
    rw [ih, launch.queued_eq]
    exact List.append_assoc _ _ _

theorem Heeds.queued_eq {s after : Sender} {ackno : SeqNum} {window : UInt16}
    (heeds : Heeds s ackno window after) : after.queued = s.queued := by
  cases heeds with
  | again => rfl
  | moves _ _ _ hadvance =>
    obtain ⟨_, _, _, _, _, rfl⟩ := advance_eq_ok hadvance
    rfl

variable {events : List Event} {s after : Sender} {call : Call} {reply : Reply}
  {segments : List Segment}

theorem Performs.queued_eq (performs : Performs s call after reply segments) :
    after.queued = s.queued ++ segments := by
  cases performs with
  | fills launches => exact launches.queued_eq
  | heeds _ heeds launches => rw [launches.queued_eq, heeds.queued_eq]
  | ignores | judges | ages | writes | finishes => exact (List.append_nil _).symm
  | resends | replies => rfl

theorem Performs.event_eq (performs : Performs s call after reply segments) :
    s.event call after reply = ⟨call, reply, segments⟩ := by
  unfold event
  rw [performs.queued_eq, List.drop_left]

theorem Steps.serves_ledger {whole : Bytes} {ended : Bool} {isn : SeqNum}
    {offer : Option (SeqNum × UInt16)} (steps : Steps offer s after) (serves : Serves whole ended isn s)
    (ledger : Ledger s) : Serves whole ended isn after ∧ Ledger after := by
  induction steps with
  | refl => exact ⟨serves, ledger⟩
  | tail _ last ih => exact ⟨ih.1.step last, ih.2.step last⟩

theorem Performs.serves_ledger {whole : Bytes} {ended : Bool} {isn : SeqNum}
    (performs : Performs s call after reply segments) (serves : Serves whole ended isn s)
    (ledger : Ledger s) :
    Serves (whole ++ call.accepts reply) (ended || call == .stream .finish) isn after ∧
      Ledger after := by
  have kept {offer : Option (SeqNum × UInt16)} {y : Sender} (steps : Steps offer s y) :
      Serves (whole ++ []) (ended || false) isn y ∧ Ledger y := by
    rw [List.append_nil, Bool.or_false]
    exact steps.serves_ledger serves ledger
  cases performs with
  | fills launches => exact kept (launches.steps : Steps none s _)
  | ignores | judges => exact kept (Steps.refl none s)
  | heeds _ heeds launches => exact kept (heeds.steps.trans launches.steps)
  | ages _ timer => exact kept (Step.ages timer : Step none s _).steps
  | resends _ attempt timeout timer inFlight =>
    exact kept (Step.resends attempt timeout timer inFlight : Step none s _).steps
  | replies => exact kept (Step.replies : Step none s _).steps
  | writes accepts =>
    refine ⟨?_, ledger.of_same rfl rfl rfl rfl ledger.plain⟩
    exact (Bool.or_false ended).symm ▸ serves.write accepts
  | finishes =>
    refine ⟨?_, ledger.of_same rfl rfl rfl rfl ledger.plain⟩
    have same : Call.accepts (.stream .finish) .done = [] := rfl
    rw [same, List.append_nil]
    exact (Bool.or_true ended).symm ▸ serves.finish

theorem Traced.serves_ledger (traced : Traced events s) :
    Serves (accepted events) (finished events) s.isn s ∧ Ledger s := by
  induction traced with
  | made makes =>
    obtain ⟨fits, rfl⟩ := create_eq_ok makes
    exact ⟨serves_initial _ fits, ledger_initial _ _ _⟩
  | called _ feeds performs ih =>
    obtain ⟨segments, performs⟩ := perform_performs feeds performs
    obtain ⟨serves, ledger⟩ := performs.serves_ledger ih.1 ih.2
    rw [performs.event_eq, accepted_append, accepted_singleton, finished_append, finished_singleton]
    exact ⟨serves.isn_eq.symm ▸ serves, ledger⟩
  | drained _ count ih =>
    refine ⟨ih.1.of_same rfl rfl rfl rfl (fun segment member => ?_) ih.1.inFlight,
      ih.2.of_same rfl rfl rfl rfl fun segment member => ?_⟩
    · exact ih.1.queued segment (List.mem_of_mem_drop member)
    · exact ih.2.plain segment (List.mem_of_mem_drop member)

def record (s : Sender) : List Call → Except Fault (List Event × Sender)
  | [] => return ([], s)
  | call :: rest => do
    let (after, reply) ← (s.perform call).result
    let (events, last) ← record after rest
    return (s.event call after reply :: events, last)

theorem Traced.record {calls : List Call} {more : List Event} (before : Traced events s)
    (feeds : ∀ call ∈ calls, call.feeds = true) (h : s.record calls = .ok (more, after)) :
    Traced (events ++ more) after := by
  induction calls generalizing s events more with
  | nil =>
    cases h
    rwa [List.append_nil]
  | cons call rest ih =>
    unfold Sender.record at h
    simp only [bind_eq_ok, pure_eq_ok] at h
    obtain ⟨⟨middle, reply⟩, performs, ⟨later, last⟩, hrest, h⟩ := h
    cases h
    have first := before.called (feeds call (by simp)) performs
    have whole := ih first (fun call' inside => feeds call' (by simp [inside])) hrest
    rwa [List.append_assoc, List.singleton_append] at whole

def logOfCalls (calls : List Call) : Except Fault (List Event × Sender) :=
  record (initial 8 100 ⟨1000⟩) calls

theorem traced_logOfCalls {calls : List Call} (feeds : ∀ call ∈ calls, call.feeds = true)
    (h : logOfCalls calls = .ok (events, s)) : Traced events s :=
  Traced.record (.made (show create 8 100 ⟨1000⟩ = .ok (initial 8 100 ⟨1000⟩) by rfl)) feeds h

end TcpStack.Sender

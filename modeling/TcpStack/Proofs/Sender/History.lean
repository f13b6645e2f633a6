import TcpStack.Proofs.Sender.Filling

/-! The history of a sender from any of its states on. Here its stream is open to every call, so bytes may also be
taken off it by hand; what is queued may leave at any time between two calls. -/

namespace TcpStack.Sender

open Outcome

inductive Since (first : Sender) : List Event → Sender → Prop
  | start : Since first [] first
  | called {events : List Event} {s after : Sender} {call : Call} {reply : Reply}
      (before : Since first events s) (performs : (s.perform call).result = .ok (after, reply)) :
      Since first (events ++ [s.event call after reply]) after
  | drained {events : List Event} {s : Sender} (before : Since first events s) (count : Nat) :
      Since first events { s with queued := s.queued.drop count }

def Call.ticks : Call → Bool
  | .tick _ => true
  | .fill | .ack .. | .legal _ | .sendEmpty | .stream _ => false

variable {timeout : Nat} {first s after : Sender} {events more : List Event} {call : Call} {reply : Reply}
  {segments : List Segment}

theorem Since.reachable (since : Since first events s) (made : Reachable timeout first) :
    Reachable timeout s := by
  induction since with
  | start => exact made
  | called _ performs ih => exact ih.called performs
  | drained _ count ih => exact ih.drained count

theorem Since.record {calls : List Call} (before : Since first events s)
    (h : s.record calls = .ok (more, after)) : Since first (events ++ more) after := by
  induction calls generalizing s events more with
  | nil =>
    cases h
    rwa [List.append_nil]
  | cons call rest ih =>
    unfold Sender.record at h
    simp only [bind_eq_ok, pure_eq_ok] at h
    obtain ⟨⟨middle, reply⟩, performs, ⟨later, last⟩, hrest, h⟩ := h
    cases h
    have whole := ih (before.called performs) hrest
    rwa [List.append_assoc, List.singleton_append] at whole

theorem since_logOfCalls {calls : List Call} (h : logOfCalls calls = .ok (events, s)) :
    Since (initial 8 100 ⟨1000⟩) events s := Since.start.record h

theorem perform_cases (h : (s.perform call).result = .ok (after, reply)) :
    (∃ change stream, call = .stream change ∧ after = { s with stream } ∧
      s.event call after reply = ⟨call, reply, []⟩) ∨
    ∃ segments, Performs s call after reply segments := by
  cases perform_answers h with
  | @stream change stream _ _ =>
    refine Or.inl ⟨change, stream, rfl, rfl, ?_⟩
    unfold event
    rw [List.drop_length]
  | fill | ack | legal | tick | sendEmpty => exact Or.inr (perform_performs rfl h)

theorem queued_eq_event (h : (s.perform call).result = .ok (after, reply)) :
    after.queued = s.queued ++ (s.event call after reply).queued := by
  rcases perform_cases h with ⟨_, _, rfl, rfl, event_eq⟩ | ⟨segments, performs⟩
  · rw [event_eq, List.append_nil]
  · rw [performs.event_eq, performs.queued_eq]

section record

variable {calls others : List Call} {middle : Sender}

theorem record_cons_eq_ok_iff : s.record (call :: calls) = .ok (events, after) ↔
    ∃ middle reply more, (s.perform call).result = .ok (middle, reply) ∧
      middle.record calls = .ok (more, after) ∧ events = s.event call middle reply :: more := by
  rw [Sender.record]
  simp only [bind_eq_ok, pure_eq_ok, Prod.exists, Prod.mk.injEq]
  constructor
  · rintro ⟨middle, reply, performs, more, _, behind, rfl, rfl⟩
    exact ⟨middle, reply, more, performs, behind, rfl⟩
  · rintro ⟨middle, reply, more, performs, behind, rfl⟩
    exact ⟨middle, reply, performs, more, after, behind, rfl, rfl⟩

theorem record_singleton (h : (s.perform call).result = .ok (after, reply)) :
    s.record [call] = .ok ([s.event call after reply], after) :=
  record_cons_eq_ok_iff.mpr ⟨after, reply, [], h, rfl, rfl⟩

theorem record_append (first : s.record calls = .ok (events, middle))
    (second : middle.record others = .ok (more, after)) :
    s.record (calls ++ others) = .ok (events ++ more, after) := by
  induction calls generalizing s events with
  | nil =>
    cases first
    exact second
  | cons call rest ih =>
    obtain ⟨next, reply, later, performs, behind, rfl⟩ := record_cons_eq_ok_iff.mp first
    exact record_cons_eq_ok_iff.mpr ⟨next, reply, later ++ more, performs, ih behind, rfl⟩

theorem calls_of_record (h : s.record calls = .ok (events, after)) : events.map Event.call = calls := by
  induction calls generalizing s events with
  | nil =>
    cases h
    rfl
  | cons call rest ih =>
    obtain ⟨_, _, _, -, behind, rfl⟩ := record_cons_eq_ok_iff.mp h
    exact congrArg (call :: ·) (ih behind)

theorem queued_of_record (h : s.record calls = .ok (events, after)) : after.queued = s.queued ++ sent events := by
  induction calls generalizing s events with
  | nil =>
    cases h
    exact (List.append_nil _).symm
  | cons call rest ih =>
    obtain ⟨_, _, more, performs, behind, rfl⟩ := record_cons_eq_ok_iff.mp h
    rw [ih behind, queued_eq_event performs, List.append_assoc]
    rfl

end record

section launched

theorem Launches.front (launches : Launches s segments after) : s.outstanding <+: after.outstanding := by
  induction launches with
  | nothing => exact List.prefix_rfl
  | next launch _ ih => exact (launch.sends.inFlight_eq ▸ List.prefix_append _ _).trans ih

theorem Launches.placed (launches : Launches s segments after) : Placed s.isn s.nextSeqno segments := by
  induction launches with
  | nothing => trivial
  | next launch _ ih =>
    have sends := launch.sends
    rw [sends.isn_eq, sends.next_eq] at ih
    exact ⟨sends.seqno, sends.some, ih⟩

theorem Placed.append {isn : SeqNum} {start : Nat} {segments more : List Segment}
    (placed : Placed isn start segments) (behind : Placed isn (start + numbers segments) more) :
    Placed isn start (segments ++ more) := by
  induction segments generalizing start with
  | nil => exact behind
  | cons segment rest ih =>
    obtain ⟨seqno, some, others⟩ := placed
    refine ⟨seqno, some, ih others ?_⟩
    rw [Nat.add_assoc]
    exact behind

theorem Performs.placed (performs : Performs s call after reply segments) :
    Placed s.isn s.nextSeqno (if call.fills then segments else []) ∧ after.isn = s.isn ∧
      after.nextSeqno = s.nextSeqno + numbers (if call.fills then segments else []) := by
  cases performs with
  | fills launches => exact ⟨launches.placed, launches.kept.1, launches.nextSeqno_eq⟩
  | @heeds _ _ heard _ _ _ heeds launches =>
    have same : heard.isn = s.isn ∧ heard.nextSeqno = s.nextSeqno := by
      cases heeds with
      | again => exact ⟨rfl, rfl⟩
      | moves _ _ _ hadvance =>
        obtain ⟨_, _, _, _, _, rfl⟩ := advance_eq_ok hadvance
        exact ⟨rfl, rfl⟩
    rw [← same.1, ← same.2]
    exact ⟨launches.placed, launches.kept.1, launches.nextSeqno_eq⟩
  | ignores | judges | ages | resends | replies | writes | finishes => exact ⟨trivial, rfl, rfl⟩

theorem Since.placed (since : Since first events s) : Placed first.isn first.nextSeqno (launched events) ∧
    s.isn = first.isn ∧ s.nextSeqno = first.nextSeqno + numbers (launched events) := by
  induction since with
  | start => exact ⟨trivial, rfl, rfl⟩
  | @called _ s after _ _ _ performs ih =>
    obtain ⟨placed, isn_eq, next_eq⟩ := ih
    rw [launched_append, launched_singleton, numbers_append, ← Nat.add_assoc, ← next_eq]
    rcases perform_cases performs with ⟨_, _, rfl, rfl, event_eq⟩ | ⟨segments, performs⟩
    · rw [event_eq]
      exact ⟨placed.append trivial, isn_eq, rfl⟩
    · obtain ⟨behind, isn_eq', next_eq'⟩ := performs.placed
      rw [performs.event_eq]
      rw [isn_eq, next_eq] at behind
      exact ⟨placed.append behind, isn_eq'.trans isn_eq, next_eq'⟩
  | drained _ _ ih => exact ih

end launched

end TcpStack.Sender

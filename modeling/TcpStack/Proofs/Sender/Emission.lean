import Mathlib.Data.List.TakeDrop
import TcpStack.Proofs.Sender.Trace

/-! What a sender sends is its stream, once and in order. The segments that it sends for the first time stand
one behind the other from the SYN on, their payloads are the bytes that were taken off the stream, and the
FIN comes behind the last of them. What it sends again is the first of them that is not acknowledged as a
whole. -/

namespace TcpStack.Sender

open Outcome

def numbers : List Segment → Nat
  | [] => 0
  | segment :: rest => segment.sequenceLength + numbers rest

def payload (segments : List Segment) : Bytes := segments.flatMap Segment.payload

@[simp] theorem numbers_append (segments more : List Segment) :
    numbers (segments ++ more) = numbers segments + numbers more := by
  induction segments with
  | nil => exact (Nat.zero_add _).symm
  | cons segment rest ih => rw [List.cons_append, numbers, numbers, ih, Nat.add_assoc]

@[simp] theorem numbers_singleton (segment : Segment) :
    numbers [segment] = segment.sequenceLength := rfl

@[simp] theorem payload_append (segments more : List Segment) :
    payload (segments ++ more) = payload segments ++ payload more := List.flatMap_append

@[simp] theorem payload_singleton (segment : Segment) : payload [segment] = segment.payload :=
  List.flatMap_singleton _ segment

/-- The segments take the numbers from `start` on, each from where the one before it ended. -/
def Placed (isn : SeqNum) (start : Nat) : List Segment → Prop
  | [] => True
  | segment :: rest =>
    segment.seqno = SeqNum.wrap start isn ∧ 0 < segment.sequenceLength ∧
      Placed isn (start + segment.sequenceLength) rest

theorem placed_concat {isn : SeqNum} {start : Nat} {segments : List Segment} {last : Segment}
    (placed : Placed isn start segments)
    (seqno : last.seqno = SeqNum.wrap (start + numbers segments) isn)
    (some : 0 < last.sequenceLength) : Placed isn start (segments ++ [last]) := by
  induction segments generalizing start with
  | nil => exact ⟨seqno, some, trivial⟩
  | cons segment rest ih =>
    obtain ⟨here, taken, others⟩ := placed
    refine ⟨here, taken, ih others ?_⟩
    rw [seqno, Nat.add_assoc]
    rfl

structure Sends (s : Sender) (segment : Segment) (after : Sender) : Prop where
  seqno : segment.seqno = s.nextWire
  some : 0 < segment.sequenceLength
  isn_eq : after.isn = s.isn
  next_eq : after.nextSeqno = s.nextSeqno + segment.sequenceLength
  inFlight_eq : after.outstanding =
    s.outstanding ++ [{ endSeqno := s.nextSeqno + segment.sequenceLength, segment }]
  ack_eq : after.highestAck = s.highestAck

theorem Launch.sends {s after : Sender} {segment : Segment} (launch : Launch s segment after) :
    Sends s segment after := by
  cases launch with
  | opens => exact ⟨rfl, Nat.succ_pos _, rfl, rfl, rfl, rfl⟩
  | @cuts stream payload fin _ _ _ _ some =>
    exact ⟨rfl, sequenceLength_pos some, rfl, rfl, rfl, rfl⟩

def Waits (s : Sender) : Prop :=
  ∀ oldest rest, s.outstanding = oldest :: rest → s.highestAck < oldest.endSeqno

theorem Sends.waits {s after : Sender} {segment : Segment} (sends : Sends s segment after)
    (highestAck_le : s.highestAck ≤ s.nextSeqno) (waits : Waits s) : Waits after := by
  intro oldest rest inFlight
  have some := sends.some
  rw [sends.ack_eq]
  rw [sends.inFlight_eq] at inFlight
  cases before : s.outstanding with
  | nil =>
    -- nothing else is in flight, and all numbers before the segment are acknowledged at most
    rw [before] at inFlight
    cases inFlight
    simp only
    omega
  | cons first others =>
    rw [before] at inFlight
    cases inFlight
    exact waits _ _ before

theorem lt_of_release {ack inFlight left : Nat} {outstanding others : List Outstanding}
    {oldest : Outstanding} (h : release ack inFlight outstanding = .ok (left, oldest :: others)) :
    ack < oldest.endSeqno := by
  induction outstanding generalizing inFlight with
  | nil => cases h
  | cons item rest ih =>
    unfold release at h
    by_cases released : item.endSeqno ≤ ack
    · rw [if_pos released, bind_eq_ok] at h
      obtain ⟨_, -, h⟩ := h
      exact ih h
    · rw [if_neg released] at h
      cases h
      exact Nat.lt_of_not_le released

theorem Heeds.waits {s after : Sender} {ackno : SeqNum} {window : UInt16}
    (heeds : Heeds s ackno window after) (waits : Waits s) : Waits after := by
  cases heeds with
  | again => exact waits
  | moves _ _ _ hadvance =>
    obtain ⟨_, outstanding, _, _, hrelease, rfl⟩ := advance_eq_ok hadvance
    intro oldest rest inFlight
    have inFlight : outstanding = oldest :: rest := inFlight
    exact lt_of_release (inFlight ▸ hrelease)

/-- What was sent for the first time, against the stream and the state of the sender. -/
structure Emits (emitted : List Segment) (whole : Bytes) (s : Sender) : Prop where
  opening : ∀ first rest, emitted = first :: rest →
    first = { syn := true, seqno := SeqNum.wrap 0 s.isn } ∧ ∀ segment ∈ rest, segment.syn = false
  placed : Placed s.isn 0 emitted
  next_eq : s.nextSeqno = numbers emitted
  payload_eq : payload emitted ++ s.stream.toList = whole
  early : ∀ segment ∈ emitted.dropLast, segment.fin = false
  going : s.finSent = false → ∀ segment ∈ emitted, segment.fin = false
  inFlight : ∃ acknowledged, emitted = acknowledged ++ s.outstanding.map Outstanding.segment
  waits : ∀ oldest rest, s.outstanding = oldest :: rest → s.highestAck < oldest.endSeqno

theorem emits_initial (capacity timeout : Nat) (isn : SeqNum) :
    Emits [] [] (initial capacity timeout isn) := by
  refine ⟨?_, trivial, rfl, ByteStream.toList_ofCapacity capacity, by simp, by simp, ⟨[], rfl⟩, ?_⟩
  · intro first rest h
    cases h
  · intro oldest rest h
    cases h

variable {emitted segments : List Segment} {whole : Bytes} {ended : Bool} {isn : SeqNum}
  {s after : Sender} {segment : Segment}

theorem Emits.of_same (emits : Emits emitted whole s) (isn_eq : after.isn = s.isn)
    (next_eq : after.nextSeqno = s.nextSeqno) (fin_eq : after.finSent = s.finSent)
    (stream_eq : after.stream = s.stream)
    (inFlight : ∃ acknowledged, emitted = acknowledged ++ after.outstanding.map Outstanding.segment)
    (waits : ∀ oldest rest, after.outstanding = oldest :: rest → after.highestAck < oldest.endSeqno) :
    Emits emitted whole after :=
  ⟨isn_eq ▸ emits.opening, isn_eq ▸ emits.placed, next_eq.trans emits.next_eq,
    stream_eq ▸ emits.payload_eq, emits.early, fin_eq ▸ emits.going, inFlight, waits⟩

theorem Emits.nothing_of_unopened (emits : Emits emitted whole s) (unopened : s.nextSeqno = 0) :
    emitted = [] := by
  cases emitted with
  | nil => rfl
  | cons first rest =>
    have some := emits.placed.2.1
    have next_eq := emits.next_eq
    simp only [numbers] at next_eq
    omega

theorem Emits.sends (emits : Emits emitted whole s) (ledger : Ledger s) (sends : Sends s segment after)
    (going : s.finSent = false) (fin : after.finSent = false → segment.fin = false)
    (opening : ∀ first rest, emitted ++ [segment] = first :: rest →
      first = { syn := true, seqno := SeqNum.wrap 0 s.isn } ∧ ∀ segment ∈ rest, segment.syn = false)
    (payload_eq : segment.payload ++ after.stream.toList = s.stream.toList) :
    Emits (emitted ++ [segment]) whole after := by
  have waits := sends.waits ledger.highestAck_le emits.waits
  obtain ⟨seqno, some, isn_eq, next_eq, inFlight_eq, -⟩ := sends
  refine ⟨isn_eq ▸ opening, ?_, ?_, ?_, ?_, fun unsent => ?_, ?_, waits⟩
  · refine isn_eq ▸ placed_concat emits.placed ?_ some
    rw [seqno, nextWire, emits.next_eq, Nat.zero_add]
  · rw [next_eq, numbers_append, numbers_singleton, emits.next_eq]
  · rw [payload_append, payload_singleton, List.append_assoc, payload_eq, emits.payload_eq]
  · rw [List.dropLast_concat]
    exact emits.going going
  · exact forall_mem_concat (emits.going going) (fin unsent)
  · obtain ⟨acknowledged, emitted_eq⟩ := emits.inFlight
    refine ⟨acknowledged, ?_⟩
    rw [inFlight_eq, List.map_append, ← List.append_assoc, ← emitted_eq]
    rfl

theorem Emits.launch (emits : Emits emitted whole s) (serves : Serves whole ended isn s)
    (ledger : Ledger s) (launch : Launch s segment after) : Emits (emitted ++ [segment]) whole after := by
  have sends := launch.sends
  cases launch with
  | opens unopened =>
    have none := emits.nothing_of_unopened unopened
    have going : s.finSent = false := by
      cases fin : s.finSent with
      | false => rfl
      | true => have two := (serves.finished fin).1; omega
    refine emits.sends ledger sends going (fun _ => rfl) (fun first rest h => ?_) (List.nil_append _)
    rw [none] at h
    cases h
    exact ⟨by rw [nextWire, unopened], by simp⟩
  | @cuts stream payload fin opened going room hcut _ =>
    obtain ⟨hpayload, drops, -⟩ := cut_spec serves.sound hcut
    refine emits.sends ledger sends going id (fun first rest h => ?_) ?_
    · cases hemitted : emitted with
      | nil =>
        have next_eq := emits.next_eq
        rw [hemitted] at next_eq
        exact absurd next_eq (Nat.ne_of_gt opened)
      | cons first' others =>
        rw [hemitted] at h
        cases h
        obtain ⟨syn, plain⟩ := emits.opening _ _ hemitted
        exact ⟨syn, forall_mem_concat plain rfl⟩
    · change payload ++ stream.toList = s.stream.toList
      rw [hpayload, drops.toList_eq, List.take_append_drop]

theorem Emits.launches (emits : Emits emitted whole s) (serves : Serves whole ended isn s)
    (ledger : Ledger s) (launches : Launches s segments after) :
    Emits (emitted ++ segments) whole after := by
  induction launches generalizing emitted with
  | nothing => rwa [List.append_nil]
  | next launch _ ih =>
    have step : Step none _ _ := launch.step
    have first := emits.launch serves ledger launch
    have rest := ih first (serves.step step) (ledger.step step)
    rwa [List.append_assoc] at rest

theorem release_suffix {ack inFlight left : Nat} {outstanding rest : List Outstanding}
    (h : release ack inFlight outstanding = .ok (left, rest)) : rest <:+ outstanding := by
  induction outstanding generalizing inFlight with
  | nil =>
    cases h
    exact List.suffix_rfl
  | cons item others ih =>
    unfold release at h
    by_cases released : item.endSeqno ≤ ack
    · rw [if_pos released, bind_eq_ok] at h
      obtain ⟨_, -, h⟩ := h
      exact (ih h).trans (List.suffix_cons _ _)
    · rw [if_neg released] at h
      cases h
      exact List.suffix_rfl

theorem Emits.heeds {ackno : SeqNum} {window : UInt16} (emits : Emits emitted whole s)
    (heeds : Heeds s ackno window after) : Emits emitted whole after := by
  have waits := heeds.waits emits.waits
  cases heeds with
  | again => exact emits.of_same rfl rfl rfl rfl emits.inFlight waits
  | moves _ _ _ hadvance =>
    obtain ⟨_, outstanding, _, _, hrelease, rfl⟩ := advance_eq_ok hadvance
    refine emits.of_same rfl rfl rfl rfl ?_ waits
    obtain ⟨acknowledged, emitted_eq⟩ := emits.inFlight
    obtain ⟨released, split⟩ := release_suffix hrelease
    refine ⟨acknowledged ++ released.map Outstanding.segment, ?_⟩
    have split : released ++ outstanding = s.outstanding := split
    rw [emitted_eq, ← split, List.map_append, List.append_assoc]

theorem Performs.emits {call : Call} {reply : Reply} (performs : Performs s call after reply segments)
    (emits : Emits emitted whole s) (serves : Serves whole ended isn s) (ledger : Ledger s) :
    Emits (emitted ++ if call.fills then segments else []) (whole ++ call.accepts reply) after := by
  have unwritten {more : List Segment} {y : Sender} (kept : Emits (emitted ++ more) whole y) :
      Emits (emitted ++ more) (whole ++ []) y := by
    rwa [List.append_nil]
  have unsent {more : Bytes} {y : Sender} (kept : Emits emitted (whole ++ more) y) :
      Emits (emitted ++ []) (whole ++ more) y := by
    rwa [List.append_nil]
  have unchanged : Emits emitted (whole ++ []) s := by
    rwa [List.append_nil]
  cases performs with
  | fills launches => exact unwritten (emits.launches serves ledger launches)
  | heeds _ heeds launches =>
    have kept := heeds.steps.serves_ledger serves ledger
    exact unwritten ((emits.heeds heeds).launches kept.1 kept.2 launches)
  | ignores | judges => exact unsent unchanged
  | ages | replies => exact unsent (unchanged.of_same rfl rfl rfl rfl emits.inFlight emits.waits)
  | @resends oldest rest _ _ _ _ inFlight =>
    refine unsent (unchanged.of_same rfl rfl rfl rfl ?_ fun first others h => ?_)
    · obtain ⟨acknowledged, emitted_eq⟩ := emits.inFlight
      exact ⟨acknowledged, by rw [emitted_eq, inFlight]; rfl⟩
    · cases h
      exact emits.waits oldest rest inFlight
  | writes accepts =>
    have written := (ByteStream.write_accepts serves.sound accepts).toList_eq
    refine unsent ⟨emits.opening, emits.placed, emits.next_eq, ?_, emits.early, emits.going,
      emits.inFlight, emits.waits⟩
    rw [written, ← List.append_assoc, emits.payload_eq]
    rfl
  | finishes =>
    exact unsent ⟨emits.opening, emits.placed, emits.next_eq,
      emits.payload_eq.trans (List.append_nil whole).symm, emits.early, emits.going, emits.inFlight,
      emits.waits⟩

theorem Traced.emits {events : List Event} (traced : Traced events s) :
    Emits (launched events) (accepted events) s := by
  induction traced with
  | made makes =>
    obtain ⟨-, rfl⟩ := create_eq_ok makes
    exact emits_initial _ _ _
  | called before feeds performs ih =>
    obtain ⟨serves, ledger⟩ := before.serves_ledger
    obtain ⟨segments, performs⟩ := perform_performs feeds performs
    rw [performs.event_eq, launched_append, accepted_append, launched_singleton, accepted_singleton]
    exact performs.emits ih serves ledger
  | drained _ count ih => exact ih.of_same rfl rfl rfl rfl ih.inFlight ih.waits

theorem Contiguous.stop_eq {start stop : Nat} {outstanding : List Outstanding}
    (contiguous : Contiguous start outstanding stop) :
    stop = start + numbers (outstanding.map Outstanding.segment) := by
  induction outstanding generalizing start with
  | nil => exact contiguous.symm
  | cons oldest rest ih =>
    obtain ⟨place, -, others⟩ := contiguous
    rw [ih others, place, Nat.add_assoc]
    rfl

theorem Emits.oldest_unacknowledged {oldest : Outstanding} {rest : List Outstanding}
    (emits : Emits emitted whole s) (ledger : Ledger s) (inFlight : s.outstanding = oldest :: rest) :
    ∃ acknowledged behind, emitted = acknowledged ++ oldest.segment :: behind ∧
      numbers acknowledged ≤ s.highestAck ∧
      s.highestAck < numbers acknowledged + oldest.segment.sequenceLength := by
  obtain ⟨acknowledged, emitted_eq⟩ := emits.inFlight
  have contiguous := ledger.contiguous
  have next_eq := emits.next_eq
  rw [emitted_eq, numbers_append] at next_eq
  have stop_eq := contiguous.stop_eq
  have start_eq : s.nextSeqno - s.inFlight = numbers acknowledged := by omega
  have released_le := ledger.released_le
  have waits := emits.waits oldest rest inFlight
  rw [inFlight] at emitted_eq contiguous
  have place := contiguous.1
  exact ⟨acknowledged, rest.map Outstanding.segment, emitted_eq, by omega, by omega⟩

/-- A sender sends its stream once, in order and without gaps: a lone SYN, then segments that each start
where the one before ended, with the bytes that were written and, behind the last of them and only once the
end was called for, the FIN. What it sends again as time passes is the oldest of these segments that is not
acknowledged as a whole. -/
theorem stream_sent_once {events : List Event} {s : Sender} (traced : Traced events s) :
    (∀ first rest, launched events = first :: rest →
      first = { syn := true, seqno := s.isn } ∧ ∀ segment ∈ rest, segment.syn = false) ∧
    Placed s.isn 0 (launched events) ∧ s.nextSeqno = numbers (launched events) ∧
    payload (launched events) ++ s.stream.toList = accepted events ∧
    (∀ segment ∈ (launched events).dropLast, segment.fin = false) ∧
    (∀ segment ∈ launched events, segment.fin = true →
      finished events = true ∧ payload (launched events) = accepted events) ∧
    ∀ elapsed after reply, (s.perform (.tick elapsed)).result = .ok (after, reply) →
      after.queued = s.queued ∨ ∃ acknowledged oldest behind,
        launched events = acknowledged ++ oldest :: behind ∧ numbers acknowledged ≤ s.highestAck ∧
        s.highestAck < numbers acknowledged + oldest.sequenceLength ∧
        after.queued = s.queued ++ [oldest] := by
  have emits := traced.emits
  obtain ⟨serves, ledger⟩ := traced.serves_ledger
  refine ⟨fun first rest h => ?_, emits.placed, emits.next_eq, emits.payload_eq, emits.early,
    fun segment member fin => ?_, fun elapsed after reply performs => ?_⟩
  · obtain ⟨syn, plain⟩ := emits.opening first rest h
    exact ⟨by rw [syn, SeqNum.wrap_zero], plain⟩
  · have ends : s.finSent = true := by
      cases going : s.finSent with
      | true => rfl
      | false => exact absurd fin (Bool.eq_false_iff.mp (emits.going going segment member))
    obtain ⟨-, ended, all⟩ := serves.finished ends
    have waiting := serves.waiting
    rw [all, List.drop_length] at waiting
    have payload_eq := emits.payload_eq
    rw [waiting, List.append_nil] at payload_eq
    exact ⟨ended, payload_eq⟩
  · obtain ⟨segments, performs⟩ := perform_performs rfl performs
    cases performs with
    | ages => exact Or.inl rfl
    | resends _ _ _ _ inFlight =>
      obtain ⟨acknowledged, behind, split, covered, uncovered⟩ :=
        emits.oldest_unacknowledged ledger inFlight
      exact Or.inr ⟨acknowledged, _, behind, split, covered, uncovered, rfl⟩

theorem sent_once_over_resend : ∃ events s, Traced events s ∧
    (launched events).map (fun segment => (segment.seqno, segment.payload, segment.fin)) =
      [(⟨1000⟩, [], false), (⟨1001⟩, [97, 98, 99], false), (⟨1004⟩, [100, 101], false),
        (⟨1006⟩, [], true)] ∧
    (sent events).length = 6 ∧ finished events = true ∧
    payload (launched events) ++ s.stream.toList = accepted events ∧
    ∃ after, (s.perform (.tick 100)).result = .ok (after, .done) ∧
      (after.queued = s.queued ∨ ∃ acknowledged oldest behind,
        launched events = acknowledged ++ oldest :: behind ∧ numbers acknowledged ≤ s.highestAck ∧
        s.highestAck < numbers acknowledged + oldest.sequenceLength ∧
        after.queued = s.queued ++ [oldest]) := by
  have seen : (do
      let log ← logOfCalls [.stream (.write [97, 98, 99, 100, 101]), .fill, .ack ⟨1001⟩ 3,
        .stream .finish, .tick 100, .ack ⟨1002⟩ 4, .tick 200, .ack ⟨1006⟩ 1]
      let again ← (log.2.perform (.tick 100)).result
      return ((launched log.1).map fun segment => (segment.seqno, segment.payload, segment.fin),
        (sent log.1).length, finished log.1, again.2) :
      Except Fault (List (SeqNum × Bytes × Bool) × Nat × Bool × Reply)) =
      .ok ([(⟨1000⟩, [], false), (⟨1001⟩, [97, 98, 99], false), (⟨1004⟩, [100, 101], false),
        (⟨1006⟩, [], true)], 6, true, .done) := by decide +kernel
  simp only [bind_eq_ok, pure_eq_ok, Prod.mk.injEq] at seen
  obtain ⟨⟨events, s⟩, logged, ⟨after, _⟩, ticks, order, count, ended, rfl⟩ := seen
  have traced : Traced events s := traced_logOfCalls (by decide) logged
  obtain ⟨-, -, -, payload_eq, -, -, again⟩ := stream_sent_once traced
  exact ⟨events, s, traced, order, count, ended, payload_eq, after, ticks,
    again 100 after .done ticks⟩

end TcpStack.Sender

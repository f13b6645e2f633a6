import Mathlib.Logic.Relation
import TcpStack.Proofs.ByteStream.Queue
import TcpStack.Sender.Call

/-! The work of a sender, taken apart. Whatever is asked of it comes down to a run of seven kinds of
steps, so a property that each of them keeps is kept by every call. -/

namespace TcpStack.Sender

open Outcome

theorem create_eq_ok {capacity timeout : Nat} {isn : SeqNum} {s : Sender}
    (h : create capacity timeout isn = .ok s) :
    capacity < Cells.limit ∧ s = initial capacity timeout isn := by
  unfold create at h
  simp only [bind_eq_ok, pure_eq_ok] at h
  obtain ⟨_, fits, rfl⟩ := h
  exact ⟨Cells.checkSize_eq_ok_iff.mp fits, rfl⟩

def afterSend (s : Sender) (segment : Segment) : Sender :=
  { s with
    nextSeqno := s.nextSeqno + segment.sequenceLength
    inFlight := s.inFlight + segment.sequenceLength
    outstanding := s.outstanding ++ [{
      endSeqno := s.nextSeqno + segment.sequenceLength
      segment := { segment with seqno := s.nextWire } }]
    timer := s.timer.start s.timeout
    queued := s.queued ++ [{ segment with seqno := s.nextWire }] }

theorem forall_mem_concat {α : Type} {P : α → Prop} {sent : List α} {now : α}
    (before : ∀ a ∈ sent, P a) (here : P now) : ∀ a ∈ sent ++ [now], P a :=
  List.forall_mem_append.mpr ⟨before, List.forall_mem_singleton.mpr here⟩

/-- How far the next number may run ahead of the acknowledged one. A window of zero is probed. -/
def probingWindow (s : Sender) : Nat := max s.window.toNat 1

def budget (s : Sender) : Nat :=
  min (s.probingWindow - (s.nextSeqno - s.highestAck)) maxPayload

theorem something_of_ne_nothing {payload : Bytes} {fin : Bool}
    (some : ¬(payload.isEmpty && !fin) = true) : payload ≠ [] ∨ fin = true := by
  cases payload <;> cases fin <;> simp_all

theorem sequenceLength_pos {payload : Bytes} {fin : Bool} (some : payload ≠ [] ∨ fin = true) :
    0 < Segment.sequenceLength { payload, fin } := by
  unfold Segment.sequenceLength
  rcases some with some | rfl
  · exact Nat.add_pos_left (Nat.add_pos_left (List.length_pos_iff.mpr some) _) _
  · exact Nat.succ_pos _

/-- `offer` is the acknowledgment number and the window that came in, if they did. -/
inductive Step (offer : Option (SeqNum × UInt16)) (s : Sender) : Sender → Prop
  | opens (unopened : s.nextSeqno = 0) : Step offer s (s.afterSend { syn := true })
  | cuts {stream : ByteStream} {payload : Bytes} {fin : Bool} (opened : 0 < s.nextSeqno)
      (going : s.finSent = false) (room : s.nextSeqno - s.highestAck < s.probingWindow)
      (hcut : cut s.stream s.budget = .ok (stream, payload, fin))
      (some : payload ≠ [] ∨ fin = true) :
      Step offer s (afterSend { s with stream, finSent := fin } { payload, fin })
  | hears {ackno : SeqNum} {window : UInt16} {ack : Nat} (offered : offer = some (ackno, window))
      (hunwrap : ackno.unwrap s.isn s.highestAck = .ok ack) (current : s.highestAck ≤ ack) :
      Step offer s { s with window }
  | acks {ackno : SeqNum} {ack : Nat} {after : Sender} (offered : offer = some (ackno, s.window))
      (hunwrap : ackno.unwrap s.isn s.highestAck = .ok ack) (ahead : s.highestAck < ack)
      (sent : ack ≤ s.nextSeqno) (hadvance : s.advance ack = .ok after) : Step offer s after
  | ages (timer : Timer) : Step offer s { s with timer }
  | resends {oldest : Outstanding} {rest : List Outstanding} (attempt timeout : Nat)
      (timer : Timer) (inFlight : s.outstanding = oldest :: rest) :
      Step offer s { s with
        outstanding := { oldest with resends := attempt } :: rest
        queued := s.queued ++ [oldest.segment]
        timeout, timer }
  | replies : Step offer s s.sendEmpty

def Steps (offer : Option (SeqNum × UInt16)) : Sender → Sender → Prop := Relation.ReflTransGen (Step offer)

theorem Step.steps {offer : Option (SeqNum × UInt16)} {s after : Sender} (step : Step offer s after) :
    Steps offer s after := Relation.ReflTransGen.single step

theorem Steps.refl (offer : Option (SeqNum × UInt16)) (s : Sender) : Steps offer s s :=
  Relation.ReflTransGen.refl

theorem Steps.trans {offer : Option (SeqNum × UInt16)} {s middle after : Sender}
    (first : Steps offer s middle) (second : Steps offer middle after) : Steps offer s after :=
  Relation.ReflTransGen.trans first second

theorem Step.alone {offer : Option (SeqNum × UInt16)} {s after : Sender} (step : Step none s after) :
    Step offer s after := by
  cases step with
  | opens unopened => exact .opens unopened
  | cuts opened going room hcut some => exact .cuts opened going room hcut some
  | hears offered => cases offered
  | acks offered => cases offered
  | ages timer => exact .ages timer
  | resends attempt timeout timer inFlight => exact .resends attempt timeout timer inFlight
  | replies => exact .replies

theorem send_eq_ok {s after : Sender} {segment : Segment}
    (h : (s.send segment).result = .ok after) : after = s.afterSend segment := by
  unfold send at h
  simp only [Run.result_bind, Run.result_lift, Run.result_say, Run.result_pure, bind_eq_ok,
    Count.add_eq_ok_iff, Except.ok.injEq] at h
  obtain ⟨next, ⟨rfl, -⟩, inFlight, ⟨rfl, -⟩, _, -, rfl⟩ := h
  rfl

theorem advance_eq_ok {s after : Sender} {ack : Nat} (h : s.advance ack = .ok after) :
    ∃ inFlight outstanding timeout timer,
      release ack s.inFlight s.outstanding = .ok (inFlight, outstanding) ∧
        after = { s with highestAck := ack, inFlight, outstanding, timeout, timer } := by
  unfold advance at h
  simp only [bind_eq_ok] at h
  obtain ⟨⟨inFlight, outstanding⟩, hrelease, h⟩ := h
  simp only at h
  split at h
  · exact ⟨inFlight, outstanding, _, _, hrelease, (pure_eq_ok.mp h).symm⟩
  · exact ⟨inFlight, outstanding, _, _, hrelease, (pure_eq_ok.mp h).symm⟩

theorem mem_of_release {ack inFlight left : Nat} {outstanding rest : List Outstanding}
    (h : release ack inFlight outstanding = .ok (left, rest)) {item : Outstanding}
    (member : item ∈ rest) : item ∈ outstanding := by
  induction outstanding generalizing inFlight with
  | nil =>
    cases h
    exact member
  | cons oldest others ih =>
    unfold release at h
    split at h
    · simp only [bind_eq_ok] at h
      obtain ⟨count, -, h⟩ := h
      exact List.mem_cons_of_mem _ (ih h)
    · cases h
      exact member

/-- A segment that is sent for the first time: the SYN, or the next piece of the stream. -/
inductive Launch (s : Sender) : Segment → Sender → Prop
  | opens (unopened : s.nextSeqno = 0) :
      Launch s { syn := true, seqno := s.nextWire } (s.afterSend { syn := true })
  | cuts {stream : ByteStream} {payload : Bytes} {fin : Bool} (opened : 0 < s.nextSeqno)
      (going : s.finSent = false) (room : s.nextSeqno - s.highestAck < s.probingWindow)
      (hcut : cut s.stream s.budget = .ok (stream, payload, fin))
      (some : payload ≠ [] ∨ fin = true) :
      Launch s { payload, fin, seqno := s.nextWire }
        (afterSend { s with stream, finSent := fin } { payload, fin })

inductive Launches : Sender → List Segment → Sender → Prop
  | nothing (s : Sender) : Launches s [] s
  | next {s middle after : Sender} {segment : Segment} {others : List Segment}
      (launch : Launch s segment middle) (rest : Launches middle others after) :
      Launches s (segment :: others) after

theorem Launch.step {offer : Option (SeqNum × UInt16)} {s after : Sender} {segment : Segment}
    (launch : Launch s segment after) : Step offer s after := by
  cases launch with
  | opens unopened => exact .opens unopened
  | cuts opened going room hcut some => exact .cuts opened going room hcut some

theorem Launch.queued_eq {s after : Sender} {segment : Segment} (launch : Launch s segment after) :
    after.queued = s.queued ++ [segment] := by
  cases launch with
  | opens | cuts => rfl

theorem Launches.steps {offer : Option (SeqNum × UInt16)} {s after : Sender} {launched : List Segment}
    (launches : Launches s launched after) : Steps offer s after := by
  induction launches with
  | nothing => exact Steps.refl offer _
  | next launch _ ih => exact launch.step.steps.trans ih

/-- What an acknowledgment that is not refused and not stale makes of a sender, before it sends what now
fits. -/
inductive Heeds (s : Sender) (ackno : SeqNum) (window : UInt16) : Sender → Prop
  | again (hunwrap : ackno.unwrap s.isn s.highestAck = .ok s.highestAck) :
      Heeds s ackno window { s with window }
  | moves {ack : Nat} {after : Sender} (hunwrap : ackno.unwrap s.isn s.highestAck = .ok ack)
      (ahead : s.highestAck < ack) (sent : ack ≤ s.nextSeqno)
      (hadvance : advance { s with window } ack = .ok after) : Heeds s ackno window after

theorem Heeds.steps {s after : Sender} {ackno : SeqNum} {window : UInt16}
    (heeds : Heeds s ackno window after) : Steps (some (ackno, window)) s after := by
  cases heeds with
  | again hunwrap => exact (Step.hears rfl hunwrap (Nat.le_refl _)).steps
  | moves hunwrap ahead sent hadvance =>
    have heard : Step (some (ackno, window)) s { s with window } :=
      .hears rfl hunwrap (Nat.le_of_lt ahead)
    have acked : Step (some (ackno, window)) { s with window } after :=
      .acks rfl hunwrap ahead sent hadvance
    exact heard.steps.trans acked.steps

def sendNext (s : Sender) (window : Nat) : Run (Option Sender) := do
  if s.finSent then return none
  let span ← Count.sub s.nextSeqno s.highestAck
  if window ≤ span then return none
  let room ← Count.sub window span
  let (stream, payload, fin) ← cut s.stream (min room maxPayload)
  if payload.isEmpty && !fin then return none
  let sent ← send { s with stream, finSent := fin } { payload, fin }
  return some sent

theorem sendWithin_succ (window tries : Nat) (s : Sender) : sendWithin window (tries + 1) s = (do
    match ← s.sendNext window with
    | none => return s
    | some sent => sendWithin window tries sent) := by
  rw [sendWithin, sendNext]
  split
  · rfl
  simp only [bind_assoc]
  refine bind_congr fun span => ?_
  split
  · rfl
  simp only [bind_assoc]
  refine bind_congr fun room => bind_congr fun ⟨stream, payload, fin⟩ => ?_
  simp only
  split
  · rfl
  · simp only [bind_assoc, pure_bind]

inductive Round (s : Sender) : Option Sender → Prop
  | ended (sent : s.finSent = true) : Round s none
  | full (full : s.probingWindow ≤ s.nextSeqno - s.highestAck) : Round s none
  | waits {stream : ByteStream} (hcut : cut s.stream s.budget = .ok (stream, [], false)) : Round s none
  | launches {segment : Segment} {sent : Sender} (launch : Launch s segment sent) : Round s (some sent)

theorem sendNext_round {s : Sender} {next : Option Sender} (opened : 0 < s.nextSeqno)
    (h : (s.sendNext s.probingWindow).result = .ok next) : Round s next := by
  unfold sendNext at h
  by_cases ended : s.finSent = true
  · rw [if_pos ended] at h
    cases h
    exact .ended ended
  rw [if_neg ended] at h
  simp only [Run.result_bind, Run.result_lift, bind_eq_ok, Count.sub_eq_ok_iff] at h
  obtain ⟨span, ⟨rfl, -⟩, h⟩ := h
  by_cases full : s.probingWindow ≤ s.nextSeqno - s.highestAck
  · rw [if_pos full] at h
    cases h
    exact .full full
  rw [if_neg full] at h
  simp only [Run.result_bind, Run.result_lift, bind_eq_ok, Count.sub_eq_ok_iff] at h
  obtain ⟨room, ⟨rfl, -⟩, ⟨stream, payload, fin⟩, hcut, h⟩ := h
  simp only at h
  by_cases none : (payload.isEmpty && !fin) = true
  · rw [if_pos none] at h
    cases h
    simp only [Bool.and_eq_true, List.isEmpty_iff, Bool.not_eq_true'] at none
    obtain ⟨rfl, rfl⟩ := none
    exact .waits hcut
  rw [if_neg none] at h
  simp only [Run.result_bind, Run.result_pure, bind_eq_ok, Except.ok.injEq] at h
  obtain ⟨sent, hsend, rfl⟩ := h
  obtain rfl := send_eq_ok hsend
  exact .launches (.cuts opened (Bool.eq_false_iff.mpr ended) (Nat.lt_of_not_le full) hcut
    (something_of_ne_nothing none))

theorem Launch.opened {s after : Sender} {segment : Segment} (launch : Launch s segment after) :
    0 < after.nextSeqno := by
  cases launch with
  | opens => exact Nat.add_pos_right _ (by decide)
  | cuts opened => exact Nat.add_pos_left opened _

theorem Launch.window_eq {s after : Sender} {segment : Segment} (launch : Launch s segment after) :
    after.window = s.window := by
  cases launch with
  | opens | cuts => rfl

theorem Launch.probingWindow_eq {s after : Sender} {segment : Segment} (launch : Launch s segment after) :
    after.probingWindow = s.probingWindow := by
  unfold probingWindow
  rw [launch.window_eq]

theorem sendWithin_launches {tries : Nat} {s after : Sender} (opened : 0 < s.nextSeqno)
    (h : (sendWithin s.probingWindow tries s).result = .ok after) :
    ∃ launched, Launches s launched after := by
  induction tries generalizing s with
  | zero =>
    cases h
    exact ⟨[], .nothing _⟩
  | succ tries ih =>
    rw [sendWithin_succ, Run.bind_eq_ok_iff] at h
    obtain ⟨next, hnext, h⟩ := h
    cases sendNext_round opened hnext with
    | ended | full | waits =>
      cases h
      exact ⟨[], .nothing _⟩
    | launches launch =>
      -- a segment that was sent leaves the window as it is
      obtain ⟨others, rest⟩ := ih launch.opened (launch.probingWindow_eq ▸ h)
      exact ⟨_, .next launch rest⟩

theorem fillWindow_launches {s after : Sender} (h : s.fillWindow.result = .ok after) :
    ∃ launched, Launches s launched after := by
  unfold fillWindow at h
  by_cases unopened : s.nextSeqno = 0
  · rw [if_pos unopened] at h
    rw [send_eq_ok h]
    exact ⟨_, .next (.opens unopened) (.nothing _)⟩
  · rw [if_neg unopened] at h
    exact sendWithin_launches (Nat.pos_of_ne_zero unopened) h

theorem fillWindow_steps {offer : Option (SeqNum × UInt16)} {s after : Sender}
    (h : s.fillWindow.result = .ok after) : Steps offer s after := by
  obtain ⟨_, launches⟩ := fillWindow_launches h
  exact launches.steps

theorem ackReceived_launches {s after : Sender} {ackno : SeqNum} {window : UInt16} {legal : Bool}
    (h : (s.ackReceived ackno window).result = .ok (after, legal)) :
    after = s ∨ ∃ heard launched, Heeds s ackno window heard ∧ Launches heard launched after := by
  unfold ackReceived at h
  simp only [Run.result_bind, Run.result_lift, bind_eq_ok] at h
  obtain ⟨ack, hunwrap, h⟩ := h
  by_cases unsent : s.nextSeqno < ack
  · rw [if_pos unsent] at h
    cases h
    exact Or.inl rfl
  rw [if_neg unsent] at h
  by_cases stale : ack < s.highestAck
  · rw [if_pos stale] at h
    cases h
    exact Or.inl rfl
  rw [if_neg stale] at h
  by_cases ahead : s.highestAck < ack
  · rw [if_pos ahead] at h
    simp only [Run.result_bind, Run.result_lift, Run.result_pure, bind_eq_ok] at h
    obtain ⟨moved, hadvance, filled, hfill, h⟩ := h
    cases h
    obtain ⟨launched, launches⟩ := fillWindow_launches hfill
    exact Or.inr ⟨moved, launched, .moves hunwrap ahead (Nat.le_of_not_lt unsent) hadvance, launches⟩
  · rw [if_neg ahead] at h
    simp only [Run.result_bind, Run.result_pure, bind_eq_ok, pure_bind] at h
    obtain ⟨filled, hfill, h⟩ := h
    cases h
    obtain rfl : ack = s.highestAck := Nat.le_antisymm (Nat.le_of_not_lt ahead) (Nat.le_of_not_lt stale)
    obtain ⟨launched, launches⟩ := fillWindow_launches hfill
    exact Or.inr ⟨_, launched, .again hunwrap, launches⟩

theorem ackReceived_steps {s after : Sender} {ackno : SeqNum} {window : UInt16} {legal : Bool}
    (h : (s.ackReceived ackno window).result = .ok (after, legal)) :
    Steps (some (ackno, window)) s after := by
  rcases ackReceived_launches h with rfl | ⟨heard, launched, heeds, launches⟩
  · exact Steps.refl _ after
  · exact heeds.steps.trans launches.steps

theorem tick_eq_ok {s after : Sender} {elapsed : Nat} (h : (s.tick elapsed).result = .ok after) :
    (∃ timer, after = { s with timer }) ∨ ∃ oldest rest attempt timeout timer,
      s.outstanding = oldest :: rest ∧ after = { s with
        outstanding := { oldest with resends := attempt } :: rest
        queued := s.queued ++ [oldest.segment]
        timeout, timer } := by
  unfold tick at h
  simp only at h
  split at h
  · rename_i oldest rest expired inFlight
    simp only [Run.result_bind, Run.result_lift, Run.result_say, Run.result_pure, bind_eq_ok,
      Except.ok.injEq] at h
    obtain ⟨attempt, -, _, -, rfl⟩ := h
    exact Or.inr ⟨oldest, rest, attempt, _, _, inFlight, rfl⟩
  · cases h
    exact Or.inl ⟨_, rfl⟩

theorem tick_steps {offer : Option (SeqNum × UInt16)} {s after : Sender} {elapsed : Nat}
    (h : (s.tick elapsed).result = .ok after) : Steps offer s after := by
  rcases tick_eq_ok h with ⟨timer, rfl⟩ | ⟨oldest, rest, attempt, timeout, timer, inFlight, rfl⟩
  · exact (Step.ages timer).steps
  · exact (Step.resends attempt timeout timer inFlight).steps

inductive Answers (s : Sender) : Call → Sender → Reply → Prop
  | fill {after : Sender} (h : s.fillWindow.result = .ok after) : Answers s .fill after .done
  | ack {ackno : SeqNum} {window : UInt16} {after : Sender} {legal : Bool}
      (h : (s.ackReceived ackno window).result = .ok (after, legal)) :
      Answers s (.ack ackno window) after (.verdict legal)
  | legal (ackno : SeqNum) (legal : Bool) : Answers s (.legal ackno) s (.verdict legal)
  | tick {elapsed : Nat} {after : Sender} (h : (s.tick elapsed).result = .ok after) :
      Answers s (.tick elapsed) after .done
  | sendEmpty : Answers s .sendEmpty s.sendEmpty .done
  | stream {call : ByteStream.Call} {stream : ByteStream} {reply : Reply}
      (h : s.stream.perform call = .ok (stream, reply)) : Answers s (.stream call) { s with stream } reply

theorem perform_answers {s after : Sender} {call : Call} {reply : Reply}
    (h : (s.perform call).result = .ok (after, reply)) : Answers s call after reply := by
  unfold perform at h
  cases call with
  | fill =>
    simp only [Run.result_bind, Run.result_pure, bind_eq_ok] at h
    obtain ⟨filled, hfill, h⟩ := h
    cases h
    exact .fill hfill
  | ack ackno window =>
    simp only [Run.result_bind, Run.result_pure, bind_eq_ok] at h
    obtain ⟨⟨heard, legal⟩, hack, h⟩ := h
    cases h
    exact .ack hack
  | legal ackno =>
    simp only [Run.result_bind, Run.result_lift, Run.result_pure, bind_eq_ok] at h
    obtain ⟨legal, -, h⟩ := h
    cases h
    exact .legal ackno legal
  | tick elapsed =>
    simp only [Run.result_bind, Run.result_pure, bind_eq_ok] at h
    obtain ⟨ticked, htick, h⟩ := h
    cases h
    exact .tick htick
  | sendEmpty =>
    cases h
    exact .sendEmpty
  | stream call =>
    simp only [Run.result_bind, Run.result_lift, Run.result_pure, bind_eq_ok] at h
    obtain ⟨⟨stream, answer⟩, hstream, h⟩ := h
    cases h
    exact .stream hstream

end TcpStack.Sender

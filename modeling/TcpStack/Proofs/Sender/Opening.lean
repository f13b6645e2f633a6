import TcpStack.Proofs.SeqNum.Nearest
import TcpStack.Proofs.Sender.Emission

/-! What a sender sends before its SYN is acknowledged. Nothing but the first window keeps the rest back: it
has room for the SYN alone. An acknowledgment of the number of the SYN itself covers nothing, and still brings
a window with it. -/

namespace TcpStack.Sender

open Outcome

variable {events : List Event} {s after : Sender} {call : Call} {reply : Reply} {segment : Segment}
  {segments : List Segment}

theorem Traced.launched_before_resent (traced : Traced events s) (sent : segment ∈ Sender.sent events)
    (some : 0 < segment.sequenceLength) : segment ∈ launched events := by
  induction traced with
  | made => cases sent
  | @called events _ _ call _ before feeds performs ih =>
    obtain ⟨segments, performs⟩ := perform_performs feeds performs
    rw [performs.event_eq] at sent ⊢
    rw [sent_append, sent_singleton, List.mem_append] at sent
    rw [launched_append, launched_singleton]
    rcases sent with old | new
    · exact List.mem_append_left _ (ih old)
    cases performs with
    | fills | heeds => exact List.mem_append_right _ new
    | ignores | judges | ages | writes | finishes => cases new
    | @resends oldest rest _ _ _ _ inFlight =>
      obtain ⟨acknowledged, split⟩ := before.emits.inFlight
      rw [inFlight] at split
      rw [List.mem_singleton.mp new, split]
      simp
    | replies =>
      rw [List.mem_singleton.mp new] at some
      exact absurd some (Nat.lt_irrefl 0)
  | drained _ _ ih => exact ih sent

theorem Launches.highestAck_eq (launches : Launches s segments after) :
    after.highestAck = s.highestAck := by
  induction launches with
  | nothing => rfl
  | next launch _ ih => exact ih.trans launch.sends.ack_eq

theorem Launches.nextSeqno_eq (launches : Launches s segments after) :
    after.nextSeqno = s.nextSeqno + numbers segments := by
  induction launches with
  | nothing => rfl
  | next launch _ ih =>
    rw [ih, launch.sends.next_eq, Nat.add_assoc]
    rfl

/-- The SYN was sent at most, and no window reaches behind it. -/
structure Held (s : Sender) : Prop where
  nextSeqno_le : s.nextSeqno ≤ 1
  window_le : s.window ≤ 1

theorem Held.launches (held : Held s) (unanswered : s.highestAck = 0)
    (launches : Launches s segments after) : Held after := by
  induction launches with
  | nothing => exact held
  | @next s _ _ _ _ launch _ ih =>
    refine ih ?_ (launch.sends.ack_eq.trans unanswered)
    cases launch with
    | opens unopened => exact ⟨Nat.le_of_eq (congrArg (· + 1) unopened), held.window_le⟩
    | cuts opened _ room =>
      have one : s.probingWindow = 1 := Nat.max_eq_right (UInt16.le_iff_toNat_le.mp held.window_le)
      rw [one, unanswered] at room
      omega

theorem Heeds.unanswered {ackno : SeqNum} {window : UInt16} (heeds : Heeds s ackno window after)
    (unanswered : after.highestAck = 0) :
    s.highestAck = 0 ∧ ackno = s.isn ∧ after = { s with window } := by
  cases heeds with
  | again hunwrap =>
    have unanswered : s.highestAck = 0 := unanswered
    rw [unanswered, SeqNum.unwrap_zero, Except.ok.injEq] at hunwrap
    exact ⟨unanswered, (SeqNum.distance_eq_zero_iff ackno s.isn).mp hunwrap, rfl⟩
  | @moves ack _ _ ahead _ hadvance =>
    obtain ⟨_, _, _, _, _, rfl⟩ := advance_eq_ok hadvance
    have unanswered : ack = 0 := unanswered
    omega

theorem Performs.held (performs : Performs s call after reply segments) (held : s.highestAck = 0 → Held s)
    (bare : ∀ window, call = .ack s.isn window → window ≤ 1) (unanswered : after.highestAck = 0) :
    Held after := by
  cases performs with
  | fills launches =>
    have before := launches.highestAck_eq.symm.trans unanswered
    exact (held before).launches before launches
  | @heeds _ window _ _ _ _ heeds launches =>
    have before := launches.highestAck_eq.symm.trans unanswered
    obtain ⟨before', rfl, rfl⟩ := heeds.unanswered before
    have heard : Held { s with window } := ⟨(held before').nextSeqno_le, bare window rfl⟩
    exact heard.launches before launches
  | ignores | judges => exact held unanswered
  | ages | resends | replies | writes | finishes =>
    exact ⟨(held unanswered).nextSeqno_le, (held unanswered).window_le⟩

theorem Traced.held (traced : Traced events s)
    (bare : ∀ e ∈ events, ∀ window, e.call = .ack s.isn window → window ≤ 1)
    (unanswered : s.highestAck = 0) : Held s := by
  induction traced with
  | made makes =>
    obtain ⟨-, rfl⟩ := create_eq_ok makes
    exact ⟨Nat.zero_le _, UInt16.le_refl 1⟩
  | called before feeds performs ih =>
    obtain ⟨serves, ledger⟩ := before.serves_ledger
    obtain ⟨segments, performs⟩ := perform_performs feeds performs
    have isn_eq := (performs.serves_ledger serves ledger).1.isn_eq
    rw [isn_eq, List.forall_mem_append, List.forall_mem_singleton] at bare
    exact performs.held (ih bare.1) bare.2 unanswered
  | drained _ _ ih => exact ⟨(ih bare unanswered).nextSeqno_le, (ih bare unanswered).window_le⟩

theorem eq_nil_of_cut_nothing {stream left : ByteStream} {budget : Nat} {payload : Bytes} {fin : Bool}
    (sound : stream.Sound) (hcut : cut stream budget = .ok (left, payload, fin)) (none : payload = [])
    (going : fin = false) : stream.toList = [] ∧ stream.ended = false := by
  unfold cut at hcut
  simp only [bind_eq_ok, pure_eq_ok, Count.sub_eq_ok_iff] at hcut
  obtain ⟨first, ⟨rfl, positive⟩, ⟨middle, head⟩, hhead, ⟨last, tail⟩, htail, hcut⟩ := hcut
  obtain ⟨rfl, before⟩ := ByteStream.read_drops sound hhead
  obtain ⟨rfl, later⟩ := ByteStream.read_drops before.sound htail
  cases hcut
  have whole := before.trans later
  rw [Nat.sub_add_cancel positive] at whole
  rw [before.toList_eq, ← List.take_add, Nat.sub_add_cancel positive] at none
  have waiting : stream.toList = [] := by
    rcases List.take_eq_nil_iff.mp none with zero | waiting
    · omega
    · exact waiting
  have nothing : last.size = 0 := by
    rw [← ByteStream.length_toList, whole.toList_eq, waiting, List.drop_nil, List.length_nil]
  have untaken : middle.toList = [] := by rw [before.toList_eq, waiting, List.drop_nil]
  rw [untaken, List.take_nil] at going
  refine ⟨waiting, ?_⟩
  rw [← whole.ended_eq]
  simpa [ByteStream.atEnd, ByteStream.isEmpty, nothing] using going

theorem lt_of_fillWindow (sound : s.stream.Sound) (opened : 0 < s.nextSeqno) (going : s.finSent = false)
    (room : s.nextSeqno - s.highestAck < s.probingWindow)
    (some : s.stream.toList ≠ [] ∨ s.stream.ended = true) (h : s.fillWindow.result = .ok after) :
    s.nextSeqno < after.nextSeqno := by
  unfold fillWindow at h
  rw [if_neg (Nat.ne_of_gt opened)] at h
  obtain ⟨tries, tries_eq⟩ : ∃ tries, s.probingWindow = tries + 1 := ⟨s.probingWindow - 1, by omega⟩
  have h : (sendWithin s.probingWindow s.probingWindow s).result = .ok after := h
  rw [tries_eq, sendWithin_succ, ← tries_eq, Run.bind_eq_ok_iff] at h
  obtain ⟨next, hnext, h⟩ := h
  cases sendNext_round opened hnext with
  | ended sent => exact absurd sent (Bool.eq_false_iff.mp going)
  | full full => exact absurd room (Nat.not_lt_of_le full)
  | waits hcut =>
    obtain ⟨waiting, open'⟩ := eq_nil_of_cut_nothing sound hcut rfl rfl
    simp [waiting, open'] at some
  | launches launch =>
    obtain ⟨_, launches⟩ := sendWithin_launches launch.opened (launch.probingWindow_eq ▸ h)
    have next_eq := launch.sends.next_eq
    have taken := launch.sends.some
    have last_eq := launches.nextSeqno_eq
    omega

theorem Launch.something (launch : Launch s segment after) (sound : s.stream.Sound)
    (opened : 0 < s.nextSeqno) : s.stream.toList ≠ [] ∨ s.stream.ended = true := by
  cases launch with
  | opens unopened => omega
  | cuts _ _ _ hcut some =>
    obtain ⟨payload_eq, -, ends⟩ := cut_spec sound hcut
    rcases some with some | fin
    · refine Or.inl fun none => some ?_
      rw [payload_eq, none, List.take_nil]
    · exact Or.inr (ends fin).1

theorem fills_of_ack_bare {window : UInt16} (unanswered : s.highestAck = 0)
    (h : (s.perform (.ack s.isn window)).result = .ok (after, reply)) :
    ({ s with window } : Sender).fillWindow.result = .ok after := by
  have here : s.isn.unwrap s.isn s.highestAck = .ok 0 := by
    rw [unanswered, SeqNum.unwrap_zero, (SeqNum.distance_eq_zero_iff s.isn s.isn).mpr rfl]
  unfold perform ackReceived at h
  simp only [Run.result_bind, Run.result_lift, Run.result_pure, bind_eq_ok] at h
  obtain ⟨_, ⟨ack, hack, h⟩, reply_eq⟩ := h
  obtain rfl : 0 = ack := Except.ok.inj (here.symm.trans hack)
  have current : ¬0 < s.highestAck := Nat.not_lt_of_le (Nat.le_of_eq unanswered)
  rw [if_neg (Nat.not_lt_zero _), if_neg (Nat.not_lt_zero _), if_neg current] at h
  simp only [Run.result_bind, Run.result_pure, bind_eq_ok, Except.ok.injEq] at h
  obtain ⟨_, rfl, filled, hfill, rfl⟩ := h
  cases reply_eq
  exact hfill

/-- Before its SYN is acknowledged a sender sends the SYN alone, unless it hears of the number of the SYN
itself with a window of more than one: then it sends on, if it has something to send. -/
theorem lone_syn_until_acknowledged {events : List Event} {s : Sender} (traced : Traced events s)
    (unanswered : s.highestAck = 0) :
    ((∀ e ∈ events, ∀ window, e.call = .ack s.isn window → window ≤ 1) →
      s.nextSeqno ≤ 1 ∧ ∀ segment ∈ sent events, 0 < segment.sequenceLength →
        segment = { syn := true, seqno := s.isn }) ∧
    ∀ ackno window after reply, s.nextSeqno = 1 →
      (s.perform (.ack ackno window)).result = .ok (after, reply) →
      (after.highestAck = 0 ∧ 1 < after.nextSeqno ↔
        ackno = s.isn ∧ 1 < window ∧ (s.stream.toList ≠ [] ∨ s.stream.ended = true)) := by
  obtain ⟨serves, -⟩ := traced.serves_ledger
  refine ⟨fun bare => ?_, fun ackno window after reply next_eq h => ?_⟩
  · have held := traced.held bare unanswered
    have emits := traced.emits
    refine ⟨held.nextSeqno_le, fun segment member some => ?_⟩
    have first := traced.launched_before_resent member some
    cases hlaunched : launched events with
    | nil =>
      rw [hlaunched] at first
      cases first
    | cons syn rest =>
      obtain ⟨rfl, -⟩ := emits.opening _ _ hlaunched
      have placed := emits.placed
      have next_eq := emits.next_eq
      have nextSeqno_le := held.nextSeqno_le
      rw [hlaunched] at first placed next_eq
      cases rest with
      | nil => rw [List.mem_singleton.mp first, SeqNum.wrap_zero]
      | cons next others =>
        have taken : 0 < next.sequenceLength := placed.2.2.2.1
        have next_eq : s.nextSeqno = 1 + (next.sequenceLength + numbers others) := next_eq
        omega
  · have opened : 0 < s.nextSeqno := by omega
    have going : s.finSent = false := by
      cases fin : s.finSent with
      | false => rfl
      | true => have two := (serves.finished fin).1; omega
    constructor
    · rintro ⟨unanswered', sent⟩
      obtain ⟨segments, performs⟩ := perform_performs rfl h
      cases performs with
      | ignores => omega
      | heeds _ heeds launches =>
        obtain ⟨-, rfl, rfl⟩ := heeds.unanswered (launches.highestAck_eq.symm.trans unanswered')
        refine ⟨rfl, ?_, ?_⟩
        · by_contra narrow
          have heard : Held { s with window } := ⟨Nat.le_of_eq next_eq, UInt16.not_lt.mp narrow⟩
          have stays := (heard.launches unanswered launches).nextSeqno_le
          omega
        · cases launches with
          | nothing => simp only at sent; omega
          | next launch _ => exact launch.something serves.sound opened
    · rintro ⟨rfl, wide, some⟩
      have hfill := fills_of_ack_bare unanswered h
      have room : s.nextSeqno - s.highestAck < probingWindow { s with window } := by
        rw [next_eq, unanswered]
        exact Nat.lt_of_lt_of_le (UInt16.lt_iff_toNat_lt.mp wide) (Nat.le_max_left _ _)
      have more := lt_of_fillWindow (s := { s with window }) serves.sound opened going room some hfill
      obtain ⟨_, launches⟩ := fillWindow_launches hfill
      exact ⟨launches.highestAck_eq.trans unanswered, next_eq ▸ more⟩

theorem lone_syn_sent_twice : ∃ events s, Traced events s ∧ s.highestAck = 0 ∧ s.nextSeqno = 1 ∧
    (sent events).length = 2 ∧
    (∀ segment ∈ sent events, 0 < segment.sequenceLength → segment = { syn := true, seqno := s.isn }) ∧
    ∃ after, (s.perform (.ack ⟨1000⟩ 10)).result = .ok (after, .verdict true) ∧
      (after.highestAck = 0 ∧ 1 < after.nextSeqno ↔
        ⟨1000⟩ = s.isn ∧ 1 < (10 : UInt16) ∧ (s.stream.toList ≠ [] ∨ s.stream.ended = true)) := by
  have seen : (do
      let log ← logOfCalls [.stream (.write [97, 98, 99]), .fill, .ack ⟨1000⟩ 1, .tick 100]
      let again ← (log.2.perform (.ack ⟨1000⟩ 10)).result
      return (log.1.map Event.call, (sent log.1).length, log.2.isn, log.2.highestAck, log.2.nextSeqno,
        again.2) : Except Fault (List Call × Nat × SeqNum × Nat × Nat × Reply)) =
      .ok ([.stream (.write [97, 98, 99]), .fill, .ack ⟨1000⟩ 1, .tick 100], 2, ⟨1000⟩, 0, 1,
        .verdict true) := by decide +kernel
  simp only [bind_eq_ok, pure_eq_ok, Prod.mk.injEq] at seen
  obtain ⟨⟨events, s⟩, logged, ⟨after, _⟩, h, calls, count, isn_eq, unanswered, next_eq, rfl⟩ := seen
  have traced : Traced events s := traced_logOfCalls (by decide) logged
  obtain ⟨lone, sends⟩ := lone_syn_until_acknowledged traced unanswered
  have narrow : ∀ e ∈ events, ∀ window, e.call = .ack s.isn window → window ≤ 1 := by
    intro e member window same
    have called := List.mem_map_of_mem (f := Event.call) member
    rw [calls, same] at called
    simp only [List.mem_cons, List.not_mem_nil, reduceCtorEq, false_or, or_false, Call.ack.injEq] at called
    exact UInt16.le_of_eq called.2
  exact ⟨events, s, traced, unanswered, next_eq, count, (lone narrow).2, after, h,
    sends ⟨1000⟩ 10 after (.verdict true) next_eq h⟩

/-- With a window of ten the number of the SYN itself lets the data go. -/
theorem data_sent_before_syn_acknowledged : ∃ events s, Traced events s ∧ s.highestAck = 0 ∧
    s.nextSeqno = 4 ∧ ∃ segment ∈ sent events, 0 < segment.sequenceLength ∧ segment.syn = false := by
  have seen : (fun log : List Event × Sender => (log.2.highestAck, log.2.nextSeqno, sent log.1)) <$>
      logOfCalls [.stream (.write [97, 98, 99]), .fill, .ack ⟨1000⟩ 10] =
      .ok (0, 4, [{ syn := true, seqno := ⟨1000⟩ },
        { seqno := ⟨1001⟩, payload := [97, 98, 99] }]) := by decide +kernel
  obtain ⟨⟨events, s⟩, logged, look⟩ := map_eq_ok.mp seen
  simp only [Prod.mk.injEq] at look
  obtain ⟨unanswered, next_eq, sent_eq⟩ := look
  have traced : Traced events s := traced_logOfCalls (by decide) logged
  refine ⟨events, s, traced, unanswered, next_eq, { seqno := ⟨1001⟩, payload := [97, 98, 99] }, ?_,
    by decide, rfl⟩
  rw [sent_eq]
  exact List.mem_cons_of_mem _ (List.mem_singleton_self _)

end TcpStack.Sender

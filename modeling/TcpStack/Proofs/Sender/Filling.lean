import TcpStack.Proofs.Sender.Opening
import TcpStack.Proofs.Sender.Reachable

/-! Filling the window. Each round sends a segment that ends inside the window, and takes at least one number of
it. The rounds end when the window is used up, when nothing waits, or behind the FIN; then there is nothing more
to send, so the bound on how many of them are made never cuts them short. -/

namespace TcpStack.Sender

open Outcome

/-- There is nothing to send, or no room for it. -/
def Exhausted (s : Sender) : Prop :=
  s.finSent = true ∨ s.probingWindow ≤ s.nextSeqno - s.highestAck ∨
    s.stream.toList = [] ∧ s.stream.ended = false

variable {timeout : Nat} {s after : Sender} {segment : Segment} {segments earlier later : List Segment}

section rounds

theorem Round.exhausted (round : Round s none) (sound : s.stream.Sound) : Exhausted s := by
  cases round with
  | ended sent => exact Or.inl sent
  | full full => exact Or.inr (Or.inl full)
  | waits hcut => exact Or.inr (Or.inr (eq_nil_of_cut_nothing sound hcut rfl rfl))

theorem cut_nothing {stream : ByteStream} {budget : Nat} (sound : stream.Sound)
    (short : stream.written < Count.bound) (positive : 0 < budget) (waiting : stream.toList = [])
    (open' : stream.ended = false) : ∃ left, cut stream budget = .ok (left, [], false) := by
  obtain ⟨left, payload, fin, hcut⟩ := cut_returns sound short positive
  obtain ⟨payload_eq, -, ends⟩ := cut_spec sound hcut
  have going : fin = false := by
    cases fin with
    | false => rfl
    | true => exact absurd (ends rfl).1 (Bool.eq_false_iff.mp open')
  rw [waiting, List.take_nil] at payload_eq
  exact ⟨left, by rw [hcut, payload_eq, going]⟩

theorem Exhausted.sendNext_eq (exhausted : Exhausted s) (books : Books timeout s) :
    s.sendNext s.probingWindow = pure none := by
  unfold sendNext
  by_cases ended : s.finSent = true
  · rw [if_pos ended]
  have span : Count.sub s.nextSeqno s.highestAck = .ok (s.nextSeqno - s.highestAck) :=
    Count.sub_eq_ok_iff.mpr ⟨rfl, books.highestAck_le⟩
  rw [if_neg ended, span]
  change (if s.probingWindow ≤ s.nextSeqno - s.highestAck then pure none else _) = _
  by_cases full : s.probingWindow ≤ s.nextSeqno - s.highestAck
  · rw [if_pos full]
  obtain ⟨waiting, open'⟩ := (exhausted.resolve_left ended).resolve_left full
  have room : Count.sub s.probingWindow (s.nextSeqno - s.highestAck) =
      .ok (s.probingWindow - (s.nextSeqno - s.highestAck)) :=
    Count.sub_eq_ok_iff.mpr ⟨rfl, by omega⟩
  have positive : 0 < s.budget := by
    unfold budget maxPayload
    omega
  obtain ⟨left, hcut⟩ := cut_nothing books.sound books.short positive waiting open'
  rw [if_neg full, room]
  change (liftM (cut s.stream s.budget) >>= _) = _
  rw [hcut]
  rfl

theorem Exhausted.sendWithin_eq (exhausted : Exhausted s) (books : Books timeout s) (tries : Nat) :
    sendWithin s.probingWindow tries s = pure s := by
  cases tries with
  | zero => rfl
  | succ tries =>
    rw [sendWithin_succ, exhausted.sendNext_eq books, pure_bind]

theorem Launch.enough {tries : Nat} (launch : Launch s segment after) (books : Books timeout s)
    (enough : s.probingWindow ≤ s.nextSeqno - s.highestAck + (tries + 1)) :
    after.probingWindow ≤ after.nextSeqno - after.highestAck + tries := by
  have next_eq := launch.sends.next_eq
  have some := launch.sends.some
  have highestAck_le := books.highestAck_le
  rw [launch.probingWindow_eq, launch.sends.ack_eq]
  omega

theorem sendWithin_exhausts {tries : Nat} (books : Books timeout s) (opened : 0 < s.nextSeqno)
    (enough : s.probingWindow ≤ s.nextSeqno - s.highestAck + tries)
    (h : (sendWithin s.probingWindow tries s).result = .ok after) : Exhausted after := by
  induction tries generalizing s with
  | zero =>
    cases h
    exact Or.inr (Or.inl enough)
  | succ tries ih =>
    rw [sendWithin_succ, Run.bind_eq_ok_iff] at h
    obtain ⟨next, hnext, h⟩ := h
    have round := sendNext_round opened hnext
    cases next with
    | none =>
      cases h
      exact round.exhausted books.sound
    | some sent =>
      cases round with
      | launches launch =>
        exact ih (books.launch launch) launch.opened (launch.enough books enough)
          (launch.probingWindow_eq ▸ h)

theorem sendWithin_add {tries : Nat} (books : Books timeout s) (opened : 0 < s.nextSeqno)
    (enough : s.probingWindow ≤ s.nextSeqno - s.highestAck + tries) (more : Nat) :
    sendWithin s.probingWindow (tries + more) s = sendWithin s.probingWindow tries s := by
  induction tries generalizing s with
  | zero => exact Exhausted.sendWithin_eq (Or.inr (Or.inl enough)) books _
  | succ tries ih =>
    rw [Nat.add_right_comm, sendWithin_succ, sendWithin_succ]
    refine Run.bind_congr_of_ok fun next hnext => ?_
    cases sendNext_round opened hnext with
    | ended | full | waits => rfl
    | launches launch =>
      simp only
      rw [← launch.probingWindow_eq]
      exact ih (books.launch launch) launch.opened (launch.enough books enough)

end rounds

section sending

theorem Launches.split (launches : Launches s (earlier ++ segment :: later) after) :
    ∃ before sent, Launches s earlier before ∧ Launch before segment sent ∧ Launches sent later after := by
  induction earlier generalizing s with
  | nil =>
    cases launches with
    | next launch rest => exact ⟨s, _, .nothing s, launch, rest⟩
  | cons first others ih =>
    cases launches with
    | next launch rest =>
      obtain ⟨before, sent, front, here, behind⟩ := ih rest
      exact ⟨before, sent, .next launch front, here, behind⟩

theorem Launches.kept (launches : Launches s segments after) :
    after.isn = s.isn ∧ after.window = s.window := by
  induction launches with
  | nothing => exact ⟨rfl, rfl⟩
  | next launch _ ih => exact ⟨ih.1.trans launch.sends.isn_eq, ih.2.trans launch.window_eq⟩

theorem Launch.fits (launch : Launch s segment after) (opened : 0 < s.nextSeqno) (books : Books timeout s) :
    segment.sequenceLength ≤ maxPayload ∧
      s.nextSeqno + segment.sequenceLength ≤ s.highestAck + s.probingWindow := by
  have highestAck_le := books.highestAck_le
  cases launch with
  | opens unopened => omega
  | @cuts stream payload fin _ _ room hcut =>
    obtain ⟨payload_eq, -, ends⟩ := cut_spec books.sound hcut
    have length_eq : payload.length = min s.budget s.stream.size := by
      rw [payload_eq, List.length_take, ByteStream.length_toList]
    have within : payload.length + fin.toNat ≤ s.budget := by
      cases fin with
      | false =>
        rw [Bool.toNat_false]
        omega
      | true =>
        have left := (ends rfl).2
        rw [Bool.toNat_true]
        omega
    unfold budget at within
    simp only [Segment.sequenceLength, Bool.toNat_false]
    omega

theorem Launches.inside (launches : Launches s segments after) (opened : 0 < s.nextSeqno)
    (books : Books timeout s) (split : segments = earlier ++ segment :: later) :
    segment.seqno = SeqNum.wrap (s.nextSeqno + numbers earlier) s.isn ∧ 0 < segment.sequenceLength ∧
      segment.sequenceLength ≤ maxPayload ∧
      s.nextSeqno + numbers earlier + segment.sequenceLength ≤ s.highestAck + s.probingWindow := by
  subst split
  obtain ⟨before, sent, front, launch, -⟩ := launches.split
  obtain ⟨isn_eq, window_eq⟩ := front.kept
  have ack_eq := front.highestAck_eq
  have next_eq := front.nextSeqno_eq
  have probing_eq : before.probingWindow = s.probingWindow := by
    unfold probingWindow
    rw [window_eq]
  have opened' : 0 < before.nextSeqno := next_eq ▸ Nat.add_pos_left opened _
  obtain ⟨le, within⟩ := launch.fits opened' (books.launches front)
  rw [next_eq, ack_eq, probing_eq] at within
  have seqno := launch.sends.seqno
  rw [nextWire, next_eq, isn_eq] at seqno
  exact ⟨seqno, launch.sends.some, le, within⟩

end sending

/-- Filling the window comes to an end by itself, and to a result if the stream does not reach the last counter.
What it sends ends inside the window, and then the FIN was sent, the window is used up, or nothing waits: to fill
it once more changes nothing. -/
theorem fills_and_exhausts (reachable : Reachable timeout s) (opened : 0 < s.nextSeqno) :
    (∀ more, sendWithin (max s.window.toNat 1) (max s.window.toNat 1 + more) s = s.fillWindow) ∧
    (s.nextSeqno + s.stream.size + 1 < Count.bound → ∃ after, s.fillWindow.result = .ok after) ∧
    ∀ after, s.fillWindow.result = .ok after →
      (∃ segments, after.queued = s.queued ++ segments ∧
        after.nextSeqno = s.nextSeqno + numbers segments ∧
        ∀ earlier segment later, segments = earlier ++ segment :: later →
          segment.seqno = SeqNum.wrap (s.nextSeqno + numbers earlier) s.isn ∧
          0 < segment.sequenceLength ∧ segment.sequenceLength ≤ maxPayload ∧
          s.nextSeqno + numbers earlier + segment.sequenceLength ≤
            s.highestAck + max s.window.toNat 1) ∧
      after.window = s.window ∧ after.highestAck = s.highestAck ∧
      (after.finSent = true ∨ max after.window.toNat 1 ≤ after.nextSeqno - after.highestAck ∨
        after.stream.toList = [] ∧ after.stream.ended = false) ∧
      after.fillWindow = pure after := by
  have books := reachable.books
  have fill_eq : s.fillWindow = sendWithin s.probingWindow s.probingWindow s :=
    if_neg (Nat.ne_of_gt opened)
  have enough : s.probingWindow ≤ s.nextSeqno - s.highestAck + s.probingWindow := Nat.le_add_left _ _
  refine ⟨fun more => ?_, fun short => ?_, fun after h => ?_⟩
  · rw [fill_eq]
    exact sendWithin_add books opened enough more
  · have flag := (!s.finSent).toNat_le
    rw [fill_eq]
    refine sendWithin_returns ⟨books.sound, books.short, books.highestAck_le, books.inFlight_le, ?_⟩ opened _
    unfold reach
    omega
  · obtain ⟨segments, launches⟩ := fillWindow_launches h
    have next_eq := launches.nextSeqno_eq
    have exhausted := sendWithin_exhausts books opened enough (fill_eq ▸ h)
    have again : after.fillWindow = sendWithin after.probingWindow after.probingWindow after :=
      if_neg (Nat.ne_of_gt (next_eq ▸ Nat.add_pos_left opened _))
    refine ⟨⟨segments, launches.queued_eq, next_eq, fun earlier segment later split =>
      launches.inside opened books split⟩, launches.kept.2, launches.highestAck_eq, exhausted, ?_⟩
    rw [again]
    exact exhausted.sendWithin_eq (books.launches launches) _

theorem fills_two_of_three : ∃ s after, Reachable 100 s ∧ 0 < s.nextSeqno ∧
    s.fillWindow.result = .ok after ∧ after.nextSeqno = 6 ∧ after.highestAck = 2 ∧
    after.queued.length = s.queued.length + 1 ∧ after.fillWindow = pure after := by
  have seen : (do
      let log ← logOfCalls [.stream (.write [97, 98, 99]), .fill, .ack ⟨1001⟩ 3, .ack ⟨1002⟩ 4,
        .stream (.write [100, 101, 102])]
      let filled ← log.2.fillWindow.result
      return (log.2.nextSeqno, log.2.queued.length, filled.nextSeqno, filled.highestAck,
        filled.queued.length) : Except Fault (Nat × Nat × Nat × Nat × Nat)) =
      .ok (4, 2, 6, 2, 3) := by decide +kernel
  simp only [bind_eq_ok, pure_eq_ok, Prod.mk.injEq] at seen
  obtain ⟨⟨events, s⟩, logged, after, h, four, two, six, ack_eq, three⟩ := seen
  have reachable := reachable_logOfCalls logged
  have opened : 0 < s.nextSeqno := by
    simp only at four
    omega
  obtain ⟨-, -, fills⟩ := fills_and_exhausts reachable opened
  obtain ⟨-, -, -, -, again⟩ := fills after h
  refine ⟨s, after, reachable, opened, h, six, ack_eq, ?_, again⟩
  simp only at two
  omega

end TcpStack.Sender

import TcpStack.Proofs.Sender.History

/-! Which numbers a segment takes, told by what is seen of it. The wire number of a segment stands for one position
only among those that are near the next one, and all that a sender sends is near: it sends no further than a window
ahead of what is acknowledged, and what it sends again is acknowledged in part at most. -/

namespace TcpStack

namespace SeqNum

/-- The last position before `next`, or `next` itself, that has this wire number. -/
def below (next : Nat) (isn n : SeqNum) : Nat := next - (wrap next isn - n : UInt32).toNat

theorem below_wrap {next position : Nat} (isn : SeqNum) (le : position ≤ next) (near : next - position < cycle) :
    below next isn (wrap position isn) = position := by
  obtain ⟨distance, rfl⟩ := Nat.exists_eq_add_of_le le
  have shift : wrap (position + distance) isn = wrap distance (wrap position isn) := (wrap_add ..).symm
  unfold below
  rw [shift, toNat_wrap_sub, Nat.mod_eq_of_lt (by omega)]
  omega

end SeqNum

def Outstanding.start (item : Outstanding) : Nat := item.endSeqno - item.segment.sequenceLength

namespace Sender

open Outcome

variable {timeout : Nat} {first s middle after : Sender} {events : List Event} {call : Call} {reply : Reply}
  {segment : Segment} {segments said more : List Segment} {items others : List Outstanding}

section contiguous

variable {start stop : Nat}

theorem Contiguous.append {last : Nat} (contiguous : Contiguous start items stop)
    (behind : Contiguous stop others last) : Contiguous start (items ++ others) last := by
  induction items generalizing start with
  | nil =>
    cases contiguous
    exact behind
  | cons item rest ih => exact ⟨contiguous.1, contiguous.2.1, ih contiguous.2.2⟩

theorem Contiguous.mem (contiguous : Contiguous start items stop) {item : Outstanding} (member : item ∈ items) :
    start ≤ item.start ∧ item.start + item.segment.sequenceLength = item.endSeqno ∧ item.endSeqno ≤ stop ∧
      0 < item.segment.sequenceLength := by
  induction items generalizing start with
  | nil => cases member
  | cons oldest rest ih =>
    obtain ⟨place, some, others⟩ := contiguous
    have behind := others.start_le
    rcases List.mem_cons.mp member with rfl | later
    · unfold Outstanding.start
      omega
    · have inside := ih others later
      omega

theorem Contiguous.filter_start (contiguous : Contiguous start items stop) {item : Outstanding}
    (member : item ∈ items) : items.filter (fun other => other.start == item.start) = [item] := by
  induction items generalizing start with
  | nil => cases member
  | cons oldest rest ih =>
    have place := contiguous.mem List.mem_cons_self
    have behind {other : Outstanding} (later : other ∈ rest) : oldest.start < other.start := by
      have inside := contiguous.2.2.mem later
      omega
    rcases List.mem_cons.mp member with rfl | later
    · rw [List.filter_cons_of_pos (by simp), List.filter_eq_nil_iff.mpr]
      intro other later
      simpa using Nat.ne_of_gt (behind later)
    · rw [List.filter_cons_of_neg (by simpa using Nat.ne_of_lt (behind later))]
      exact ih contiguous.2.2 later

theorem Contiguous.filter_cases (contiguous : Contiguous start items stop) (number : Nat) :
    items.filter (fun item => item.start == number) = [] ∨
      ∃ item ∈ items, item.start = number ∧ items.filter (fun item => item.start == number) = [item] := by
  by_cases taken : ∃ item ∈ items, item.start = number
  · obtain ⟨item, member, rfl⟩ := taken
    exact Or.inr ⟨item, member, rfl, contiguous.filter_start member⟩
  · refine Or.inl (List.filter_eq_nil_iff.mpr fun item member same => taken ⟨item, member, ?_⟩)
    exact beq_iff_eq.mp same

theorem Contiguous.filter_outside (contiguous : Contiguous start items stop) {number : Nat}
    (outside : number < start ∨ stop ≤ number) : items.filter (fun item => item.start == number) = [] := by
  rw [List.filter_eq_nil_iff]
  intro item member
  have inside := contiguous.mem member
  simp only [beq_iff_eq]
  omega

end contiguous

section spaced

/-- All that is in flight is near the next number, and has the wire number of its first one. -/
structure Spaced (s : Sender) : Prop where
  span : s.nextSeqno < s.highestAck + UInt16.size
  seqno : ∀ item ∈ s.outstanding, item.segment.seqno = SeqNum.wrap item.start s.isn
  short : ∀ item ∈ s.outstanding, item.segment.sequenceLength ≤ maxPayload

theorem spaced_initial (capacity timeout : Nat) (isn : SeqNum) : Spaced (initial capacity timeout isn) :=
  ⟨show 0 < 0 + UInt16.size by decide, nofun, nofun⟩

theorem Spaced.launch (spaced : Spaced s) (books : Books timeout s) (launch : Launch s segment after) :
    Spaced after := by
  have sends := launch.sends
  obtain ⟨short, near⟩ : segment.sequenceLength ≤ maxPayload ∧
      s.nextSeqno + segment.sequenceLength < s.highestAck + UInt16.size := by
    have widest : s.probingWindow < UInt16.size :=
      Nat.max_lt.mpr ⟨s.window.toNat_lt, by decide⟩
    cases unopened : s.nextSeqno with
    | zero =>
      cases launch with
      | opens =>
        change 1 ≤ maxPayload ∧ 0 + 1 < s.highestAck + UInt16.size
        exact ⟨by decide, Nat.lt_add_left _ (by decide)⟩
      | cuts opened => omega
    | succ last =>
      obtain ⟨short, within⟩ := launch.fits (by omega) books
      omega
  refine ⟨?_, ?_, ?_⟩
  · rw [sends.next_eq, sends.ack_eq]
    exact near
  · rw [sends.inFlight_eq, sends.isn_eq]
    refine forall_mem_concat spaced.seqno (sends.seqno.trans ?_)
    exact congrArg (SeqNum.wrap · s.isn) (Nat.add_sub_cancel ..).symm
  · rw [sends.inFlight_eq]
    exact forall_mem_concat spaced.short short

theorem Spaced.launches (spaced : Spaced s) (books : Books timeout s) (launches : Launches s segments after) :
    Spaced after := by
  induction launches with
  | nothing => exact spaced
  | next launch _ ih => exact ih (spaced.launch books launch) (books.launch launch)

theorem Spaced.heeds (spaced : Spaced s) {ackno : SeqNum} {window : UInt16}
    (heeds : Heeds s ackno window after) : Spaced after := by
  cases heeds with
  | again => exact ⟨spaced.span, spaced.seqno, spaced.short⟩
  | moves _ ahead _ hadvance =>
    obtain ⟨_, _, _, _, hrelease, rfl⟩ := advance_eq_ok hadvance
    exact ⟨Nat.lt_trans spaced.span (Nat.add_lt_add_right ahead _),
      fun item member => spaced.seqno item (mem_of_release hrelease member),
      fun item member => spaced.short item (mem_of_release hrelease member)⟩

theorem Spaced.ages (spaced : Spaced s) {elapsed : Nat} (ages : Ages s elapsed after) : Spaced after := by
  cases ages with
  | waits | rests => exact ⟨spaced.span, spaced.seqno, spaced.short⟩
  | resends _ inFlight =>
    have seqno := spaced.seqno
    have short := spaced.short
    rw [inFlight] at seqno short
    rw [List.forall_mem_cons] at seqno short
    exact ⟨spaced.span, List.forall_mem_cons.mpr seqno, List.forall_mem_cons.mpr short⟩

theorem Reachable.spaced (reachable : Reachable timeout s) : Spaced s := by
  induction reachable with
  | made makes =>
    obtain ⟨-, rfl⟩ := create_eq_ok makes
    exact spaced_initial _ _ _
  | called before performs ih =>
    have books := before.books
    cases perform_answers performs with
    | fill hfill =>
      obtain ⟨_, launches⟩ := fillWindow_launches hfill
      exact ih.launches books launches
    | ack hack =>
      rcases ackReceived_launches hack with rfl | ⟨_, _, heeds, launches⟩
      · exact ih
      · exact (ih.heeds heeds).launches (books.heeds heeds) launches
    | tick htick => exact ih.ages (tick_ages htick)
    | legal | sendEmpty | stream => exact ⟨ih.span, ih.seqno, ih.short⟩
  | drained _ _ ih => exact ⟨ih.span, ih.seqno, ih.short⟩

theorem Spaced.below_eq (spaced : Spaced s) (books : Books timeout s) {item : Outstanding}
    (member : item ∈ s.outstanding) : SeqNum.below s.nextSeqno s.isn item.segment.seqno = item.start := by
  have inside := books.contiguous.mem member
  have span := spaced.span
  have short := spaced.short item member
  have unacknowledged : s.highestAck < item.endSeqno := by
    cases inFlight : s.outstanding with
    | nil =>
      rw [inFlight] at member
      cases member
    | cons oldest rest =>
      have waits := books.waits oldest rest inFlight
      have contiguous := books.contiguous
      rw [inFlight] at member contiguous
      rcases List.mem_cons.mp member with rfl | later
      · exact waits
      · have behind := contiguous.2.2.mem later
        omega
  have near : UInt16.size + maxPayload < SeqNum.cycle := by decide
  rw [spaced.seqno item member]
  exact SeqNum.below_wrap s.isn (by omega) (by omega)

end spaced

section adds

/-- What a sender adds to its segments in flight as it says this: all that takes a number, each segment behind the
one before it. Of those in front some may be gone. -/
structure Adds (s : Sender) (said : List Segment) (items : List Outstanding) (after : Sender) : Prop where
  isn_eq : after.isn = s.isn
  contiguous : Contiguous s.nextSeqno items after.nextSeqno
  segments_eq : items.map Outstanding.segment = said.filter (0 < ·.sequenceLength)
  fresh : ∀ item ∈ items, item.resends = 0
  seqno : ∀ item ∈ items, item.segment.seqno = SeqNum.wrap item.start s.isn
  stays : after.outstanding <:+ s.outstanding ++ items

theorem Adds.nothing (isn_eq : after.isn = s.isn) (next_eq : after.nextSeqno = s.nextSeqno)
    (stays : after.outstanding <:+ s.outstanding) : Adds s [] [] after :=
  ⟨isn_eq, next_eq.symm, rfl, nofun, nofun, (List.append_nil s.outstanding).symm ▸ stays⟩

theorem Adds.trans (before : Adds s said items middle) (behind : Adds middle more others after) :
    Adds s (said ++ more) (items ++ others) after := by
  refine ⟨behind.isn_eq.trans before.isn_eq, before.contiguous.append behind.contiguous, ?_,
    List.forall_mem_append.mpr ⟨before.fresh, behind.fresh⟩, List.forall_mem_append.mpr ⟨before.seqno, ?_⟩, ?_⟩
  · rw [List.map_append, List.filter_append, before.segments_eq, behind.segments_eq]
  · exact before.isn_eq ▸ behind.seqno
  · obtain ⟨gone, split⟩ := before.stays
    refine behind.stays.trans ⟨gone, ?_⟩
    rw [← List.append_assoc, split, List.append_assoc]

theorem Launch.adds (launch : Launch s segment after) :
    Adds s [segment] [{ endSeqno := s.nextSeqno + segment.sequenceLength, segment }] after := by
  have sends := launch.sends
  refine ⟨sends.isn_eq, ⟨rfl, sends.some, sends.next_eq.symm⟩, ?_, by simp, ?_, ?_⟩
  · simp [sends.some]
  · refine List.forall_mem_singleton.mpr (sends.seqno.trans ?_)
    exact congrArg (SeqNum.wrap · s.isn) (Nat.add_sub_cancel ..).symm
  · exact ⟨[], sends.inFlight_eq⟩

theorem Launches.adds (launches : Launches s segments after) : ∃ items, Adds s segments items after := by
  induction launches with
  | nothing => exact ⟨[], .nothing rfl rfl List.suffix_rfl⟩
  | next launch _ ih =>
    obtain ⟨items, adds⟩ := ih
    exact ⟨_, launch.adds.trans adds⟩

theorem Heeds.adds {ackno : SeqNum} {window : UInt16} (heeds : Heeds s ackno window after) :
    Adds s [] [] after := by
  cases heeds with
  | again => exact .nothing rfl rfl List.suffix_rfl
  | moves _ _ _ hadvance =>
    obtain ⟨_, _, _, _, hrelease, rfl⟩ := advance_eq_ok hadvance
    exact .nothing rfl rfl (release_suffix hrelease)

theorem Performs.adds (performs : Performs s call after reply segments) (timeless : call.ticks = false) :
    ∃ items, Adds s segments items after := by
  cases performs with
  | fills launches => exact launches.adds
  | heeds _ heeds launches =>
    obtain ⟨items, adds⟩ := launches.adds
    exact ⟨items, heeds.adds.trans adds⟩
  | ignores | judges | writes | finishes => exact ⟨[], .nothing rfl rfl List.suffix_rfl⟩
  | ages | resends => cases timeless
  | replies => exact ⟨[], rfl, rfl, rfl, nofun, nofun, (List.append_nil s.outstanding).symm ▸ List.suffix_rfl⟩

theorem Since.adds (since : Since first events s) (timeless : ∀ e ∈ events, e.call.ticks = false) :
    ∃ items, Adds first (sent events) items s := by
  induction since with
  | start => exact ⟨[], .nothing rfl rfl List.suffix_rfl⟩
  | @called events s after call _ _ performs ih =>
    rw [List.forall_mem_append, List.forall_mem_singleton] at timeless
    obtain ⟨items, adds⟩ := ih timeless.1
    rw [sent_append, sent_singleton]
    rcases perform_cases performs with ⟨_, _, rfl, rfl, event_eq⟩ | ⟨segments, performs⟩
    · rw [event_eq]
      exact ⟨_, adds.trans (.nothing rfl rfl List.suffix_rfl)⟩
    · obtain ⟨others, more⟩ := performs.adds timeless.2
      rw [performs.event_eq]
      exact ⟨_, adds.trans more⟩
  | drained _ count ih =>
    obtain ⟨items, adds⟩ := ih timeless
    exact ⟨items, adds.isn_eq, adds.contiguous, adds.segments_eq, adds.fresh, adds.seqno, adds.stays⟩

theorem Adds.filter_eq (adds : Adds s said items after) (near : after.nextSeqno < s.nextSeqno + SeqNum.cycle)
    (number : Nat) : said.filter (fun segment => 0 < segment.sequenceLength &&
      SeqNum.below after.nextSeqno after.isn segment.seqno == number) =
    (items.filter fun item => item.start == number).map Outstanding.segment := by
  have told : ∀ item ∈ items, SeqNum.below after.nextSeqno after.isn item.segment.seqno = item.start := by
    intro item member
    have inside := adds.contiguous.mem member
    rw [adds.seqno item member, adds.isn_eq]
    exact SeqNum.below_wrap s.isn (by omega) (by omega)
  calc said.filter (fun segment => 0 < segment.sequenceLength &&
        SeqNum.below after.nextSeqno after.isn segment.seqno == number)
      = (said.filter (0 < ·.sequenceLength)).filter
          (fun segment => SeqNum.below after.nextSeqno after.isn segment.seqno == number) := by
        rw [List.filter_filter]
        exact List.filter_congr fun segment _ => Bool.and_comm _ _
    _ = (items.filter fun item =>
          SeqNum.below after.nextSeqno after.isn item.segment.seqno == number).map Outstanding.segment := by
        rw [← adds.segments_eq, List.filter_map]
        rfl
    _ = (items.filter fun item => item.start == number).map Outstanding.segment := by
        congr 1
        exact List.filter_congr fun item member => by rw [told item member]

end adds

end Sender
end TcpStack

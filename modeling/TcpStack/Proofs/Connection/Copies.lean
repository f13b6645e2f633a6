import TcpStack.Proofs.Connection.Output
import TcpStack.Proofs.Connection.Trace
import TcpStack.Proofs.Sender.Backoff

/-! How often a segment is sent. What takes numbers is told by the first of them, and all that was queued with that
one are copies of one segment. The count of a segment in flight is the number of its copies, so there are no more of
them than the configuration has, and the connection gives up when there would be. -/

namespace TcpStack.Connection

open Outcome Segment

def Event.copies (e : Event) (number : Nat) : List Segment :=
  e.queued.filter fun segment => 0 < segment.sequenceLength &&
    SeqNum.below e.after.sender.nextSeqno e.after.sender.isn segment.seqno == number

def copies (events : List Event) (number : Nat) : List Segment := events.flatMap fun e => e.copies number

@[simp] theorem copies_append (events more : List Event) (number : Nat) :
    copies (events ++ more) number = copies events number ++ copies more number := List.flatMap_append

@[simp] theorem copies_singleton (e : Event) (number : Nat) : copies [e] number = e.copies number :=
  List.flatMap_singleton _ e

variable {allows : ByteStream.Call → Bool} {events : List Event} {e : Event} {c after : Connection}
  {call : Call} {reply : Reply} {timeout number elapsed : Nat} {items : List Outstanding}
  {asked : List Sender.Call}

theorem copies_of_none (none : e.copies number = []) : copies (events ++ [e]) number = copies events number := by
  rw [copies_append, copies_singleton, none, List.append_nil]

theorem unstamped_of_replicate {queued : List Segment} {segment copy : Segment} {n : Nat}
    (queued_eq : queued.map unstamped = List.replicate n segment) (member : copy ∈ queued) :
    copy.unstamped = segment :=
  List.eq_of_mem_replicate (queued_eq ▸ List.mem_map_of_mem member)

/-- All that was queued with a number of its own, against the count of what is in flight. -/
structure Counts (events : List Event) (c : Connection) : Prop where
  ahead : ∀ number, c.sender.nextSeqno ≤ number → copies events number = []
  few : ∀ number, (copies events number).length ≤ 1 + c.config.maxResends
  alike : ∀ number, ∃ segment : Segment, segment.seqno = SeqNum.wrap number c.sender.isn ∧
    ∀ copy ∈ copies events number, copy.unstamped = segment
  inFlight : c.active = true → ∀ item ∈ c.sender.outstanding,
    (copies events item.start).map unstamped = List.replicate (1 + item.resends) item.segment.unstamped
  going : c.active = true → c.cause ≠ some .timedOut

theorem counts_initial (config : Config) (isn : SeqNum) : Counts [] (initial config isn) :=
  ⟨fun _ _ => rfl, fun _ => Nat.zero_le _, fun number => ⟨{ seqno := SeqNum.wrap number _ }, rfl, nofun⟩,
    nofun, nofun⟩

theorem Counts.length_eq (counts : Counts events c) (active : c.active = true) {item : Outstanding}
    (member : item ∈ c.sender.outstanding) : (copies events item.start).length = 1 + item.resends := by
  have copies_eq := congrArg List.length (counts.inFlight active item member)
  rwa [List.length_map, List.length_replicate] at copies_eq

theorem Counts.patient (counts : Counts events c) (active : c.active = true) :
    c.sender.Patient c.config.maxResends := by
  intro item member
  have few := counts.few item.start
  rw [counts.length_eq active member] at few
  omega

section events

theorem Counts.silent (counts : Counts events c) (none : ∀ number, e.copies number = [])
    (isn_eq : after.sender.isn = c.sender.isn) (next_eq : after.sender.nextSeqno = c.sender.nextSeqno)
    (config_eq : after.config = c.config)
    (same : after.active = true → c.active = true ∧ after.cause = c.cause ∧
      after.sender.outstanding = c.sender.outstanding) : Counts (events ++ [e]) after := by
  have copies_eq (number : Nat) : copies (events ++ [e]) number = copies events number :=
    copies_of_none (none number)
  refine ⟨fun number => ?_, fun number => ?_, fun number => ?_, fun active => ?_, fun active => ?_⟩
  · rw [copies_eq, next_eq]
    exact counts.ahead number
  · rw [copies_eq, config_eq]
    exact counts.few number
  · rw [copies_eq, isn_eq]
    exact counts.alike number
  · obtain ⟨active, -, outstanding_eq⟩ := same active
    rw [outstanding_eq]
    intro item member
    rw [copies_eq]
    exact counts.inFlight active item member
  · obtain ⟨active, cause_eq, -⟩ := same active
    rw [cause_eq]
    exact counts.going active

theorem Resets.queued_eq {cause : Option ResetCause} {rst : Segment} (resets : Resets c cause rst after) :
    after.queued = c.queued ++ [rst] := by
  rw [resets.after_eq]
  rfl

theorem Resets.bare {cause : Option ResetCause} {rst : Segment} (resets : Resets c cause rst after) :
    rst.rst = true ∧ rst.sequenceLength = 0 ∧ rst.seqno = c.sender.nextWire := by
  obtain ⟨syn, seqno, payload, fin, flag⟩ := Receiver.stamp_same resets.stamps
  refine ⟨flag, ?_, seqno⟩
  unfold sequenceLength
  rw [syn, payload, fin]
  rfl

theorem copies_eq_nil_of_bare {segment : Segment} (queued_eq : e.queued = [segment])
    (bare : segment.sequenceLength = 0) (number : Nat) : e.copies number = [] := by
  unfold Event.copies
  rw [queued_eq, List.filter_cons_of_neg (by simp [bare])]
  rfl

theorem Counts.resets (counts : Counts events c) {aged : Sender} {idle : Nat} {cause : Option ResetCause}
    {rst : Segment} (resets : Resets { c with idle, sender := aged } cause rst after)
    (isn_eq : aged.isn = c.sender.isn) (next_eq : aged.nextSeqno = c.sender.nextSeqno) : Counts (events ++ [c.event call after reply]) after := by
  have only : (c.event call after reply).queued = [rst] := queued_event resets.queued_eq
  refine counts.silent (copies_eq_nil_of_bare only resets.bare.2.1) ?_ ?_ ?_ fun active => ?_
  · rw [resets.sender_eq]
    exact isn_eq
  · rw [resets.sender_eq]
    exact next_eq
  · rw [resets.after_eq]
    rfl
  · rw [resets.active_eq] at active
    cases active

theorem map_unstamped_copies {queued : List Segment} (queued_eq : e.queued.map unstamped = queued.map unstamped)
    (number : Nat) : (e.copies number).map unstamped = (queued.filter fun segment =>
      0 < segment.sequenceLength &&
        SeqNum.below e.after.sender.nextSeqno e.after.sender.isn segment.seqno == number).map unstamped := by
  unfold Event.copies
  generalize kept : (fun segment : Segment => 0 < segment.sequenceLength &&
    SeqNum.below e.after.sender.nextSeqno e.after.sender.isn segment.seqno == number) = keeps
  have same : keeps ∘ unstamped = keeps := by
    subst kept
    rfl
  have filtered (l : List Segment) : (l.filter keeps).map unstamped = (l.map unstamped).filter keeps := by
    rw [List.filter_map, same]
  rw [filtered, filtered, queued_eq]

theorem Relays.launched (relays : Relays c.sender.nextSeqno c asked after) (reachable : c.sender.Reachable timeout)
    (empty : c.sender.queued = []) (call : Call) (reply : Reply) :
    ∃ said items, c.sender.Adds said items after.sender ∧
      ∀ number, ((c.event call after reply).copies number).map unstamped =
        ((items.filter fun item => item.start == number).map Outstanding.segment).map unstamped := by
  obtain ⟨done, since, timeless, queued, queued_eq, said⟩ := relays.since empty
  obtain ⟨items, adds⟩ := since.adds timeless
  have span := (since.reachable reachable).spaced.span
  have acked := relays.acked reachable.books.highestAck_le
  have far : UInt16.size < SeqNum.cycle := by decide
  refine ⟨_, items, adds, fun number => ?_⟩
  have same : (c.event call after reply).queued.map unstamped = (Sender.sent done).map unstamped := by
    rw [queued_event queued_eq, said]
  rw [map_unstamped_copies same]
  exact congrArg (List.map unstamped) (adds.filter_eq (by omega) number)

theorem Counts.relays (counts : Counts events c) (relays : Relays c.sender.nextSeqno c asked after)
    (once : AtOnce c after)
    (reachable : c.sender.Reachable timeout) (empty : c.sender.queued = []) :
    Counts (events ++ [c.event call after reply]) after := by
  obtain ⟨said, items, adds, copies_eq⟩ := relays.launched reachable empty call reply
  have contiguous := adds.contiguous
  have next_le := contiguous.start_le
  have none {number : Nat} (nothing : items.filter (fun item => item.start == number) = []) :
      copies (events ++ [c.event call after reply]) number = copies events number := by
    have empty := copies_eq number
    rw [nothing] at empty
    exact copies_of_none (List.map_eq_nil_iff.mp empty)
  have one {item : Outstanding} (member : item ∈ items) :
      (copies (events ++ [c.event call after reply]) item.start).map unstamped =
        List.replicate 1 item.segment.unstamped := by
    have new : copies events item.start = [] := counts.ahead _ (contiguous.mem member).1
    rw [copies_append, copies_singleton, new, List.nil_append, copies_eq, contiguous.filter_start member]
    rfl
  refine ⟨fun number le => ?_, fun number => ?_, fun number => ?_, fun active item member => ?_,
    fun active same => ?_⟩
  · rw [none (contiguous.filter_outside (Or.inr le))]
    exact counts.ahead number (Nat.le_trans next_le le)
  · rcases contiguous.filter_cases number with nothing | ⟨item, member, rfl, -⟩
    · rw [none nothing, once.config_eq]
      exact counts.few number
    · rw [← List.length_map (f := unstamped), one member]
      exact Nat.le_add_right 1 _
  · rcases contiguous.filter_cases number with nothing | ⟨item, member, rfl, -⟩
    · rw [none nothing, adds.isn_eq]
      exact counts.alike number
    · exact ⟨item.segment.unstamped, adds.isn_eq ▸ adds.seqno item member,
        fun copy => unstamped_of_replicate (one member)⟩
  · rcases List.mem_append.mp (adds.stays.subset member) with old | new
    · have inside := reachable.books.contiguous.mem old
      rw [none (contiguous.filter_outside (Or.inl (by omega)))]
      exact counts.inFlight (once.active active) item old
    · rw [one new, adds.fresh item new]
  · exact counts.going (once.active active) (once.cause same)

theorem Counts.repeats {oldest : Outstanding} {rest : List Outstanding} (counts : Counts events c)
    (active : c.active = true) (reachable : c.sender.Reachable timeout)
    (inFlight : c.sender.outstanding = oldest :: rest) (few : oldest.resends < c.config.maxResends)
    (queued_eq : e.queued.map unstamped = [oldest.segment].map unstamped)
    (kept : e.after.sender.isn = c.sender.isn ∧ e.after.sender.nextSeqno = c.sender.nextSeqno)
    (outstanding_eq : e.after.sender.outstanding = { oldest with resends := oldest.resends + 1 } :: rest)
    (config_eq : e.after.config = c.config) (cause_eq : e.after.cause = c.cause) :
    Counts (events ++ [e]) e.after := by
  obtain ⟨isn_eq, next_eq⟩ := kept
  have books := reachable.books
  have member : oldest ∈ c.sender.outstanding := inFlight ▸ List.mem_cons_self
  have place := books.contiguous.mem member
  have other {number : Nat} (apart : number ≠ oldest.start) :
      copies (events ++ [e]) number = copies events number := by
    have empty := map_unstamped_copies queued_eq number
    rw [isn_eq, next_eq, List.filter_cons_of_neg, List.filter_nil, List.map_nil, List.map_eq_nil_iff] at empty
    · exact copies_of_none empty
    · rw [reachable.spaced.below_eq books member]
      simpa using fun _ => Ne.symm apart
  have again : (copies (events ++ [e]) oldest.start).map unstamped =
      List.replicate (1 + (oldest.resends + 1)) oldest.segment.unstamped := by
    have one := map_unstamped_copies queued_eq oldest.start
    rw [isn_eq, next_eq, List.filter_cons_of_pos (by
      simp [reachable.spaced.below_eq books member, place.2.2.2])] at one
    rw [copies_append, copies_singleton, List.map_append, counts.inFlight active oldest member, one, ← Nat.add_assoc,
      List.replicate_succ']
    rfl
  refine ⟨fun number le => ?_, fun number => ?_, fun number => ?_, fun _ item member' => ?_, fun _ => ?_⟩
  · rw [other (by omega)]
    exact counts.ahead number (next_eq ▸ le)
  · by_cases same : number = oldest.start
    · rw [same, ← List.length_map (f := unstamped), again, List.length_replicate, config_eq]
      omega
    · rw [other same, config_eq]
      exact counts.few number
  · by_cases same : number = oldest.start
    · subst same
      exact ⟨oldest.segment.unstamped, isn_eq ▸ reachable.spaced.seqno oldest member,
        fun copy => unstamped_of_replicate again⟩
    · rw [other same, isn_eq]
      exact counts.alike number
  · rw [outstanding_eq] at member'
    rcases List.mem_cons.mp member' with rfl | later
    · exact again
    · have contiguous := books.contiguous
      rw [inFlight] at contiguous
      have behind := contiguous.2.2.mem later
      rw [other (by omega)]
      exact counts.inFlight active item (inFlight ▸ List.mem_cons_of_mem _ later)
  · rw [cause_eq]
    exact counts.going active

theorem Counts.elapses (counts : Counts events c) (elapses : Elapses c elapsed after)
    (reachable : c.sender.Reachable timeout) (empty : c.sender.queued = []) :
    Counts (events ++ [c.event (.tick elapsed) after reply]) after := by
  have ages {aged : Sender} (ticks : (c.sender.tick elapsed).result = .ok aged) :
      aged.isn = c.sender.isn ∧ aged.nextSeqno = c.sender.nextSeqno := by
    cases Sender.tick_ages ticks with
    | waits | rests | resends => exact ⟨rfl, rfl⟩
  cases elapses with
  | sleeps =>
    have nothing : (c.event (.tick elapsed) c reply).queued = [] := queued_event (List.append_nil c.queued).symm
    exact counts.silent (fun number => by rw [Event.copies, nothing]; rfl) rfl rfl rfl
      fun active => ⟨active, rfl, rfl⟩
  | givesUp _ _ ticks _ resets => exact counts.resets resets (ages ticks).1 (ages ticks).2
  | goesOn active _ ticks few flushes =>
    have kept := ages ticks
    obtain ⟨stamps⟩ := flushes
    have same := Receiver.map_unstamped_of_stamps stamps
    cases Sender.tick_ages ticks with
    | waits | rests =>
      rw [empty] at same
      refine counts.silent (fun number => ?_) kept.1 kept.2 rfl fun _ => ⟨active, rfl, rfl⟩
      rw [Event.copies, queued_event rfl, List.map_eq_nil_iff.mp same]
      rfl
    | @resends timer oldest rest _ inFlight =>
      rw [empty] at same
      refine counts.repeats active reachable inFlight few ?_ kept rfl rfl rfl
      rw [queued_event rfl]
      exact same

theorem Traced.counts (traced : Traced allows events c) : Counts events c := by
  induction traced with
  | opened opens =>
    obtain ⟨rfl, -⟩ := new?_eq_ok_iff.mp opens
    exact counts_initial _ _
  | @called events c after call reply before _ performs ih =>
    obtain ⟨reachable, empty⟩ := before.reachable.sender
    rcases perform_cases reachable empty performs with
      ⟨-, once, ⟨_, relays⟩ | ⟨_, resets⟩⟩ | ⟨_, rfl, elapses⟩
    · exact ih.relays relays once reachable empty
    · exact ih.resets resets rfl rfl
    · exact ih.elapses elapses reachable empty
  | emitted _ _ ih => exact ⟨ih.ahead, ih.few, ih.alike, ih.inFlight, ih.going⟩

end events

section limit

/-- The timer runs out in this time while there are as many copies of the oldest segment in flight as there may
be. -/
def Exhausts (events : List Event) (c : Connection) (elapsed : Nat) : Prop :=
  c.active = true ∧ (c.sender.timer.tick elapsed).2 = true ∧ ∃ oldest rest,
    c.sender.outstanding = oldest :: rest ∧ (copies events oldest.start).length = 1 + c.config.maxResends

theorem resends_of_ages {aged : Sender} (ages : c.sender.Ages elapsed aged) :
    aged.resends = c.sender.resends ∧
      ((c.sender.timer.tick elapsed).2 = true → c.sender.outstanding = []) ∨
    aged.resends = c.sender.resends + 1 ∧ (c.sender.timer.tick elapsed).2 = true ∧
      c.sender.outstanding ≠ [] := by
  cases ages with
  | waits ticks =>
    refine Or.inl ⟨rfl, fun expired => ?_⟩
    rw [ticks] at expired
    cases expired
  | rests _ none => exact Or.inl ⟨rfl, fun _ => none⟩
  | resends ticks inFlight =>
    refine Or.inr ⟨?_, by rw [ticks], by simp [inFlight]⟩
    rw [Sender.resends_of_front inFlight, Sender.resends_of_front rfl]

theorem Counts.exhausts_iff (counts : Counts events c) (active : c.active = true) {aged : Sender}
    (ages : c.sender.Ages elapsed aged) : Exhausts events c elapsed ↔ c.config.maxResends < aged.resends := by
  have patient := counts.patient active
  have first {oldest : Outstanding} {rest : List Outstanding} (inFlight : c.sender.outstanding = oldest :: rest) :
      (copies events oldest.start).length = 1 + c.sender.resends := by
    rw [counts.length_eq active (inFlight ▸ List.mem_cons_self), Sender.resends_of_front inFlight]
  constructor
  · rintro ⟨-, expired, oldest, rest, inFlight, full⟩
    rw [first inFlight] at full
    rcases resends_of_ages ages with ⟨-, none⟩ | ⟨more, -⟩
    · cases (none expired).symm.trans inFlight
    · omega
  · intro many
    have few : c.sender.resends ≤ c.config.maxResends := by
      unfold Sender.resends
      split
      · exact Nat.zero_le _
      · rename_i inFlight
        exact patient _ (inFlight ▸ List.mem_cons_self)
    rcases resends_of_ages ages with ⟨same, -⟩ | ⟨more, expired, some⟩
    · omega
    · obtain ⟨oldest, rest, inFlight⟩ := List.exists_cons_of_ne_nil some
      exact ⟨active, expired, oldest, rest, inFlight, by rw [first inFlight]; omega⟩

theorem Traced.timedOut_iff (traced : Traced allows events c)
    (h : (c.perform call).result = .ok (after, reply)) :
    c.cause ≠ some .timedOut ∧ after.cause = some .timedOut ↔
      ∃ elapsed, call = .tick elapsed ∧ Exhausts events c elapsed := by
  have counts := traced.counts
  obtain ⟨reachable, empty⟩ := traced.reachable.sender
  rcases perform_cases reachable empty h with ⟨timeless, once, -⟩ | ⟨elapsed, rfl, elapses⟩
  · refine iff_of_false (fun ⟨before, now⟩ => before (once.cause now)) ?_
    rintro ⟨elapsed, ticks, -⟩
    exact timeless elapsed ticks
  have named {P : Nat → Prop} : (∃ other, Call.tick elapsed = .tick other ∧ P other) ↔ P elapsed := by simp
  rw [named]
  cases elapses with
  | sleeps inactive =>
    refine iff_of_false (fun ⟨before, now⟩ => before now) ?_
    rintro ⟨active, -⟩
    cases active.symm.trans inactive
  | givesUp active _ ticks many resets =>
    refine iff_of_true ⟨counts.going active, ?_⟩
      ((counts.exhausts_iff active (Sender.tick_ages ticks)).mpr many)
    rw [resets.after_eq]
    rfl
  | goesOn active _ ticks few flushes =>
    cases flushes
    refine iff_of_false (fun ⟨before, now⟩ => before now) fun exhausts => ?_
    have many := (counts.exhausts_iff active (Sender.tick_ages ticks)).mp exhausts
    omega

theorem Traced.queued_of_exhausts (traced : Traced allows events c) (exhausts : Exhausts events c elapsed)
    (h : (c.perform (.tick elapsed)).result = .ok (after, reply)) :
    ∃ rst, (c.event (.tick elapsed) after reply).queued = [rst] ∧ rst.rst = true ∧ rst.sequenceLength = 0 ∧
      rst.seqno = SeqNum.wrap c.sender.nextSeqno c.sender.isn := by
  have counts := traced.counts
  obtain ⟨_, does⟩ := perform_eq_ok_iff.mp h
  cases does with
  | ticks elapses =>
    cases elapses with
    | sleeps inactive => cases exhausts.1.symm.trans inactive
    | @givesUp aged rst _ _ _ ticks _ resets =>
      obtain ⟨flag, bare, seqno⟩ := resets.bare
      refine ⟨rst, queued_event resets.queued_eq, flag, bare, seqno.trans ?_⟩
      cases Sender.tick_ages ticks with
      | waits | rests | resends => rfl
    | goesOn active _ ticks few =>
      have many := (counts.exhausts_iff active (Sender.tick_ages ticks)).mp exhausts
      omega

theorem Traced.tick_returns (traced : Traced allows events c) (exhausts : Exhausts events c elapsed)
    (stamps : c.receiver.Stamps) (short : c.idle + elapsed < Count.bound)
    (few : c.config.maxResends + 1 < UInt32.size) :
    ∃ after, (c.perform (.tick elapsed)).result = .ok (after, .done) := by
  have counts := traced.counts
  have ⟨active, _, oldest, rest, inFlight, full⟩ := exhausts
  rw [counts.length_eq active (inFlight ▸ List.mem_cons_self)] at full
  have resends_eq := Sender.resends_of_front inFlight
  obtain ⟨aged, ticks⟩ := Sender.tick_returns (s := c.sender) (by omega) elapsed
  have many := (counts.exhausts_iff active (Sender.tick_ages ticks)).mp exhausts
  obtain ⟨_, after, resets⟩ :=
    reset_of_stamps (c := { c with idle := c.idle + elapsed, sender := aged }) stamps.stamp_returns (some .timedOut)
  exact ⟨after, perform_eq_ok_iff.mpr ⟨_, .ticks (.givesUp active short ticks many resets)⟩⟩

end limit

/-- What takes numbers is queued once and again as often as the configuration has it at most, each time with the
same number, flags and payload, and a segment in flight is counted as it was queued. The connection gives up in that
call, and in no other, in which the timer runs out while the oldest segment has all its copies; an RST with the next
number is all that is queued then. -/
theorem resent_at_most (traced : Traced allows events c) :
    (∀ segment ∈ sent events, 0 < segment.sequenceLength →
      ∃ number < c.sender.nextSeqno, segment ∈ copies events number) ∧
    (∀ number, (copies events number).length ≤ 1 + c.config.maxResends ∧
      ∃ first : Segment, first.seqno = SeqNum.wrap number c.sender.isn ∧ ∀ copy ∈ copies events number,
        copy.seqno = first.seqno ∧ copy.syn = first.syn ∧ copy.fin = first.fin ∧ copy.payload = first.payload) ∧
    (c.active = true → ∀ item ∈ c.sender.outstanding,
      (copies events item.start).map unstamped = List.replicate (1 + item.resends) item.segment.unstamped) ∧
    (∀ call after reply, (c.perform call).result = .ok (after, reply) →
      (c.cause ≠ some .timedOut ∧ after.cause = some .timedOut ↔
        ∃ elapsed, call = .tick elapsed ∧ Exhausts events c elapsed)) ∧
    ∀ elapsed, Exhausts events c elapsed →
      (∀ after reply, (c.perform (.tick elapsed)).result = .ok (after, reply) →
        ∃ rst, (c.event (.tick elapsed) after reply).queued = [rst] ∧ rst.rst = true ∧ rst.sequenceLength = 0 ∧
          rst.seqno = SeqNum.wrap c.sender.nextSeqno c.sender.isn) ∧
      (c.receiver.Stamps → c.idle + elapsed < Count.bound → c.config.maxResends + 1 < UInt32.size →
        ∃ after, (c.perform (.tick elapsed)).result = .ok (after, .done)) := by
  have counts := traced.counts
  refine ⟨fun segment member some => ?_, fun number => ⟨counts.few number, ?_⟩, counts.inFlight,
    fun call after reply => traced.timedOut_iff, fun elapsed exhausts =>
      ⟨fun after reply => traced.queued_of_exhausts exhausts, traced.tick_returns exhausts⟩⟩
  · obtain ⟨e, inside, member⟩ := List.mem_flatMap.mp member
    have copied : segment ∈ copies events (SeqNum.below e.after.sender.nextSeqno e.after.sender.isn segment.seqno) :=
      List.mem_flatMap.mpr ⟨e, inside, List.mem_filter.mpr ⟨member, by simp [some]⟩⟩
    refine ⟨_, Nat.lt_of_not_le fun ahead => ?_, copied⟩
    rw [counts.ahead _ ahead] at copied
    cases copied
  · obtain ⟨first, seqno, alike⟩ := counts.alike number
    refine ⟨first, seqno, fun copy member => ?_⟩
    rw [← alike copy member]
    exact ⟨rfl, rfl, rfl, rfl⟩

theorem resent_once : ∃ events c after rst, Traced ByteStream.Call.reads events c ∧ c.config.maxResends = 1 ∧
    (copies events 1).length = 2 ∧ c.cause ≠ some .timedOut ∧
    (c.perform (.tick 200)).result = .ok (after, .done) ∧ after.cause = some .timedOut ∧
    (c.event (.tick 200) after .done).queued = [rst] ∧ rst.rst = true ∧ rst.seqno = ⟨1002⟩ := by
  have seen : (fun log => (log.2.active, log.2.sender.timer, log.2.sender.outstanding, log.2.sender.isn,
      [log.2.config.maxResends, log.2.idle, log.2.sender.nextSeqno, log.2.receiver.reassembler.nextIndex,
        (copies log.1 1).length])) <$>
      record (initial { capacity := 8, timeout := 100, maxResends := 1 } ⟨1000⟩) [.connect,
        .segment { syn := true, ack := true, seqno := ⟨5000⟩, ackno := ⟨1001⟩, window := 100 }, .write [97],
        .tick 100] =
      .ok (true, .running 200, [{ endSeqno := 2, resends := 1, segment := { seqno := ⟨1001⟩, payload := [97] } }],
        ⟨1000⟩, [1, 100, 2, 0, 2]) := by decide +kernel
  obtain ⟨⟨events, c⟩, logged, look⟩ := map_eq_ok.mp seen
  simp only [Prod.mk.injEq, List.cons.injEq] at look
  obtain ⟨active, timer, inFlight, isn, limit, idle, nextSeqno, next, full, -⟩ := look
  have opens : new? { capacity := 8, timeout := 100, maxResends := 1 } ⟨1000⟩ =
      .ok (.ok (initial { capacity := 8, timeout := 100, maxResends := 1 } ⟨1000⟩)) :=
    new?_eq_ok_iff.mpr ⟨rfl, ⟨by decide, by decide⟩, by decide⟩
  have traced : Traced ByteStream.Call.reads events c :=
    (Traced.opened opens).record (by simp [Call.within]) logged
  have exhausts : Exhausts events c 200 := by
    refine ⟨active, by rw [timer]; rfl, _, _, inFlight, ?_⟩
    rw [limit]
    exact full
  have intact := traced.reachable.settled.intact
  have stamps : c.receiver.Stamps := ⟨intact.cells ▸ intact.inbound.size_le, by rw [next]; decide⟩
  obtain ⟨-, -, -, gives, ends⟩ := resent_at_most traced
  obtain ⟨queues, returns⟩ := ends 200 exhausts
  obtain ⟨after, performs⟩ := returns stamps (by rw [idle]; decide) (by rw [limit]; decide)
  obtain ⟨rst, queued, flag, -, seqno⟩ := queues after .done performs
  have timedOut := (gives _ _ _ performs).mpr ⟨200, rfl, exhausts⟩
  refine ⟨events, c, after, rst, traced, limit, full, timedOut.1, performs, timedOut.2, queued, flag, seqno.trans ?_⟩
  rw [nextSeqno, isn]
  rfl

end TcpStack.Connection

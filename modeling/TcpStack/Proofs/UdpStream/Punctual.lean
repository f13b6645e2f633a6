import TcpStack.Proofs.Connection.Timing
import TcpStack.Proofs.UdpStream.Timeline

/-! When a stream sends a segment again. Its connection knows of no other time than the stream has handed on,
so what it sends counts as sent at the time that was handed on last. Counted from there nothing is sent again
too early; how much of that time had passed before the segment was sent is another matter. -/

namespace TcpStack

namespace Epoch

theorem millis_mono (epoch : Epoch) {before now : Nat} (later : before ≤ now) :
    epoch.millis before ≤ epoch.millis now :=
  Nat.div_le_div_right (Nat.sub_le_sub_right later _)

theorem add_le_of_millis {epoch : Epoch} {first now timeout : Nat} (positive : 0 < timeout)
    (left : epoch.millis first + timeout ≤ epoch.millis now) : first + (timeout - 1) * 1000 ≤ now := by
  unfold millis at left
  omega

end Epoch

namespace UdpStream

open Outcome

def sentUpTo (st : UdpStream) : Nat :=
  match st.connection with
  | some c => c.sender.nextSeqno
  | none => 0

def TimedOut (st : UdpStream) : Prop := ∃ c, st.connection = some c ∧ c.cause = some .timedOut

namespace Moment

def Sends (m : Moment) (number : Nat) : Prop := m.before.sentUpTo < number ∧ number ≤ m.after.sentUpTo

def Resends (m : Moment) (o : Outstanding) : Prop :=
  ∃ c c', m.before.connection = some c ∧ m.after.connection = some c' ∧ c.sender.Repeats c'.sender o

def GivesUp (m : Moment) : Prop := ¬m.before.TimedOut ∧ m.after.TimedOut

end Moment

/-- The number was sent first in one of the moments, and this was the time that was handed on last. -/
def SentIn (moments : List Moment) (number since : Nat) : Prop :=
  ∃ first ∈ moments, first.Sends number ∧ first.after.lastTick = since

variable {handed told : List Event} {gained : Bytes} {st base after : UdpStream} {c c' later : Connection}
  {call : Connection.Call} {reply : Reply} {moments : List Moment} {clock number since elapsed : Nat}
  {o : Outstanding}

theorem sentUpTo_of_some (found : st.connection = some c) : st.sentUpTo = c.sender.nextSeqno := by
  unfold sentUpTo
  rw [found]

theorem sentUpTo_of_none (alone : st.connection = none) : st.sentUpTo = 0 := by
  unfold sentUpTo
  rw [alone]

theorem SentIn.append (sent : SentIn moments number since) (more : List Moment) :
    SentIn (moments ++ more) number since := by
  obtain ⟨first, member, sends⟩ := sent
  exact ⟨first, List.mem_append_left _ member, sends⟩

inductive Turns (st : UdpStream) (clock : Nat) (after : UdpStream) (later : Connection) : Prop
  | atOnce {c : Connection} (found : st.connection = some c) (once : c.AtOnce later)
      (same : after.lastTick = st.lastTick)
  | opens {isn : SeqNum} (alone : st.connection = none)
      (once : (Connection.initial st.config.connection isn).AtOnce later)
      (same : after.lastTick = st.lastTick)
  | ages {c c' : Connection} {elapsed : Nat} (found : st.connection = some c)
      (ticks : (c.tick elapsed).result = .ok c') (once : c'.AtOnce later)
      (same : later.sender = c'.sender) (passed : st.lastTick + elapsed = after.lastTick)

section turns

theorem atOnce_of_drop (c : Connection) (count : Nat) :
    c.AtOnce { c with queued := c.queued.drop count } := ⟨.refl _, rfl, id, id⟩

theorem atOnce_withInbound (c : Connection) (output : ByteStream) : c.AtOnce (c.withInbound output) :=
  ⟨.refl _, rfl, id, id⟩

theorem Deed.turns (deed : Deed st clock told after) (found : after.connection = some later) :
    Turns st clock after later := by
  cases deed with
  | nothing => exact .atOnce found (.refl _) rfl
  | idles alone => cases alone.symm.trans found
  | hands => exact .atOnce (by exact found) (.refl _) rfl
  | @opens c c' _ count alone made performs =>
    obtain ⟨isn, rfl, -⟩ := newConnection_eq_ok made
    cases found
    have once := Connection.perform_atOnce (fun _ same => by cases same) performs
    exact .opens alone (once.trans (atOnce_of_drop c' count)) rfl
  | @sends c c' _ _ count known byHand performs =>
    cases found
    have once := Connection.perform_atOnce (fun _ same => by rw [same] at byHand; cases byHand) performs
    exact .atOnce known (once.trans (atOnce_of_drop c' count)) rfl
  | @tells _ c c' _ _ count output comes performs drops =>
    cases found
    have told : c'.AtOnce (Connection.withInbound { c' with queued := c'.queued.drop count } output) :=
      (atOnce_of_drop c' count).trans (atOnce_withInbound _ output)
    cases comes with
    | segment known =>
      have once := Connection.perform_atOnce (fun _ same => by cases same) performs
      exact .atOnce known (once.trans told) rfl
    | opening alone _ made =>
      obtain ⟨isn, rfl, -⟩ := newConnection_eq_ok made
      have once := Connection.perform_atOnce (fun _ same => by cases same) performs
      exact .opens alone (once.trans told) rfl
    | time known passed =>
      unfold Connection.perform at performs
      simp only [Run.result_bind, Run.result_pure, bind_eq_ok] at performs
      obtain ⟨_, ticks, performs⟩ := performs
      cases performs
      exact .ages known ticks told rfl passed

theorem Deed.same (deed : Deed st clock told after) : after.config = st.config ∧
    after.epoch = st.epoch ∧ (after.lastTick = st.lastTick ∨ after.lastTick = st.epoch.millis clock) := by
  cases deed with
  | nothing | hands | opens | sends => exact ⟨rfl, rfl, Or.inl rfl⟩
  | idles => exact ⟨rfl, rfl, Or.inr rfl⟩
  | tells comes =>
    cases comes with
    | segment | opening => exact ⟨rfl, rfl, Or.inl rfl⟩
    | time => exact ⟨rfl, rfl, Or.inr rfl⟩

end turns

/-- The connection is punctual by the time that was handed on, and that is not ahead of the clock. -/
structure Clocked (moments : List Moment) (st : UdpStream) (clock : Nat) : Prop where
  lag : st.lastTick ≤ st.epoch.millis clock
  punctual : ∀ c, st.connection = some c →
    c.Punctual (SentIn moments) st.lastTick st.config.connection

theorem Clocked.deed (clocked : Clocked moments st clock) (deed : Deed st clock told after) :
    Clocked (moments ++ [⟨clock, st, told, after⟩]) after clock := by
  obtain ⟨config_eq, epoch_eq, tick_eq⟩ := deed.same
  refine ⟨?_, fun later found => ?_⟩
  · rw [epoch_eq]
    rcases tick_eq with same | now
    · exact same ▸ clocked.lag
    · exact Nat.le_of_eq now
  have here {number : Nat} (first : st.sentUpTo < number) (last : number ≤ later.sender.nextSeqno) :
      SentIn (moments ++ [⟨clock, st, told, after⟩]) number after.lastTick :=
    ⟨_, List.mem_concat_self, ⟨first, (sentUpTo_of_some found).symm ▸ last⟩, rfl⟩
  have before {c : Connection} (known : st.connection = some c) : c.Punctual
      (SentIn (moments ++ [⟨clock, st, told, after⟩])) st.lastTick st.config.connection :=
    (clocked.punctual c known).mono fun _ _ sent => sent.append _
  rw [config_eq]
  cases deed.turns found with
  | atOnce known once same =>
    rw [← same] at before
    exact (before known).atOnce once fun _ first last => here ((sentUpTo_of_some known).symm ▸ first) last
  | @opens isn alone once same =>
    exact (Connection.punctual_initial _ _ _ isn).atOnce once fun _ first last =>
      here ((sentUpTo_of_none alone).symm ▸ first) last
  | ages known ticks once same passed =>
    have aged := (before known).tick ticks
    rw [passed] at aged
    refine aged.atOnce once fun number first last => ?_
    rw [same] at last
    omega

/-- What is sent again in a moment is sent again in time, counted from what was handed on as it was sent
first, and the connection gives up only as it sends a segment again once too often. -/
structure Due (config : Config) (epoch : Epoch) (earlier : List Moment) (m : Moment) : Prop where
  resends : ∀ o, m.Resends o → ∃ first ∈ earlier, first.Sends o.endSeqno ∧
    first.after.lastTick + config.timeout ≤ epoch.millis m.clock
  gives_up : m.GivesUp → ∃ o, m.Resends o ∧ config.maxResends ≤ o.resends

theorem CaughtUp.resends_due (caughtUp : CaughtUp handed gained st) (clocked : Clocked moments st clock)
    (deed : Deed st clock told after) (resends : Moment.Resends ⟨clock, st, told, after⟩ o) :
    ∃ first ∈ moments, first.Sends o.endSeqno ∧
      first.after.lastTick + st.config.connection.timeout ≤ st.epoch.millis clock := by
  obtain ⟨c, later, found, found', repeats⟩ := resends
  have found : st.connection = some c := found
  have found' : after.connection = some later := found'
  have ledger := (caughtUp.reachable found).vouches.ledger
  cases deed.turns found' with
  | atOnce known once =>
    obtain rfl := Option.some.inj (found.symm.trans known)
    exact absurd repeats (once.sender.not_repeats ledger)
  | opens alone => cases alone.symm.trans found
  | ages known ticks once same passed =>
    obtain rfl := Option.some.inj (found.symm.trans known)
    rw [same] at repeats
    obtain ⟨_, ⟨first, member, sends, rfl⟩, left⟩ := (clocked.punctual c found).due ledger ticks repeats
    have lag := (clocked.deed deed).lag
    rw [deed.same.2.1] at lag
    exact ⟨first, member, sends, by omega⟩

theorem Clocked.gives_up (clocked : Clocked moments st clock) (deed : Deed st clock told after)
    (gives_up : Moment.GivesUp ⟨clock, st, told, after⟩) :
    ∃ o, Moment.Resends ⟨clock, st, told, after⟩ o ∧ st.config.connection.maxResends ≤ o.resends := by
  obtain ⟨going, later, found, cause⟩ := gives_up
  cases deed.turns found with
  | atOnce known once => exact absurd ⟨_, known, once.cause cause⟩ going
  | opens _ once => cases once.cause cause
  | ages known ticks once same =>
    rcases (clocked.punctual _ known).gives_up ticks (once.cause cause) with before | ⟨o, repeats, many⟩
    · exact absurd ⟨_, known, before⟩ going
    · exact ⟨o, ⟨_, later, known, found, same.symm ▸ repeats⟩, many⟩

theorem Deed.told_timedOut (deed : Deed st clock told after)
    (member : .failed .timedOut ∈ told ++ after.events) :
    .failed .timedOut ∈ st.events ∨ after.TimedOut := by
  cases deed with
  | nothing | idles | opens | sends => exact Or.inl member
  | hands next => exact Or.inl (next ▸ member)
  | @tells base c c' _ _ count output comes =>
    have events_eq : base.events = st.events := by
      cases comes with
      | segment | opening | time => rfl
    have member : .failed .timedOut ∈ base.events ++ base.news { c' with queued := c'.queued.drop count } :=
      member
    rw [events_eq] at member
    refine (List.mem_append.mp member).imp id fun fresh => ⟨_, rfl, ?_⟩
    change c'.cause = some .timedOut
    unfold news at fresh
    revert fresh
    cases c'.cause with
    | none => simp
    | some cause => cases cause <;> simp

theorem clocked_of_bindAt {config : StreamConfig} {address : Net.Address} {host host' : Net.Host}
    (binds : bindAt config address host = .ok (st, host')) : Clocked [] st host'.clock := by
  obtain ⟨-, -, _, rfl, -⟩ := bindAt_eq_ok binds
  exact ⟨Nat.zero_le _, fun c found => by cases found⟩

theorem Lived.due (lived : Lived moments st clock) : Clocked moments st clock ∧
    ∀ earlier m later, moments = earlier ++ m :: later →
      Due st.config.connection st.epoch earlier m := by
  refine lived.induct (P := fun moments st clock => Clocked moments st clock ∧
    ∀ earlier m later, moments = earlier ++ m :: later →
      Due st.config.connection st.epoch earlier m) ?_ ?_ ?_
  · intro config address host st host' binds
    refine ⟨clocked_of_bindAt binds, fun earlier m later split => ?_⟩
    cases earlier <;> cases split
  · rintro moments st before now later ⟨clocked, due⟩
    exact ⟨⟨Nat.le_trans clocked.lag (st.epoch.millis_mono later), clocked.punctual⟩, due⟩
  · rintro moments gained st clock told after caughtUp deed ⟨clocked, due⟩
    refine ⟨clocked.deed deed, fun earlier m later split => ?_⟩
    obtain ⟨config_eq, epoch_eq, -⟩ := deed.same
    rw [config_eq, epoch_eq]
    rcases List.eq_nil_or_concat later with rfl | ⟨others, last, rfl⟩
    · obtain ⟨rfl, same⟩ := List.append_inj' split rfl
      obtain ⟨rfl, -⟩ := List.cons.inj same
      exact ⟨fun o resends => caughtUp.resends_due clocked deed resends, clocked.gives_up deed⟩
    · rw [List.concat_eq_append, ← List.cons_append, ← List.append_assoc] at split
      obtain ⟨before, -⟩ := List.append_inj' split rfl
      exact due earlier m others before

theorem Lived.gives_up (lived : Lived moments st clock)
    (failed : st.TimedOut ∨ .failed .timedOut ∈ toldIn moments ++ st.events) :
    ∃ m ∈ moments, m.GivesUp := by
  revert failed
  refine lived.induct (P := fun moments st _ =>
    st.TimedOut ∨ .failed .timedOut ∈ toldIn moments ++ st.events → ∃ m ∈ moments, m.GivesUp) ?_
    (fun _ _ _ _ _ same => same) ?_
  · intro config address host st host' binds failed
    obtain ⟨caughtUp, alone⟩ := caughtUp_of_bindAt binds
    rcases failed with ⟨c, found, -⟩ | member
    · cases alone.symm.trans found
    · have silent : toldIn [] ++ st.events = [] := (caughtUp.alone alone).1
      rw [silent] at member
      cases member
  · intro moments gained st clock told after caughtUp deed before failed
    have earlier (failed : st.TimedOut ∨ .failed .timedOut ∈ toldIn moments ++ st.events) :
        ∃ m ∈ moments ++ [⟨clock, st, told, after⟩], m.GivesUp := by
      obtain ⟨m, member, gives_up⟩ := before failed
      exact ⟨m, List.mem_append_left _ member, gives_up⟩
    have now (timedOut : after.TimedOut) :
        ∃ m ∈ moments ++ [⟨clock, st, told, after⟩], m.GivesUp := by
      by_cases already : st.TimedOut
      · exact earlier (Or.inl already)
      · exact ⟨_, List.mem_concat_self, already, timedOut⟩
    rcases failed with timedOut | member
    · exact now timedOut
    rw [toldIn_append, toldIn_singleton, List.append_assoc] at member
    rcases List.mem_append.mp member with old | new
    · exact earlier (Or.inr (List.mem_append_left _ old))
    rcases deed.told_timedOut new with old | timedOut
    · exact earlier (Or.inr (List.mem_append_right _ old))
    · exact now timedOut

/-- Nothing is sent again before the first timeout has passed since the time that the stream had last handed
on as it sent the segment first; so if that was the time of this moment, not before the first timeout less
one millisecond has passed by the clock. A connection gives up only as it sends a segment again once too
often. Every request goes on with the life of the stream, so this holds whatever is asked of it. -/
theorem resends_wait (lived : Lived moments st clock) :
    (∀ earlier m later, moments = earlier ++ m :: later →
      (∀ o, m.Resends o → ∃ first ∈ earlier, first.Sends o.endSeqno ∧
        first.after.lastTick + st.config.connection.timeout ≤ st.epoch.millis m.clock ∧
        (first.after.lastTick = st.epoch.millis first.clock →
          first.clock + (st.config.connection.timeout - 1) * 1000 ≤ m.clock)) ∧
      (m.GivesUp → ∃ o, m.Resends o ∧ st.config.connection.maxResends ≤ o.resends)) ∧
    (.failed .timedOut ∈ toldIn moments ++ st.events → ∃ m ∈ moments, m.GivesUp) ∧
    ∀ host request events after host', host.clock = clock →
      st.ask host request = .ok (events, after, host') →
      ∃ more, Lived (moments ++ more) after host'.clock ∧ toldIn more = events := by
  refine ⟨fun earlier m later split => ?_, fun member => lived.gives_up (Or.inr member), ?_⟩
  · obtain ⟨due, gives_up⟩ := lived.due.2 earlier m later split
    refine ⟨fun o resends => ?_, gives_up⟩
    obtain ⟨first, member, sends, left⟩ := due o resends
    obtain ⟨gained, ran⟩ := lived.ran
    have positive := (Config.validate_eq_ok_iff.mp ran.caughtUp.valid).2
    exact ⟨first, member, sends, left, fun handed => Epoch.add_le_of_millis positive (handed ▸ left)⟩
  · rintro host request events after host' rfl asks
    exact lived.ask asks

def knock : Net.Arrival :=
  ⟨0, ⟨.v4 10 0 0 9, 9000⟩, Segment.toFrame { syn := true, seqno := ⟨5000⟩, window := 100 }⟩

def stationAt (clock : Nat) : Net.Host := { station [] with clock }

theorem lived_over_knock {opened aged : Nat} {answering later : UdpStream} {host host' : Net.Host}
    (arrives : inn.handleArrival (stationAt opened) knock = .ok (answering, host))
    (ages : answering.passTime (stationAt aged) = .ok (later, host')) (past : opened ≤ aged) :
    Lived [⟨opened, inn, [], answering⟩, ⟨aged, answering, [], later⟩] later aged := by
  have waiting : Lived [] inn (stationAt opened).clock := lived_inn.waits (Nat.zero_le _)
  have answered : Lived _ answering (stationAt aged).clock := (waiting.acts (.arrives arrives)).waits past
  exact answered.acts (.ages ages)

theorem resent_after_wait : ∃ first m st o, Lived [first, m] st 1000000 ∧ first.clock = 0 ∧
    first.Sends o.endSeqno ∧ m.Resends o ∧ first.clock + 999 * 1000 ≤ m.clock := by
  have seen : ∃ answering ∈ (inn.handleArrival (stationAt 0) knock).toOption,
      ∃ later ∈ (answering.1.passTime (stationAt 1000000)).toOption,
      answering.1.lastTick = 0 ∧ later.1.epoch.base = 0 ∧ later.1.config.connection.timeout = 1000 ∧
      ∃ c ∈ answering.1.connection, ∃ c' ∈ later.1.connection, ∃ o ∈ c.sender.outstanding,
        ∃ again ∈ c'.sender.outstanding, again.endSeqno = o.endSeqno ∧ o.resends < again.resends := by
    decide +kernel
  obtain ⟨⟨answering, host⟩, arrives, ⟨later, host'⟩, ages, handed, base, timeout, c, found, c', found', o,
    member, again⟩ := seen
  have lived := lived_over_knock (mem_toOption.mp arrives) (mem_toOption.mp ages) (Nat.zero_le _)
  have resends : Moment.Resends ⟨1000000, answering, [], later⟩ o := ⟨c, c', found, found', member, again⟩
  obtain ⟨first, earlier, sends, -, waits⟩ :=
    ((resends_wait lived).1 [_] _ [] rfl).1 o resends
  obtain rfl := List.mem_singleton.mp earlier
  rw [timeout] at waits
  refine ⟨_, _, later, o, lived, rfl, sends, resends, waits ?_⟩
  simp only at handed base ⊢
  rw [handed, Epoch.millis, base]

/-- Nothing was handed on for one second when the SYN comes: the answer is sent again in the same instant. -/
theorem resent_at_once : ∃ first m st o, Lived [first, m] st 1000000 ∧
    st.config.connection.timeout = 1000 ∧ first.Sends o.endSeqno ∧ m.Resends o ∧
    m.clock = first.clock := by
  have seen : ∃ answering ∈ (inn.handleArrival (stationAt 1000000) knock).toOption,
      ∃ later ∈ (answering.1.passTime (stationAt 1000000)).toOption,
      later.1.config.connection.timeout = 1000 ∧ answering.1.sentUpTo = 1 ∧
      ∃ c ∈ answering.1.connection, ∃ c' ∈ later.1.connection, ∃ o ∈ c.sender.outstanding,
        o.endSeqno = 1 ∧
        ∃ again ∈ c'.sender.outstanding, again.endSeqno = o.endSeqno ∧ o.resends < again.resends := by
    decide +kernel
  obtain ⟨⟨answering, host⟩, arrives, ⟨later, host'⟩, ages, timeout, sent, c, found, c', found', o, member,
    number, again⟩ := seen
  have lived := lived_over_knock (mem_toOption.mp arrives) (mem_toOption.mp ages) (Nat.le_refl _)
  refine ⟨_, _, later, o, lived, timeout, ?_, ⟨c, c', found, found', member, again⟩, rfl⟩
  rw [number]
  exact ⟨Nat.zero_lt_one, Nat.le_of_eq sent.symm⟩

end UdpStream
end TcpStack

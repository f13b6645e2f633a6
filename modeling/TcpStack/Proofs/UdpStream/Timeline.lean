import TcpStack.Proofs.UdpStream.History

/-! The life of a stream, moment by moment. A stream is made by listening or connecting; after that it may act
at any time, at a host that may be in any state but whose clock does not go back. What it does then is
nothing, or one call on its connection, after which it sends what the connection has queued and, if it was a
segment or time that came, tells what there is to tell. -/

namespace TcpStack

namespace Connection

def ends (c : Connection) : Bool := c.inbound.ended && !c.inbound.failed

def Call.byHand : Call → Bool
  | .connect | .write _ | .finish | .abort => true
  | .segment _ | .tick _ | .inbound _ => false

end Connection

namespace UdpStream

open Outcome

variable {handed told : List Event} {gained : Bytes} {st base after : UdpStream} {c : Connection}
  {host host' : Net.Host} {moments : List Moment} {clock : Nat}
  {call : Connection.Call}

def news (st : UdpStream) (c : Connection) : List Event :=
  (if !st.connectTold && isOpen c.summary then [.connected] else []) ++
    (if c.inbound.isEmpty then [] else [.received c.inbound.toList]) ++
    (if !st.disconnectTold && c.ends then [.disconnected] else []) ++
    (if st.failureTold then [] else c.cause.toList.map Event.failed)

def telling (st : UdpStream) (c : Connection) (output : ByteStream) : UdpStream :=
  { st with
    connection := some (c.withInbound output)
    connectTold := st.connectTold || isOpen c.summary
    disconnectTold := st.disconnectTold || c.ends
    failureTold := st.failureTold || c.cause.isSome
    events := st.events ++ st.news c }

theorem TakesOut.drops {c' : Connection} (takesOut : TakesOut c told c') (sound : c.inbound.Sound) :
    ∃ output, c.inbound.Drops c.inbound.size output ∧ c' = c.withInbound output ∧
      told = if c.inbound.isEmpty then [] else [.received c.inbound.toList] := by
  cases takesOut with
  | nothing empty =>
    have size_eq : c.inbound.size = 0 := beq_iff_eq.mp empty
    refine ⟨c.inbound, ?_, rfl, (if_pos empty).symm⟩
    rw [size_eq]
    exact ⟨rfl, rfl, rfl, by simp, rfl, rfl, sound⟩
  | bytes full reads =>
    obtain ⟨rfl, drops⟩ := ByteStream.read_drops sound reads
    refine ⟨_, drops, rfl, ?_⟩
    rw [full, if_neg Bool.false_ne_true, ← ByteStream.length_toList, List.take_length]

theorem Informs.telling_eq (informs : Informs st c after) (sound : c.inbound.Sound) :
    ∃ output, c.inbound.Drops c.inbound.size output ∧ after = st.telling c output := by
  cases informs with
  | informs takesOut =>
    obtain ⟨output, drops, rfl, rfl⟩ := takesOut.drops sound
    refine ⟨output, drops, ?_⟩
    have empty : output.isEmpty = true := by
      have none : output.toList = [] := by
        rw [drops.toList_eq, ← ByteStream.length_toList, List.drop_length]
      exact beq_iff_eq.mpr ((ByteStream.length_toList _).symm.trans (congrArg List.length none))
    have ends_eq : ((c.withInbound output).inbound.atEnd && !(c.withInbound output).inbound.failed) = c.ends := by
      change (output.ended && output.isEmpty && !output.failed) = _
      rw [empty, Bool.and_true, drops.ended_eq, drops.failed_eq]
      rfl
    rw [ends_eq]
    unfold telling news
    simp only [List.append_assoc]
    rfl

/-- What comes from outside: the stream it comes to, its connection, and the call that this makes. -/
inductive Comes (st : UdpStream) (clock : Nat) : UdpStream → Connection → Connection.Call → Prop
  | segment {c : Connection} {segment : Segment} (found : st.connection = some c) :
      Comes st clock st c (.segment segment)
  | opening {c : Connection} {segment : Segment} {source : Net.Address} (alone : st.connection = none)
      (syn : segment.syn = true) (made : st.newConnection source clock = .ok c) :
      Comes st clock { st with peer := some source } c (.segment segment)
  | time {c : Connection} {elapsed : Nat} (found : st.connection = some c)
      (passed : st.lastTick + elapsed = st.epoch.millis clock) :
      Comes st clock { st with lastTick := st.epoch.millis clock } c (.tick elapsed)

inductive Deed (st : UdpStream) (clock : Nat) : (told : List Event) → UdpStream → Prop
  | nothing : Deed st clock [] st
  | idles (alone : st.connection = none) :
      Deed st clock [] { st with lastTick := st.epoch.millis clock }
  | hands {event : Event} {rest : List Event} (next : st.events = event :: rest) :
      Deed st clock [event] { st with events := rest }
  | opens {c c' : Connection} {peer : Net.Address} {count : Nat} (alone : st.connection = none)
      (made : st.newConnection peer clock = .ok c)
      (performs : (c.perform .connect).result = .ok (c', .done)) :
      Deed st clock [] { st with
        peer := some peer, connection := some { c' with queued := c'.queued.drop count } }
  | sends {c c' : Connection} {call : Connection.Call} {reply : Reply} {count : Nat}
      (found : st.connection = some c) (byHand : call.byHand = true)
      (performs : (c.perform call).result = .ok (c', reply)) :
      Deed st clock [] { st with connection := some { c' with queued := c'.queued.drop count } }
  | tells {base : UdpStream} {c c' : Connection} {call : Connection.Call} {reply : Reply} {count : Nat}
      {output : ByteStream} (comes : Comes st clock base c call)
      (performs : (c.perform call).result = .ok (c', reply))
      (drops : c'.inbound.Drops c'.inbound.size output) :
      Deed st clock [] (base.telling { c' with queued := c'.queued.drop count } output)

theorem CaughtUp.reachable (caughtUp : CaughtUp handed gained st) (found : st.connection = some c) :
    c.Reachable ByteStream.Call.reads :=
  (caughtUp.narrates c found).1.reachable

theorem CaughtUp.reachable_of_new (caughtUp : CaughtUp handed gained st)
    (alone : st.connection = none) {peer : Net.Address}
    (made : st.newConnection peer clock = .ok c) : c.Reachable ByteStream.Call.reads :=
  (caughtUp.opens alone made).1.reachable

theorem Comes.reachable (comes : Comes st clock base c call) (caughtUp : CaughtUp handed gained st) :
    c.Reachable ByteStream.Call.reads := by
  cases comes with
  | segment found | time found => exact caughtUp.reachable found
  | opening alone _ made => exact caughtUp.reachable_of_new alone made

theorem Comes.within (comes : Comes st clock base c call) (allows : ByteStream.Call → Bool) :
    call.within allows = true := by
  cases comes with
  | segment | opening | time => rfl

theorem CaughtUp.deed_of_settles (caughtUp : CaughtUp handed gained st) (comes : Comes st host.clock base c call)
    (settles : Settles base host c call after host') : Deed st host.clock [] after := by
  cases settles with
  | @settles c' _ _ _ performs _ informs =>
    have reachable := (comes.reachable caughtUp).called (comes.within _) performs
    obtain ⟨count, emptied⟩ := emptied_eq_drop base c'
    rw [emptied] at informs
    obtain ⟨output, drops, rfl⟩ := informs.telling_eq reachable.settled.intact.inbound
    have told : Deed st host.clock [] (base.telling { c' with queued := c'.queued.drop count } output) :=
      .tells comes performs drops
    exact told

theorem CaughtUp.deed_of_arrival (caughtUp : CaughtUp handed gained st) {arrival : Net.Arrival}
    (h : st.handleArrival host arrival = .ok (after, host')) : Deed st host.clock [] after := by
  cases handleArrival_handles h with
  | drops => exact .nothing
  | handles frame handles =>
    cases handles with
    | ignores | waits => exact .nothing
    | opens _ alone knock made settles =>
      have syn := (Bool.and_eq_true_iff.mp (Bool.and_eq_true_iff.mp knock).1).1
      exact caughtUp.deed_of_settles (.opening alone syn made) settles
    | passes _ found settles => exact caughtUp.deed_of_settles (.segment found) settles

theorem CaughtUp.deed_of_time (caughtUp : CaughtUp handed gained st)
    (h : st.passTime host = .ok (after, host')) : Deed st host.clock [] after := by
  cases passTime_passes h with
  | stands => exact .nothing
  | idles _ alone => exact .idles alone
  | ages later found settles =>
    exact caughtUp.deed_of_settles (.time found (Nat.add_sub_of_le (Nat.le_of_lt later))) settles

theorem deed_of_obeys (byHand : call.byHand = true) (obeys : Obeys st host call after host') :
    Deed st host.clock [] after := by
  cases obeys with
  | idles => exact .nothing
  | sends found sends =>
    cases sends with
    | @sends c' _ _ performs =>
      obtain ⟨count, emptied⟩ := emptied_eq_drop st c'
      rw [emptied]
      exact .sends found byHand performs

theorem CaughtUp.deed (caughtUp : CaughtUp handed gained st) (acts : st.Acts host told after) :
    Deed st host.clock told after := by
  cases acts with
  | arrives h => exact caughtUp.deed_of_arrival h
  | ages h => exact caughtUp.deed_of_time h
  | hands next => exact .hands next
  | writes h => exact deed_of_obeys rfl (write_obeys h)
  | finishes h => exact deed_of_obeys rfl (finish_obeys h)
  | aborts h => exact deed_of_obeys rfl (abort_obeys h)

theorem deed_of_opening {peer : Net.Address} (alone : st.connection = none)
    (h : st.opening peer host = .ok (after, host')) : Deed st host.clock [] after := by
  obtain ⟨c, made, sends⟩ := opening_sends h
  cases sends with
  | @sends c' _ _ performs =>
    obtain ⟨count, emptied⟩ := emptied_eq_drop { st with peer := some peer } c'
    rw [emptied]
    obtain ⟨_, does⟩ := Connection.perform_eq_ok_iff.mp performs
    cases does with
    | connects => exact .opens alone made performs

/-- The life of a stream: how it was made, and all that it did up to now. -/
inductive Lived : (moments : List Moment) → UdpStream → (clock : Nat) → Prop
  | listens {config : StreamConfig} {address : Net.Address} {host host' : Net.Host} {st : UdpStream}
      (binds : bindAt config address host = .ok (st, host')) : Lived [] st host'.clock
  | connects {config : StreamConfig} {peer : Net.Address} {host host' last : Net.Host}
      {bound st : UdpStream} (binds : bindAt config ⟨peer.ip.unspecified, 0⟩ host = .ok (bound, host'))
      (opens : bound.opening peer host' = .ok (st, last)) :
      Lived [⟨host'.clock, bound, [], st⟩] st host'.clock
  | waits {moments : List Moment} {st : UdpStream} {before now : Nat} (lived : Lived moments st before)
      (later : before ≤ now) : Lived moments st now
  | acts {moments : List Moment} {st after : UdpStream} {host : Net.Host} {told : List Event}
      (lived : Lived moments st host.clock) (acts : st.Acts host told after) :
      Lived (moments ++ [⟨host.clock, st, told, after⟩]) after host.clock

theorem Lived.ran (lived : Lived moments st clock) : ∃ gained, Ran (toldIn moments) gained st := by
  induction lived with
  | listens binds => exact ⟨[], .listens binds⟩
  | connects binds opens => exact ⟨[], .connects binds opens⟩
  | waits _ _ ih => exact ih
  | acts _ acts ih =>
    obtain ⟨gained, ran⟩ := ih
    obtain ⟨more, reached⟩ := ran.acts acts
    exact ⟨_, by rwa [toldIn_append, toldIn_singleton]⟩

theorem Lived.induct {P : List Moment → UdpStream → Nat → Prop} (lived : Lived moments st clock)
    (bound : ∀ config address host st host', bindAt config address host = .ok (st, host') →
      P [] st host'.clock)
    (waits : ∀ moments st before now, before ≤ now → P moments st before → P moments st now)
    (deed : ∀ moments gained st clock told after, CaughtUp (toldIn moments) gained st →
      Deed st clock told after → P moments st clock →
      P (moments ++ [⟨clock, st, told, after⟩]) after clock) : P moments st clock := by
  induction lived with
  | listens binds => exact bound _ _ _ _ _ binds
  | connects binds opens =>
    obtain ⟨caughtUp, alone⟩ := caughtUp_of_bindAt binds
    exact deed [] [] _ _ _ _ caughtUp (deed_of_opening alone opens) (bound _ _ _ _ _ binds)
  | waits _ later ih => exact waits _ _ _ _ later ih
  | acts lived acts ih =>
    obtain ⟨gained, ran⟩ := lived.ran
    exact deed _ gained _ _ _ _ ran.caughtUp (ran.caughtUp.deed acts) ih

theorem lived_of_listen {config : StreamConfig} {names : List String}
    (h : listen config names host = .ok (st, host')) : Lived [] st host'.clock := by
  obtain ⟨_, binds⟩ := listen_eq_ok h
  exact .listens binds

theorem lived_of_connect {config : StreamConfig} {names : List String}
    (h : connect config names host = .ok (.ok (st, host'))) :
    ∃ bound, Lived [⟨host'.clock, bound, [], st⟩] st host'.clock := by
  obtain ⟨_, bound, _, binds, opens⟩ := connect_eq_ok h
  obtain ⟨-, alone⟩ := caughtUp_of_bindAt binds
  rw [(opening_effect alone opens).clock_eq]
  exact ⟨bound, .connects binds opens⟩

theorem Lived.ask {request : Request} {events : List Event} (lived : Lived moments st host.clock)
    (h : st.ask host request = .ok (events, after, host')) :
    ∃ more, Lived (moments ++ more) after host'.clock ∧ toldIn more = events := by
  obtain ⟨more, goes, told_eq⟩ := ask_leads h
  refine ⟨more, ?_, told_eq⟩
  clear h told_eq
  generalize host'.clock = now at goes
  induction goes with
  | rests => rwa [List.append_nil]
  | waits _ later ih => exact ih.waits later
  | acts _ acts ih =>
    rw [← List.append_assoc]
    exact ih.acts acts

theorem lived_inn : Lived [] inn 0 := by
  have binds : bindAt { connection := { capacity := 8, isn := some ⟨1000⟩ } } ⟨.v4 10 0 0 1, 4000⟩
      { limit := 0, key := [] } = .ok (inn, station []) := rfl
  exact .listens binds

end UdpStream
end TcpStack

import Mathlib.Data.List.Forall2
import TcpStack.Proofs.Connection.Handover
import TcpStack.Proofs.UdpStream.Sound

/-! What a stream sends. Whatever is asked of it, all that its connection has queued goes out before the answer, one
datagram for each segment and in the order of the queue. Of each call on the connection it is told what that asked of
the sender, so that nothing which was said can get lost on the way. -/

namespace TcpStack

namespace Connection

variable {first middle last : Connection} {calls more : List Call} {said others : List Segment}

/-- The connection was called in this way, one call after the other. What its sender said at each was handed over and
has left the queue; then what had come in may have been read. -/
inductive Undergoes (first : Connection) : List Call → (said : List Segment) → Connection → Prop
  | start : Undergoes first [] [] first
  | called {calls : List Call} {said : List Segment} {c after last : Connection} {call : Call} {reply : Reply}
      {asked : List Sender.Call} (before : Undergoes first calls said c) (does : Does c call asked after reply)
      (handsOver : HandsOver c asked after.queued after) (reads : Reads { after with queued := [] } last) :
      Undergoes first (calls ++ [call]) (said ++ after.queued) last

theorem Undergoes.trans (before : Undergoes first calls said middle) (behind : Undergoes middle more others last) :
    Undergoes first (calls ++ more) (said ++ others) last := by
  induction behind with
  | start => rwa [List.append_nil, List.append_nil]
  | called _ does handsOver reads ih =>
    rw [← List.append_assoc, ← List.append_assoc]
    exact ih.called does handsOver reads

end Connection

namespace UdpStream

open Outcome

variable {st middle after : UdpStream} {c c' : Connection} {host between host' : Net.Host} {moments : List Moment}
  {clock : Nat} {calls more : List Connection.Call} {said others : List Segment}

/-- What became of the connection of a stream by these calls, and what it said. A stream that had none may have a new
one. -/
inductive Carries (st : UdpStream) : List Connection.Call → (said : List Segment) → UdpStream → Prop
  | alone {after : UdpStream} (alone : st.connection = none) (alone' : after.connection = none) :
      Carries st [] [] after
  | onward {after : UdpStream} {c c' : Connection} {calls : List Connection.Call} {said : List Segment}
      (found : st.connection = some c) (undergoes : c.Undergoes calls said c')
      (found' : after.connection = some c') : Carries st calls said after
  | opens {after : UdpStream} {c c' : Connection} {peer : Net.Address} {clock : Nat}
      {calls : List Connection.Call} {said : List Segment} (alone : st.connection = none)
      (made : st.newConnection peer clock = .ok c) (undergoes : c.Undergoes calls said c')
      (found' : after.connection = some c') : Carries st calls said after

/-- The datagram goes to the peer with this segment, and at some time in between. -/
def Encloses (st after : UdpStream) (first last : Nat) (datagram : Net.Datagram) (segment : Segment) : Prop :=
  ∃ peer clock, after.peer = some peer ∧ first ≤ clock ∧ clock ≤ last ∧ datagram = st.envelope peer clock segment

/-- The stream has made these calls on its connection, and all that was said to them has gone out, unless sending is
made to fail. -/
structure Ships (st : UdpStream) (host : Net.Host) (calls : List Connection.Call) (said : List Segment)
    (after : UdpStream) (host' : Net.Host) : Prop where
  sound : Sound after
  remains : Remains st after
  stays : st.connection ≠ none → after.connection ≠ none ∧ after.peer = st.peer
  carries : Carries st calls said after
  failing_eq : host'.failing = host.failing
  later : host.clock ≤ host'.clock
  posts : ∃ posted, host'.sent = host.sent ++ posted ∧ (host.failing.send = true → posted = []) ∧
    (host.failing.send = false → List.Forall₂ (st.Encloses after host.clock host'.clock) posted said)

theorem Remains.newConnection_eq (remains : Remains st middle) (peer : Net.Address) (clock : Nat) :
    middle.newConnection peer clock = st.newConnection peer clock := by
  unfold newConnection
  rw [remains.config, remains.key, remains.home, remains.epoch]

theorem Remains.envelope_eq (remains : Remains st middle) (peer : Net.Address) (clock : Nat) (segment : Segment) :
    middle.envelope peer clock segment = st.envelope peer clock segment := by
  unfold envelope
  rw [remains.home]

theorem carries_of_same (same : after.connection = st.connection) : Carries st [] [] after := by
  rcases Option.eq_none_or_eq_some st.connection with alone | ⟨c, found⟩
  · exact .alone alone (same.trans alone)
  · exact .onward found .start (same.trans found)

theorem Meets.carries {peer : Option Net.Address} (meets : Meets st clock peer c)
    (undergoes : c.Undergoes calls said c') (found : after.connection = some c') : Carries st calls said after := by
  cases meets with
  | known found' => exact .onward found' undergoes found
  | opens alone made => exact .opens alone made undergoes found

theorem Carries.trans (first : Carries st calls said middle) (remains : Remains st middle)
    (second : Carries middle more others after) : Carries st (calls ++ more) (said ++ others) after := by
  cases first with
  | alone alone alone' =>
    cases second with
    | alone _ alone'' => exact .alone alone alone''
    | onward found => cases alone'.symm.trans found
    | opens _ made undergoes found' =>
      exact .opens alone (remains.newConnection_eq _ _ ▸ made) undergoes found'
  | onward found undergoes found' =>
    cases second with
    | alone alone | opens alone => cases alone.symm.trans found'
    | onward found'' undergoes' last =>
      obtain rfl := Option.some.inj (found'.symm.trans found'')
      exact .onward found (undergoes.trans undergoes') last
  | opens alone made undergoes found' =>
    cases second with
    | alone alone | opens alone => cases alone.symm.trans found'
    | onward found'' undergoes' last =>
      obtain rfl := Option.some.inj (found'.symm.trans found'')
      exact .opens alone made (undergoes.trans undergoes') last

theorem Carries.connected (carries : Carries st calls said after) (some : said ≠ []) : after.connection ≠ none := by
  cases carries with
  | alone => exact absurd rfl some
  | onward _ _ found' | opens _ _ _ found' => simp [found']

theorem ships_of_same (sound : Sound after) (remains : Remains st after)
    (connection : after.connection = st.connection) (peer : after.peer = st.peer)
    (sent_eq : host'.sent = host.sent) (failing_eq : host'.failing = host.failing)
    (later : host.clock ≤ host'.clock) : Ships st host [] [] after host' := by
  refine ⟨sound, remains, fun found => ⟨connection ▸ found, peer⟩, carries_of_same connection, failing_eq, later,
    [], ?_, fun _ => rfl, fun _ => .nil⟩
  rw [sent_eq, List.append_nil]

theorem Ships.trans (first : Ships st host calls said middle between)
    (second : Ships middle between more others after host') :
    Ships st host (calls ++ more) (said ++ others) after host' := by
  have stays (found : st.connection ≠ none) : after.connection ≠ none ∧ after.peer = st.peer := by
    obtain ⟨found', peer⟩ := first.stays found
    obtain ⟨found'', peer'⟩ := second.stays found'
    exact ⟨found'', peer'.trans peer⟩
  refine ⟨second.sound, first.remains.trans second.remains, stays, first.carries.trans first.remains second.carries,
    second.failing_eq.trans first.failing_eq, Nat.le_trans first.later second.later, ?_⟩
  obtain ⟨posted, sent_eq, broken, whole⟩ := first.posts
  obtain ⟨posted', sent_eq', broken', whole'⟩ := second.posts
  rw [first.failing_eq] at broken' whole'
  refine ⟨posted ++ posted', ?_, fun fails => ?_, fun works => ?_⟩
  · rw [sent_eq', sent_eq, List.append_assoc]
  · rw [broken fails, broken' fails]
    rfl
  refine List.rel_append ?_ ((whole' works).imp fun _ _ encloses => ?_)
  · rcases eq_or_ne said [] with rfl | some
    · cases whole works
      exact .nil
    · refine (whole works).imp fun _ _ encloses => ?_
      obtain ⟨peer, clock, known, early, late, rfl⟩ := encloses
      have kept := (second.stays (first.carries.connected some)).2
      exact ⟨peer, clock, kept.trans known, early, Nat.le_trans late second.later, rfl⟩
  · obtain ⟨peer, clock, known, early, late, rfl⟩ := encloses
    exact ⟨peer, clock, known, Nat.le_trans first.later early, late, first.remains.envelope_eq _ _ _⟩

theorem Effect.ships (effect : Effect st host calls after host') (sound : Sound st) :
    ∃ said, Ships st host calls said after host' := by
  have remains := effect.remains
  have sound' := effect.sound sound
  have stays (found : st.connection ≠ none) := effect.peer_eq found
  cases effect with
  | rests _ _ connection peer keeps =>
    refine ⟨[], ships_of_same sound' remains connection peer ?_ keeps.failing_eq (Nat.le_of_eq keeps.clock_eq.symm)⟩
    rw [keeps.sent_eq, List.append_nil]
  | @calls _ _ c c' c'' call reply _ ages meets within performs found reads keeps =>
    obtain ⟨reachable, -, -, flushed, known⟩ := sound.meets meets
    obtain ⟨peer, peer_eq⟩ := Option.ne_none_iff_exists'.mp known
    rw [emptied_of_known c' known] at reads
    obtain ⟨_, does⟩ := Connection.perform_eq_ok_iff.mp performs
    obtain ⟨-, handsOver, queued_eq⟩ := does.handsOver reachable
    rw [flushed, List.nil_append] at queued_eq
    rw [← queued_eq] at handsOver
    have undergoes : c.Undergoes [call] c'.queued c'' := Connection.Undergoes.start.called does handsOver reads
    refine ⟨_, sound', remains, fun found' => ⟨by simp [found], stays found'⟩, meets.carries undergoes found,
      keeps.failing_eq, Nat.le_of_eq keeps.clock_eq.symm, _, keeps.sent_eq, fun fails => ?_, fun works => ?_⟩
    · simp [posts, peer_eq, fails]
    · rw [posts, peer_eq]
      simp only [works, Bool.false_eq_true, if_false]
      refine List.forall₂_map_left_iff.mpr (List.forall₂_same.mpr fun segment _ => ?_)
      exact ⟨peer, host.clock, peer_eq, Nat.le_refl _, Nat.le_of_eq keeps.clock_eq.symm,
        remains.envelope_eq peer host.clock segment⟩

theorem ships_of_host (sound : Sound st) (sent_eq : host'.sent = host.sent)
    (failing_eq : host'.failing = host.failing) (later : host.clock ≤ host'.clock) : Ships st host [] [] st host' :=
  ships_of_same sound (.refl st) rfl rfl sent_eq failing_eq later

theorem follows_ships :
    Follows fun st host _ calls after host' => Sound st → ∃ said, Ships st host calls said after host' where
  rests _ _ sound := ⟨[], ships_of_host sound rfl rfl (Nat.le_refl _)⟩
  trans first second sound := by
    obtain ⟨said, ships⟩ := first sound
    obtain ⟨others, ships'⟩ := second ships.sound
    exact ⟨said ++ others, ships.trans ships'⟩
  waits h sound := by
    have later := Net.Host.clock_le_of_wait h
    have same := (Net.Host.wait_wakes h).eq
    exact ⟨[], ships_of_host sound (by rw [same]) (by rw [same]) later⟩
  takes h sound := by
    obtain ⟨_, -, receives⟩ := Net.Host.receiveDue_receives h
    have same := receives.left_eq
    exact ⟨[], ships_of_host sound (by rw [same]) (by rw [same]) (by rw [same])⟩
  arrives h := (handleArrival_effect h).ships
  ages h := (passTime_effect h).ships
  hands {st host} _ _ _ := (hands_effect st host _).ships
  writes h := (write_effect h).ships
  finishes h := (finish_effect h).ships
  aborts h := (abort_effect h).ships

def callsOfDrop (st : UdpStream) : List Connection.Call := if st.active then st.callsOf .abort else []

theorem drop_ships (sound : Sound st) (h : st.drop host = .ok host') :
    ∃ said after, Ships st host st.callsOfDrop said after host' := by
  have parted (after : UdpStream) (between : Net.Host) (sound : Sound after) (notices : List Notice) :
      Ships after between [] [] after ((notices.foldl Net.Host.note between).close after.socket) := by
    have notes := Net.Host.foldl_note_keeps between notices
    exact ships_of_host sound (notes.sent_eq.trans (List.append_nil _)) notes.failing_eq
      (Nat.le_of_eq notes.clock_eq.symm)
  unfold UdpStream.drop at h
  unfold callsOfDrop
  by_cases active : st.active = true
  · simp only [if_pos active, bind_eq_ok, pure_eq_ok] at h ⊢
    obtain ⟨⟨after, between⟩, aborts, rfl⟩ := h
    obtain ⟨said, ships⟩ := (abort_effect aborts).ships sound
    refine ⟨said, after, ?_⟩
    rw [← List.append_nil (st.callsOf .abort), ← List.append_nil said]
    exact ships.trans (parted after between ships.sound _)
  · simp only [if_neg active, pure_bind, pure_eq_ok] at h ⊢
    subst h
    exact ⟨_, st, parted st host sound _⟩

theorem connect_ships {config : StreamConfig} {names : List String}
    (h : connect config names host = .ok (.ok (st, host'))) : ∃ bound between said, bound.connection = none ∧
      between.sent = host.sent ∧ between.failing = host.failing ∧ Ships bound between [.connect] said st host' := by
  obtain ⟨_, bound, between, binds, opens⟩ := connect_eq_ok h
  obtain ⟨sound, alone, -⟩ := sound_of_bindAt binds
  obtain ⟨said, ships⟩ := (opening_effect alone opens).ships sound
  obtain ⟨-, -, _, -, rfl⟩ := bindAt_eq_ok binds
  refine ⟨bound, _, said, alone, ?_, ?_, ships⟩
  · rfl
  · rfl

/-- Nothing that was said stays behind. Whatever is called, the sender of a connection is left with nothing, and what
it said when it was asked, and it is settled what that is, has been queued in order, or an RST in its place; a segment
that takes numbers is always answered. Whatever is asked of a stream, its connection is left with nothing. It is
settled which calls on the connection that comes to, and what was queued at each has gone out in order, one datagram
with each segment, unless sending is made to fail: so it is when the stream connects, all its life, and when it is
thrown away. -/
theorem nothing_stranded :
    (∀ allows c, Connection.Reachable allows c → c.sender.queued = [] ∧
      ∀ call after reply, (c.perform call).result = .ok (after, reply) → ∃ asked,
        Connection.Does c call asked after reply ∧
        (∀ other last answer, Connection.Does c call other last answer → other = asked) ∧
        after.sender.queued = [] ∧
        after.queued = c.queued ++ (c.event call after reply).queued ∧
        Connection.HandsOver c asked (c.event call after reply).queued after ∧
        ∀ segment, call = .segment segment → c.synchronized = true → segment.rst = false →
          0 < segment.sequenceLength → after.active = true → (c.event call after reply).queued ≠ []) ∧
    (∀ moments st (host : Net.Host), Lived moments st host.clock →
      (∀ c, st.connection = some c → c.queued = [] ∧ c.sender.queued = []) ∧
      (∀ request told after host', st.ask host request = .ok (told, after, host') →
        ∃ more calls said, Lived (moments ++ more) after host'.clock ∧
          Serves st host request told calls after host' ∧
          (∀ events others last there, Serves st host request events others last there → others = calls) ∧
          Ships st host calls said after host') ∧
      ∀ host', st.drop host = .ok host' → ∃ said after, Ships st host st.callsOfDrop said after host') ∧
    ∀ config names host st host', connect config names host = .ok (.ok (st, host')) →
      ∃ moments bound between said, Lived moments st host'.clock ∧ bound.connection = none ∧
        between.sent = host.sent ∧ between.failing = host.failing ∧
        Ships bound between [.connect] said st host' := by
  refine ⟨fun allows c reachable => ⟨reachable.sender.2, fun call after reply performs => ?_⟩,
    fun moments st host lived => ⟨fun c found => ?_, fun request told after host' asks => ?_, fun host' drops => ?_⟩,
    fun config names host st host' connects => ?_⟩
  · obtain ⟨asked, does⟩ := Connection.perform_eq_ok_iff.mp performs
    obtain ⟨empty, handsOver, queued_eq⟩ := does.handsOver reachable
    refine ⟨asked, does, fun _ _ _ again => again.asked_eq does, empty, queued_eq, handsOver, ?_⟩
    rintro segment rfl known plain some active
    exact does.answers reachable known plain some active
  · have runs := lived.sound.1.runs c found
    exact ⟨runs.flushed, runs.reachable.sender.2⟩
  · obtain ⟨more, lived', -⟩ := lived.ask asks
    obtain ⟨calls, serves⟩ := ask_serves asks
    obtain ⟨said, ships⟩ := follows_ships.serves serves lived.sound.1
    exact ⟨more, calls, said, lived', serves, fun _ _ _ _ again => again.calls_eq serves, ships⟩
  · exact drop_ships lived.sound.1 drops
  · obtain ⟨_, lived⟩ := lived_of_connect connects
    obtain ⟨bound, between, said, alone, sent_eq, failing_eq, ships⟩ := connect_ships connects
    exact ⟨_, bound, between, said, lived, alone, sent_eq, failing_eq, ships⟩

theorem answer_goes_out :
    (∃ told after host' calls datagram segment, inn.ask (station [knock]) .poll = .ok (told, after, host') ∧
      Serves inn (station [knock]) .poll told calls after host' ∧
      Ships inn (station [knock]) calls [segment] after host' ∧ host'.sent = [datagram] ∧
      datagram = inn.envelope knock.source 0 segment) ∧
    ∃ c after reply asked rst, Connection.Reachable ByteStream.Call.reads c ∧
      Connection.Does c (.tick 100) asked after reply ∧ after.sender.queued = [] ∧
      after.queued = c.queued ++ [rst] ∧ rst.rst = true ∧ Connection.HandsOver c asked [rst] after := by
  constructor
  · have seen : (fun (_, st, host) => (st.peer, host.clock, host.sent.length)) <$>
        inn.ask (station [knock]) .poll = .ok (some knock.source, 0, 1) := by
      decide +kernel
    obtain ⟨⟨told, after, host'⟩, asks, look⟩ := map_eq_ok.mp seen
    simp only [Prod.mk.injEq] at look
    obtain ⟨peer_eq, clock_eq, one⟩ := look
    obtain ⟨-, calls, said, -, serves, -, ships⟩ :=
      (nothing_stranded.2.1 [] inn (station [knock]) lived_inn).2.1 _ _ _ _ asks
    obtain ⟨posted, sent_eq, -, whole⟩ := ships.posts
    have sent_eq : host'.sent = posted := sent_eq
    have whole := whole rfl
    obtain ⟨datagram, only⟩ := List.length_eq_one_iff.mp one
    rw [← sent_eq, only] at whole
    obtain ⟨segment, none, encloses, nothing, rfl⟩ := List.forall₂_cons_left_iff.mp whole
    obtain ⟨peer, clock, known, -, late, rfl⟩ := encloses
    obtain rfl := List.forall₂_nil_left_iff.mp nothing
    obtain rfl := Option.some.inj (known.symm.trans peer_eq)
    rw [clock_eq, Nat.le_zero] at late
    exact ⟨told, after, host', calls, _, segment, asks, serves, ships, only, by rw [late]⟩
  · let config : Config := { capacity := 8, timeout := 100, maxResends := 0, isn := some ⟨1000⟩ }
    have seen : (do
        let c ← Connection.performAll (Connection.initial config ⟨1000⟩) [.connect]
        let last ← (c.perform (.tick 100)).result
        return (c.queued.length, last.1.queued.map fun segment => segment.rst) : Except Fault (Nat × List Bool)) =
        .ok (1, [false, true]) := by
      decide +kernel
    simp only [bind_eq_ok, pure_eq_ok] at seen
    obtain ⟨c, connects, ⟨after, reply⟩, performs, look⟩ := seen
    simp only [Prod.mk.injEq] at look
    obtain ⟨one, flags⟩ := look
    have opens : Connection.new? config ⟨1000⟩ = .ok (.ok (Connection.initial config ⟨1000⟩)) :=
      Connection.new?_eq_ok_iff.mpr ⟨rfl, by decide, by decide⟩
    have reachable : Connection.Reachable ByteStream.Call.reads c :=
      (Connection.Reachable.opened opens).performAll (by simp [Connection.Call.within]) connects
    obtain ⟨asked, does, -, empty, queued_eq, handsOver, -⟩ :=
      (nothing_stranded.1 _ c reachable).2 _ after reply performs
    obtain ⟨syn, waiting⟩ := List.length_eq_one_iff.mp one
    rw [queued_eq, waiting] at flags
    obtain ⟨-, flags⟩ := List.cons.inj flags
    obtain ⟨rst, only, flag⟩ := List.map_eq_singleton_iff.mp flags
    exact ⟨c, after, reply, asked, rst, reachable, does, empty, only ▸ queued_eq, flag, only ▸ handsOver⟩

end UdpStream
end TcpStack

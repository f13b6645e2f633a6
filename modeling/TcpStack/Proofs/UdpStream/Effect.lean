import TcpStack.Proofs.Connection.Ticking
import TcpStack.Proofs.UdpStream.Course

/-! What a stream does at its host, action by action. An action of a stream is at most one call on its connection;
what the call has queued goes out as datagrams, one for each segment, and what has come in is read. Nothing else
becomes of the host than that it has those datagrams, and some notices. -/

namespace TcpStack

namespace Connection

def Reads (c after : Connection) : Prop :=
  after = c ∨ ∃ length reply, (c.perform (.inbound (.read length))).result = .ok (after, reply)

end Connection

namespace UdpStream

open Outcome

/-- What a stream was made with has stayed. -/
structure Remains (st after : UdpStream) : Prop where
  config : after.config = st.config
  epoch : after.epoch = st.epoch
  key : after.key = st.key
  socket : after.socket = st.socket
  home : after.home = st.home

/-- The connection that a stream goes on with, and the peer it has then: its own, or a new one. -/
inductive Meets (st : UdpStream) (clock : Nat) : Option Net.Address → Connection → Prop
  | known {c : Connection} (found : st.connection = some c) : Meets st clock st.peer c
  | opens {c : Connection} {peer : Net.Address} (alone : st.connection = none)
      (made : st.newConnection peer clock = .ok c) : Meets st clock (some peer) c

/-- So much time at least has been handed on, and none that the clock does not show. -/
def Ages (st : UdpStream) (clock span : Nat) (after : UdpStream) : Prop :=
  st.lastTick + span ≤ after.lastTick ∧ after.lastTick ≤ max st.lastTick (st.epoch.millis clock)

/-- The calls on the connection that a segment comes to: one, if it counts. -/
def callsOfSegment (st : UdpStream) (segment : Segment) (source : Net.Address) : List Connection.Call :=
  if st.peer.any (· ≠ source) || st.connection.isNone && !knocks segment then [] else [.segment segment]

def callsOfArrival (st : UdpStream) (arrival : Net.Arrival) : List Connection.Call :=
  match Segment.ofFrame? arrival.bytes with
  | some segment => st.callsOfSegment segment arrival.source
  | none => []

/-- The calls that the time comes to: one, if a whole millisecond has passed. -/
def callsOfTime (st : UdpStream) (clock : Nat) : List Connection.Call :=
  if st.connection.isNone || st.epoch.millis clock = st.lastTick then []
  else [.tick (st.epoch.millis clock - st.lastTick)]

def callsOf (st : UdpStream) (call : Connection.Call) : List Connection.Call :=
  if st.connection.isSome then [call] else []

theorem segment_of_callsOfArrival {st : UdpStream} {arrival : Net.Arrival} {call : Connection.Call}
    (member : call ∈ st.callsOfArrival arrival) :
    ∃ segment, Segment.ofFrame? arrival.bytes = some segment ∧ call = .segment segment := by
  unfold callsOfArrival callsOfSegment at member
  cases frame : Segment.ofFrame? arrival.bytes with
  | none =>
    rw [frame] at member
    cases member
  | some segment =>
    simp only [frame, List.mem_ite_nil_left, List.mem_singleton] at member
    exact ⟨segment, rfl, member.2⟩

theorem tick_of_callsOfTime {st : UdpStream} {clock : Nat} {call : Connection.Call}
    (member : call ∈ st.callsOfTime clock) : ∃ elapsed, call = .tick elapsed := by
  simp only [callsOfTime, List.mem_ite_nil_left, List.mem_singleton] at member
  exact ⟨_, member.2⟩

/-- What an action makes of a stream and its host, by these calls on the connection. -/
inductive Effect (st : UdpStream) (host : Net.Host) : List Connection.Call → UdpStream → Net.Host → Prop
  | rests {after : UdpStream} {host' : Net.Host} (remains : Remains st after) (ages : Ages st host.clock 0 after)
      (connection : after.connection = st.connection) (peer : after.peer = st.peer) (keeps : host.Keeps [] host') :
      Effect st host [] after host'
  | calls {after : UdpStream} {host' : Net.Host} {c c' c'' : Connection} {call : Connection.Call} {reply : Reply}
      (remains : Remains st after) (ages : Ages st host.clock call.span after)
      (meets : Meets st host.clock after.peer c) (within : call.within ByteStream.Call.reads = true)
      (performs : (c.perform call).result = .ok (c', reply)) (found : after.connection = some c'')
      (reads : (after.emptied c').Reads c'') (keeps : host.Keeps (after.posts host c'.queued) host') :
      Effect st host [call] after host'

variable {st base after : UdpStream} {c c' : Connection} {host host' : Net.Host} {call : Connection.Call}
  {reply : Reply} {calls : List Connection.Call}

theorem Remains.refl (st : UdpStream) : Remains st st := ⟨rfl, rfl, rfl, rfl, rfl⟩

theorem Remains.trans {middle : UdpStream} (first : Remains st middle) (second : Remains middle after) :
    Remains st after :=
  ⟨second.config.trans first.config, second.epoch.trans first.epoch, second.key.trans first.key,
    second.socket.trans first.socket, second.home.trans first.home⟩

theorem Effect.remains (effect : Effect st host calls after host') : Remains st after := by
  cases effect with
  | rests remains | calls remains => exact remains

theorem Effect.keeps (effect : Effect st host calls after host') : ∃ posted, host.Keeps posted host' := by
  cases effect with
  | rests _ _ _ _ keeps | calls _ _ _ _ _ _ _ keeps => exact ⟨_, keeps⟩

theorem Effect.clock_eq (effect : Effect st host calls after host') : host'.clock = host.clock := by
  obtain ⟨_, keeps⟩ := effect.keeps
  exact keeps.clock_eq

theorem ages_of_same {clock : Nat} (same : after.lastTick = st.lastTick) : Ages st clock 0 after :=
  ⟨Nat.le_of_eq same.symm, Nat.le_of_eq same |>.trans (Nat.le_max_left _ _)⟩

theorem Meets.peer_eq {clock : Nat} {peer : Option Net.Address} (meets : Meets st clock peer c)
    (found : st.connection ≠ none) : peer = st.peer := by
  cases meets with
  | known => rfl
  | opens alone => exact absurd alone found

theorem Effect.peer_eq (effect : Effect st host calls after host') (found : st.connection ≠ none) :
    after.peer = st.peer := by
  cases effect with
  | rests _ _ _ peer => exact peer
  | calls _ _ meets => exact meets.peer_eq found

section actions

/-- The stream is about to make this call on this connection. Nothing but its peer and the time that was handed on
may be other than it was. -/
structure Calls (st : UdpStream) (clock : Nat) (base : UdpStream) (c : Connection) (call : Connection.Call) :
    Prop where
  remains : Remains st base
  ages : Ages st clock call.span base
  meets : Meets st clock base.peer c
  within : call.within ByteStream.Call.reads = true

theorem TakesOut.reads {told : List Event} (takesOut : TakesOut c told c') : c.Reads c' := by
  cases takesOut with
  | nothing => exact Or.inl rfl
  | @bytes output bytes _ reads =>
    have reads : c.receiver.reassembler.output.read c.inbound.size = .ok (output, bytes) := reads
    refine Or.inr ⟨c.inbound.size, .bytes bytes, ?_⟩
    simp [Connection.perform, Receiver.performStream, ByteStream.perform, reads, Connection.withInbound]

theorem effect_of_sends (calls : Calls st host.clock base c call) (sends : Sends base host c call after host') :
    Effect st host [call] after host' := by
  obtain ⟨⟨config, epoch, key, socket, home⟩, ages, meets, within⟩ := calls
  cases sends with
  | sends performs keeps =>
    exact .calls ⟨config, epoch, key, socket, home⟩ ages meets within performs rfl (Or.inl rfl) keeps

theorem effect_of_settles (calls : Calls st host.clock base c call) (settles : Settles base host c call after host') :
    Effect st host [call] after host' := by
  obtain ⟨⟨config, epoch, key, socket, home⟩, ages, meets, within⟩ := calls
  cases settles with
  | settles performs keeps informs =>
    cases informs with
    | informs takesOut =>
      exact .calls ⟨config, epoch, key, socket, home⟩ ages meets within performs rfl takesOut.reads keeps

theorem calls_of_found (found : st.connection = some c) (timeless : call.span = 0)
    (within : call.within ByteStream.Call.reads = true) : Calls st host.clock st c call := by
  refine ⟨.refl st, ?_, .known found, within⟩
  rw [timeless]
  exact ages_of_same rfl

theorem calls_of_new {peer : Net.Address} (alone : st.connection = none)
    (made : st.newConnection peer host.clock = .ok c) (timeless : call.span = 0)
    (within : call.within ByteStream.Call.reads = true) : Calls st host.clock { st with peer := some peer } c call := by
  refine ⟨⟨rfl, rfl, rfl, rfl, rfl⟩, ?_, .opens alone made, within⟩
  rw [timeless]
  exact ages_of_same rfl

theorem calls_of_time (later : st.lastTick < st.epoch.millis host.clock) (found : st.connection = some c) :
    Calls st host.clock { st with lastTick := st.epoch.millis host.clock } c
      (.tick (st.epoch.millis host.clock - st.lastTick)) := by
  refine ⟨⟨rfl, rfl, rfl, rfl, rfl⟩, ⟨?_, Nat.le_max_right _ _⟩, .known found, rfl⟩
  exact Nat.le_of_eq (Nat.add_sub_of_le (Nat.le_of_lt later))

theorem effect_of_nothing (st : UdpStream) (keeps : host.Keeps [] host') : Effect st host [] st host' :=
  .rests (.refl st) (ages_of_same rfl) rfl rfl keeps

theorem Handles.effect {segment : Segment} {source : Net.Address}
    (handles : Handles st host segment source after host') :
    Effect st host (st.callsOfSegment segment source) after host' := by
  unfold callsOfSegment
  cases handles with
  | ignores stranger keeps =>
    rw [stranger]
    exact effect_of_nothing st keeps
  | waits _ alone other =>
    rw [alone, other, Option.isNone_none, Bool.not_false, Bool.and_true, Bool.or_true]
    exact effect_of_nothing st (.refl host)
  | opens fits alone knock made settles =>
    rw [fits, alone, knock, Option.isNone_none, Bool.not_true, Bool.and_false, Bool.or_false]
    exact effect_of_settles (calls_of_new alone made rfl rfl) settles
  | passes fits found settles =>
    rw [fits, found, Option.isNone_some, Bool.false_and, Bool.or_false]
    exact effect_of_settles (calls_of_found found rfl rfl) settles

theorem handleArrival_effect {arrival : Net.Arrival} (h : st.handleArrival host arrival = .ok (after, host')) :
    Effect st host (st.callsOfArrival arrival) after host' := by
  unfold callsOfArrival
  cases handleArrival_handles h with
  | drops malformed keeps =>
    rw [malformed]
    exact effect_of_nothing st keeps
  | handles frame handles =>
    rw [frame]
    exact handles.effect

theorem passTime_effect (h : st.passTime host = .ok (after, host')) :
    Effect st host (st.callsOfTime host.clock) after host' := by
  unfold callsOfTime
  cases passTime_passes h with
  | stands same =>
    rw [if_pos (by simp [same])]
    exact effect_of_nothing st (.refl host)
  | idles later alone =>
    rw [if_pos (by simp [alone])]
    exact .rests ⟨rfl, rfl, rfl, rfl, rfl⟩ ⟨Nat.le_of_lt later, Nat.le_max_right _ _⟩ rfl rfl (.refl host)
  | ages later found settles =>
    rw [if_neg (by simp [found, Nat.ne_of_gt later])]
    exact effect_of_settles (calls_of_time later found) settles

theorem hands_effect (st : UdpStream) (host : Net.Host) (rest : List Event) :
    Effect st host [] { st with events := rest } host :=
  .rests ⟨rfl, rfl, rfl, rfl, rfl⟩ (ages_of_same rfl) rfl rfl (.refl host)

theorem Obeys.effect (obeys : Obeys st host call after host') (timeless : call.span = 0)
    (within : call.within ByteStream.Call.reads = true) : Effect st host (st.callsOf call) after host' := by
  unfold callsOf
  cases obeys with
  | idles alone =>
    rw [alone]
    exact effect_of_nothing st (.refl host)
  | sends found sends =>
    rw [found]
    exact effect_of_sends (calls_of_found found timeless within) sends

theorem write_effect {bytes : Bytes} {count : Nat} (h : st.write host bytes = .ok (count, after, host')) :
    Effect st host (st.callsOf (.write bytes)) after host' := (write_obeys h).effect rfl rfl

theorem finish_effect (h : st.finish host = .ok (after, host')) : Effect st host (st.callsOf .finish) after host' :=
  (finish_obeys h).effect rfl rfl

theorem abort_effect (h : st.abort host = .ok (after, host')) : Effect st host (st.callsOf .abort) after host' :=
  (abort_obeys h).effect rfl rfl

theorem opening_effect {peer : Net.Address} (alone : st.connection = none)
    (h : st.opening peer host = .ok (after, host')) : Effect st host [.connect] after host' := by
  obtain ⟨c, made, sends⟩ := opening_sends h
  exact effect_of_sends (calls_of_new alone made rfl rfl) sends

end actions

end UdpStream
end TcpStack

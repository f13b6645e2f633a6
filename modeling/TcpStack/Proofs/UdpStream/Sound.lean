import TcpStack.Proofs.UdpStream.Effect
import TcpStack.Proofs.UdpStream.Punctual

/-! What holds of a stream between two actions, all its life: its connection is one that can come about, made for the
configuration of the stream; it has a peer; all that it queued was sent; and it was told of no more time than the
stream has handed on. -/

namespace TcpStack

namespace Connection

variable {allows : ByteStream.Call → Bool} {c after : Connection} {call : Call} {reply : Reply} {spent more : Nat}

theorem Reachable.config_eq (reachable : Reachable allows c) (h : (c.perform call).result = .ok (after, reply)) :
    after.config = c.config := by
  obtain ⟨made, empty⟩ := reachable.sender
  rcases perform_cases made empty h with ⟨-, once, -⟩ | ⟨_, rfl, elapses⟩
  · exact once.config_eq
  · exact (elapses.sender made empty).2.2

theorem Clocked.later (clocked : Clocked spent c) (later : spent ≤ more) : Clocked more c := by
  obtain ⟨elapsed, rfl⟩ := Nat.exists_eq_add_of_le later
  exact ⟨clocked.waits, clocked.sender.later elapsed, Nat.le_add_right_of_le clocked.idle_le⟩

end Connection

namespace UdpStream

open Outcome

variable {calls : List Connection.Call} {st after : UdpStream} {c : Connection} {host host' : Net.Host}
  {moments : List Moment} {clock : Nat} {told : List Event}

structure Runs (st : UdpStream) (c : Connection) : Prop where
  reachable : c.Reachable ByteStream.Call.reads
  config_eq : c.config = st.config.connection
  clocked : c.Clocked st.lastTick
  flushed : c.queued = []
  known : st.peer ≠ none

structure Sound (st : UdpStream) : Prop where
  polls : 0 < st.config.pollInterval
  valid : st.config.connection.validate = .ok ()
  runs : ∀ c, st.connection = some c → Runs st c

theorem Sound.meets (sound : Sound st) {peer : Option Net.Address} (meets : Meets st clock peer c) :
    c.Reachable ByteStream.Call.reads ∧ c.config = st.config.connection ∧ c.Clocked st.lastTick ∧ c.queued = [] ∧
      peer ≠ none := by
  cases meets with
  | known found =>
    have runs := sound.runs c found
    exact ⟨runs.reachable, runs.config_eq, runs.clocked, runs.flushed, runs.known⟩
  | opens _ made =>
    obtain ⟨_, opens⟩ := new?_of_newConnection sound.valid made
    have traced : Connection.Traced ByteStream.Call.reads [] c := .opened opens
    have clocked := traced.clocked
    obtain ⟨rfl, -⟩ := Connection.new?_eq_ok_iff.mp opens
    exact ⟨.opened opens, rfl, clocked.later (Nat.zero_le _), rfl, Option.some_ne_none _⟩

theorem emptied_of_known (c : Connection) (known : st.peer ≠ none) : st.emptied c = { c with queued := [] } :=
  if_pos (Option.isSome_iff_ne_none.mpr known)

theorem Runs.reads {c' : Connection} (runs : Runs st c) (reads : c.Reads c') : Runs st c' := by
  rcases reads with rfl | ⟨length, reply, performs⟩
  · exact runs
  have config_eq := runs.reachable.config_eq performs
  have clocked := runs.clocked.perform runs.reachable performs
  have queued : c'.queued = c.queued := by
    obtain ⟨_, does⟩ := Connection.perform_eq_ok_iff.mp performs
    cases does with
    | reads => rfl
  exact ⟨runs.reachable.called rfl performs, config_eq.trans runs.config_eq, clocked, queued.trans runs.flushed,
    runs.known⟩

theorem Effect.sound (effect : Effect st host calls after host') (sound : Sound st) : Sound after := by
  have remains := effect.remains
  refine ⟨remains.config ▸ sound.polls, remains.config ▸ sound.valid, fun last found => ?_⟩
  cases effect with
  | rests _ ages same peer =>
    have runs := sound.runs last (same ▸ found)
    exact ⟨runs.reachable, remains.config ▸ runs.config_eq, runs.clocked.later ages.1, runs.flushed,
      peer ▸ runs.known⟩
  | @calls _ _ c c' c'' call reply _ ages meets within performs found' reads =>
    obtain rfl := Option.some.inj (found'.symm.trans found)
    obtain ⟨reachable, config_eq, clocked, -, known⟩ := sound.meets meets
    rw [emptied_of_known c' known] at reads
    have emitted := (reachable.called within performs).emitted c'.queued.length
    have clocked' := (clocked.perform reachable performs).later ages.1
    have config_eq' := (reachable.config_eq performs).trans config_eq
    rw [List.drop_length] at emitted
    rw [← remains.config] at config_eq'
    have runs : Runs after { c' with queued := [] } :=
      ⟨emitted, config_eq', ⟨clocked'.waits, clocked'.sender, clocked'.idle_le⟩, rfl, known⟩
    exact runs.reads reads

theorem Acts.effect (acts : st.Acts host told after) : ∃ calls host', Effect st host calls after host' := by
  cases acts with
  | arrives h => exact ⟨_, _, handleArrival_effect h⟩
  | ages h => exact ⟨_, _, passTime_effect h⟩
  | hands => exact ⟨_, host, hands_effect st host _⟩
  | writes h => exact ⟨_, _, write_effect h⟩
  | finishes h => exact ⟨_, _, finish_effect h⟩
  | aborts h => exact ⟨_, _, abort_effect h⟩

theorem sound_of_bindAt {config : StreamConfig} {address : Net.Address}
    (binds : bindAt config address host = .ok (st, host')) : Sound st ∧ st.connection = none ∧ st.lastTick = 0 := by
  obtain ⟨polls, valid, _, rfl, -⟩ := bindAt_eq_ok binds
  exact ⟨⟨polls, valid, fun _ found => by cases found⟩, rfl, rfl⟩

theorem Ages.lag {span : Nat} (ages : Ages st clock span after) (epoch : after.epoch = st.epoch)
    (lag : st.lastTick ≤ st.epoch.millis clock) : after.lastTick ≤ after.epoch.millis clock := by
  rw [epoch]
  exact Nat.le_trans ages.2 (Nat.max_le.mpr ⟨lag, Nat.le_refl _⟩)

theorem Effect.lag (effect : Effect st host calls after host') (lag : st.lastTick ≤ st.epoch.millis host.clock) :
    after.lastTick ≤ after.epoch.millis host.clock := by
  cases effect with
  | rests remains ages | calls remains ages => exact ages.lag remains.epoch lag

theorem Lived.sound (lived : Lived moments st clock) : Sound st ∧ st.lastTick ≤ st.epoch.millis clock := by
  induction lived with
  | listens binds =>
    obtain ⟨sound, -, fresh⟩ := sound_of_bindAt binds
    exact ⟨sound, fresh ▸ Nat.zero_le _⟩
  | connects binds opens =>
    obtain ⟨sound, alone, fresh⟩ := sound_of_bindAt binds
    have effect := opening_effect alone opens
    exact ⟨effect.sound sound, effect.lag (fresh ▸ Nat.zero_le _)⟩
  | waits _ later ih =>
    exact ⟨ih.1, Nat.le_trans ih.2 (Epoch.millis_mono _ later)⟩
  | acts _ acts ih =>
    obtain ⟨_, _, effect⟩ := acts.effect
    exact ⟨effect.sound ih.1, effect.lag ih.2⟩

end UdpStream
end TcpStack

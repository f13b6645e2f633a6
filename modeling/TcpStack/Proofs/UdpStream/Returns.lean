import TcpStack.Proofs.Net.Arrivals
import TcpStack.Proofs.UdpStream.Sound

/-! When a stream can take in what comes and let the time pass. What its connection counts grows by no more than the
bytes of the datagrams, so as long as the counters have room for these, and can tell the time, each action has a
result. -/

namespace TcpStack

open Outcome

namespace Connection

variable {c after : Connection} {call : Call} {reply : Reply} {length n : Nat}

def bulk (c : Connection) : Nat := c.receiver.reassembler.gathered + c.outbound.written

theorem Gathers.ready (gathers : Gathers n c) (short : n + length < 2 ^ 62) : c.receiver.Ready length := by
  have gathered_le := gathers.gathered_le
  have fits := gathers.rests.sound.fits
  rw [gathers.rests.cells] at fits
  unfold Cells.limit at fits
  unfold Reassembler.gathered at gathered_le
  refine ⟨gathers.rests, ?_⟩
  simp only [SeqNum.cycle_eq, SeqNum.bound_eq] at *
  omega

theorem Reachable.gathers (reachable : Reachable ByteStream.Call.reads c) :
    Gathers c.receiver.reassembler.gathered c := by
  obtain ⟨_, traced⟩ := reachable.traced
  exact ⟨traced.gathers.rests, Nat.le_refl _⟩

theorem Reachable.bulk_le (reachable : Reachable ByteStream.Call.reads c)
    (h : (c.perform call).result = .ok (after, reply)) (within : call.within ByteStream.Call.reads = true)
    (nothing : call.accepts reply = []) : after.bulk ≤ c.bulk + call.payload.length := by
  obtain ⟨_, traced⟩ := reachable.traced
  obtain ⟨⟨_, _, speaks⟩, -⟩ := traced.speaks
  have gathered_le := (reachable.gathers.performs within (perform_performs h)).gathered_le
  obtain ⟨_, -, written_eq⟩ := speaks.performs (perform_performs h)
  rw [nothing] at written_eq
  unfold bulk
  simp only [List.length_nil] at written_eq
  omega

theorem Reachable.returns (reachable : Reachable ByteStream.Call.reads c) (call : Call)
    (within : call.within ByteStream.Call.reads = true) (timeless : ∀ elapsed, call ≠ .tick elapsed)
    (short : c.bulk + call.payload.length < 2 ^ 62) :
    ∃ after reply, (c.perform call).result = .ok (after, reply) := by
  obtain ⟨events, traced⟩ := reachable.traced
  obtain ⟨⟨ended, isn, speaks⟩, counted⟩ := traced.speaks
  have room_le : c.outbound.room ≤ c.outbound.capacity := Nat.sub_le _ _
  have fits := speaks.serves.sound.fits
  unfold bulk at short
  unfold Cells.limit at fits
  have longest : (written events).length + c.outbound.room + 2 + 2 * SeqNum.cycle ≤ Count.bound := by
    have capacity_eq : c.sender.stream.capacity = c.outbound.capacity := rfl
    simp only [SeqNum.cycle_eq, SeqNum.bound_eq] at *
    omega
  have runs : c.sender.Runs (written events) ended isn :=
    ⟨speaks.serves, reachable.vouches.ledger, Nat.le_of_eq counted, by omega⟩
  exact perform_returns (reachable.gathers.ready (by omega)) runs longest within timeless

theorem Clocked.ticks {spent : Nat} (clocked : Clocked spent c) (reachable : Reachable ByteStream.Call.reads c)
    (elapsed : Nat) (short : spent + elapsed < Count.bound) (ends : timeWaitFactor * c.config.timeout < Count.bound) :
    ∃ after, (c.tick elapsed).result = .ok after := by
  by_cases named : c.summary.named = some .timeWait
  · have idle_le := clocked.idle_le
    obtain ⟨sender, empty⟩ := reachable.sender
    have spent := sender.spent (named_timeWait_iff.mp named).2.2.1
    have place : Count.add c.idle elapsed = .ok (c.idle + elapsed) := Count.add_eq_ok_iff.mpr ⟨rfl, by omega⟩
    rw [tick_of_timeWait named spent empty, place, Count.mul_eq_ok_iff.mpr ⟨rfl, ends⟩]
    exact ⟨_, rfl⟩
  · exact clocked.tick_returns rfl reachable short named

end Connection

namespace UdpStream

variable {calls : List Connection.Call} {st after : UdpStream} {c : Connection} {host host' : Net.Host}
  {segment : Segment} {arrivals : List Net.Arrival} {n : Nat}

def bulk (st : UdpStream) : Nat :=
  match st.connection with
  | some c => c.bulk
  | none => 0

theorem bulk_of_some (found : st.connection = some c) : st.bulk = c.bulk := by
  unfold bulk
  rw [found]

theorem bulk_of_none (alone : st.connection = none) : st.bulk = 0 := by
  unfold bulk
  rw [alone]

theorem bulk_of_new {peer : Net.Address} {clock : Nat} (made : st.newConnection peer clock = .ok c) : c.bulk = 0 := by
  obtain ⟨_, rfl, -⟩ := newConnection_eq_ok made
  rfl

theorem Meets.bulk_le {clock : Nat} {peer : Option Net.Address} (meets : Meets st clock peer c) :
    c.bulk ≤ st.bulk := by
  cases meets with
  | known found => exact Nat.le_of_eq (bulk_of_some found).symm
  | opens _ made => exact bulk_of_new made ▸ Nat.zero_le _

theorem Effect.bulk_le (effect : Effect st host calls after host') (sound : Sound st)
    (small : ∀ call ∈ calls, (∀ reply, call.accepts reply = []) ∧ call.payload.length ≤ n) :
    after.bulk ≤ st.bulk + n := by
  cases effect with
  | rests _ _ same =>
    unfold bulk
    rw [same]
    exact Nat.le_add_right _ _
  | @calls _ _ c c' c'' call reply _ _ meets within performs found reads =>
    obtain ⟨nothing, payload_le⟩ := small call List.mem_cons_self
    obtain ⟨reachable, -, -, -, known⟩ := sound.meets meets
    rw [emptied_of_known c' known] at reads
    have first := reachable.bulk_le performs within (nothing reply)
    have emitted := (reachable.called within performs).emitted c'.queued.length
    rw [List.drop_length] at emitted
    have second : c''.bulk ≤ c'.bulk := by
      rcases reads with rfl | ⟨_, _, performs'⟩
      · exact Nat.le_refl _
      · exact emitted.bulk_le performs' rfl rfl
    have start := meets.bulk_le
    rw [bulk_of_some found]
    omega

section returns

theorem tellData_returns (reachable : c.Reachable ByteStream.Call.reads) (short : c.bulk < 2 ^ 62)
    (st : UdpStream) : ∃ told, st.tellData c = .ok told := by
  have gathers := reachable.gathers
  unfold Connection.bulk at short
  have ready : c.receiver.Ready 0 := gathers.ready (by omega)
  have near := ready.near
  have written_eq := ready.rests.written
  have cycle_eq := SeqNum.cycle_eq
  obtain ⟨output, bytes, reads⟩ := ByteStream.read_returns c.inbound.size ready.rests.sound (by omega)
  unfold tellData
  split
  · exact ⟨_, rfl⟩
  · have reads : c.inbound.read c.inbound.size = .ok (output, bytes) := reads
    simp only [reads, ok_bind]
    exact ⟨_, rfl⟩

theorem updateEvents_returns (found : st.connection = some c) (reachable : c.Reachable ByteStream.Call.reads)
    (short : c.bulk < 2 ^ 62) (host : Net.Host) : ∃ result, st.updateEvents host = .ok result := by
  obtain ⟨told, tells⟩ := tellData_returns reachable short (st.tellConnect c host).1
  unfold updateEvents
  simp only [found, tells, ok_bind]
  exact ⟨_, rfl⟩

theorem settle_returns (reachable : c.Reachable ByteStream.Call.reads) (short : c.bulk < 2 ^ 62)
    (known : st.peer ≠ none) (host : Net.Host) :
    ∃ result, (let (st, host) := flush { st with connection := some c } host
      st.updateEvents host) = .ok result := by
  obtain ⟨peer, peer_eq⟩ := Option.ne_none_iff_exists'.mp known
  have emitted := reachable.emitted c.queued.length
  rw [List.drop_length] at emitted
  unfold flush
  simp only [peer_eq, Connection.drain]
  exact updateEvents_returns rfl emitted short _

theorem pass_returns (reachable : c.Reachable ByteStream.Call.reads)
    (short : c.bulk + segment.payload.length < 2 ^ 62) (known : st.peer ≠ none) (host : Net.Host) :
    ∃ result, st.pass host c segment = .ok result := by
  obtain ⟨last, reply, performs⟩ := reachable.returns (.segment segment) rfl (fun _ => nofun) short
  have light := reachable.bulk_le performs rfl rfl
  have reachable' := reachable.called rfl performs
  have receives : (c.segmentReceived segment).result = .ok last := by
    obtain ⟨_, does⟩ := Connection.perform_eq_ok_iff.mp performs
    cases does with
    | receives receives => exact Connection.segmentReceived_eq_ok_iff.mpr ⟨_, receives⟩
  unfold pass Net.Host.record
  simp only [receives, ok_bind, pure_bind]
  exact settle_returns reachable' (Nat.lt_of_le_of_lt light short) known _

theorem handleSegment_returns (sound : Sound st) (fits : st.config.connection.capacity < Cells.limit)
    (short : st.bulk + segment.payload.length < 2 ^ 62) (host : Net.Host) (source : Net.Address) :
    ∃ result, st.handleSegment host segment source = .ok result := by
  unfold handleSegment
  split
  · exact ⟨_, rfl⟩
  rcases Option.eq_none_or_eq_some st.connection with alone | ⟨c, found⟩
  · rw [alone]
    simp only
    split
    · exact ⟨_, rfl⟩
    · have made : st.newConnection source host.clock = .ok _ := Connection.create_eq_ok_iff.mpr ⟨rfl, fits⟩
      obtain ⟨reachable, -⟩ := sound.meets (.opens alone made)
      have bulk_eq := bulk_of_new made
      simp only [made, ok_bind]
      exact pass_returns reachable (by rw [bulk_eq]; rw [bulk_of_none alone] at short; exact short)
        (Option.some_ne_none source) _
  · rw [found]
    have runs := sound.runs c found
    exact pass_returns runs.reachable (bulk_of_some found ▸ short) runs.known host

theorem length_payload_le {frame : Bytes} (h : Segment.ofFrame? frame = some segment) :
    segment.payload.length ≤ frame.length := by
  unfold Segment.ofFrame? at h
  obtain ⟨_, -, rfl⟩ := Option.map_eq_some_iff.mp h
  exact List.length_drop ▸ Nat.sub_le _ _

theorem handleArrival_returns (arrival : Net.Arrival) (sound : Sound st)
    (fits : st.config.connection.capacity < Cells.limit) (short : st.bulk + arrival.bytes.length < 2 ^ 62)
    (host : Net.Host) :
    ∃ result, st.handleArrival host arrival = .ok result := by
  unfold handleArrival
  split
  · rename_i frame
    have payload_le := length_payload_le frame
    exact handleSegment_returns sound fits (by omega) host arrival.source
  · exact ⟨_, rfl⟩

theorem passTime_returns (sound : Sound st) (lag : st.lastTick ≤ st.epoch.millis host.clock)
    (soon : st.epoch.millis host.clock < Count.bound)
    (ends : timeWaitFactor * st.config.connection.timeout < Count.bound) (short : st.bulk < 2 ^ 62) :
    ∃ result, st.passTime host = .ok result := by
  unfold passTime
  simp only [Count.sub_eq_ok_iff.mpr ⟨rfl, lag⟩, ok_bind]
  split
  · exact ⟨_, rfl⟩
  rcases Option.eq_none_or_eq_some st.connection with alone | ⟨c, found⟩
  · simp only [alone, pure_bind, flush, updateEvents]
    exact ⟨_, rfl⟩
  · have runs := sound.runs c found
    obtain ⟨last, ticks⟩ := runs.clocked.ticks runs.reachable (st.epoch.millis host.clock - st.lastTick)
      (by omega) (runs.config_eq ▸ ends)
    have performs : (c.perform (.tick (st.epoch.millis host.clock - st.lastTick))).result = .ok (last, .done) := by
      simp [Connection.perform, ticks]
    have light := runs.reachable.bulk_le performs rfl rfl
    rw [bulk_of_some found] at short
    simp only [found, Net.Host.record, ticks, ok_bind, pure_bind]
    have known : UdpStream.peer { st with lastTick := st.epoch.millis host.clock } ≠ none := runs.known
    exact settle_returns (runs.reachable.called rfl performs) (Nat.lt_of_le_of_lt light short) known _

end returns

section bearing

variable {middle : UdpStream} {clock between now more : Nat} {arrivals : List Net.Arrival}

structure Bears (bytes : Nat) (st : UdpStream) (clock : Nat) (after : UdpStream) (now : Nat) : Prop where
  remains : Remains st after
  sound : Sound st → Sound after
  lag : st.lastTick ≤ st.epoch.millis clock → after.lastTick ≤ after.epoch.millis now
  bulk_le : Sound st → after.bulk ≤ st.bulk + bytes

theorem Bears.waits (st : UdpStream) (later : clock ≤ now) : Bears 0 st clock st now :=
  ⟨.refl st, id, fun lag => Nat.le_trans lag (Epoch.millis_mono _ later), fun _ => Nat.le_refl _⟩

theorem Bears.trans (first : Bears n st clock middle between) (second : Bears more middle between after now) :
    Bears (n + more) st clock after now := by
  refine ⟨first.remains.trans second.remains, second.sound ∘ first.sound, second.lag ∘ first.lag, fun sound => ?_⟩
  have before := first.bulk_le sound
  have behind := second.bulk_le (first.sound sound)
  omega

theorem Bears.mono (bears : Bears n st clock after now) (le : n ≤ more) : Bears more st clock after now :=
  ⟨bears.remains, bears.sound, bears.lag, fun sound => Nat.le_trans (bears.bulk_le sound) (Nat.add_le_add_left le _)⟩

theorem Effect.bears (effect : Effect st host calls after host')
    (small : ∀ call ∈ calls, (∀ reply, call.accepts reply = []) ∧ call.payload.length ≤ n) :
    Bears n st host.clock after host'.clock := by
  refine ⟨effect.remains, effect.sound, fun lag => ?_, fun sound => effect.bulk_le sound small⟩
  rw [effect.clock_eq]
  exact effect.lag lag

theorem passTime_bears (h : st.passTime host = .ok (after, host')) : Bears 0 st host.clock after host'.clock := by
  refine (passTime_effect h).bears fun call member => ?_
  obtain ⟨elapsed, rfl⟩ := tick_of_callsOfTime member
  exact ⟨fun _ => rfl, Nat.le_refl 0⟩

theorem handleArrival_bears {arrival : Net.Arrival} (h : st.handleArrival host arrival = .ok (after, host')) :
    Bears arrival.bytes.length st host.clock after host'.clock := by
  refine (handleArrival_effect h).bears fun call member => ?_
  obtain ⟨segment, frame, rfl⟩ := segment_of_callsOfArrival member
  exact ⟨fun _ => rfl, length_payload_le frame⟩

def handleAll (st : UdpStream) (host : Net.Host) (arrivals : List Net.Arrival) :
    Except Fault (UdpStream × Net.Host) :=
  arrivals.foldlM (fun (st, host) arrival => st.handleArrival host arrival) (st, host)

theorem receiveDue_eq (st : UdpStream) (host : Net.Host) :
    st.receiveDue host = st.handleAll (host.receiveDue st.socket).2 (host.receiveDue st.socket).1 := rfl

theorem handleAll_cons (st : UdpStream) (host : Net.Host) (arrival : Net.Arrival) (rest : List Net.Arrival) :
    st.handleAll host (arrival :: rest) =
      (do let (st, host) ← st.handleArrival host arrival
          st.handleAll host rest) := List.foldlM_cons

theorem handleAll_keeps (h : st.handleAll host arrivals = .ok (after, host')) :
    Bears (Net.Host.weight arrivals) st host.clock after host'.clock ∧ ∃ posted, host.Keeps posted host' := by
  induction arrivals generalizing st host with
  | nil =>
    cases h
    exact ⟨.waits _ (Nat.le_refl _), [], .refl _⟩
  | cons arrival rest ih =>
    rw [handleAll_cons, bind_eq_ok] at h
    obtain ⟨⟨middle, between⟩, handles, h⟩ := h
    obtain ⟨_, first⟩ := (handleArrival_effect handles).keeps
    obtain ⟨bears, _, others⟩ := ih h
    rw [Net.Host.weight]
    exact ⟨(handleArrival_bears handles).trans bears, _, first.trans others⟩

theorem handleAll_returns (sound : Sound st) (fits : st.config.connection.capacity < Cells.limit)
    (short : st.bulk + Net.Host.weight arrivals < 2 ^ 62) (host : Net.Host) :
    ∃ after host', st.handleAll host arrivals = .ok (after, host') := by
  induction arrivals generalizing st host with
  | nil => exact ⟨st, host, rfl⟩
  | cons arrival rest ih =>
    rw [Net.Host.weight] at short
    obtain ⟨⟨middle, between⟩, handles⟩ := handleArrival_returns arrival sound fits (by omega) host
    have bears := handleArrival_bears handles
    have light := bears.bulk_le sound
    have fits : middle.config.connection.capacity < Cells.limit := bears.remains.config ▸ fits
    rw [handleAll_cons, handles]
    exact ih (bears.sound sound) fits (by omega) between

end bearing

end UdpStream
end TcpStack

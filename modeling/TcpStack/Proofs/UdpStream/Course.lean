import TcpStack.Connection.Call
import TcpStack.Proofs.Outcome
import TcpStack.UdpStream.Open

/-! How the actions of a stream go: which call on the connection they come to, if any, what goes out after it, and
what the application is told. Of the host it is said what was sent, and that but for notices nothing else became of
it. What an action has returned is taken apart here and nowhere else. -/

namespace TcpStack

namespace Net.Host

/-- The host has these datagrams more, and some notices, and is as it was in all else. -/
def Keeps (host : Host) (posted : List Datagram) (after : Host) : Prop :=
  ∃ notices, after = { host with sent := host.sent ++ posted, journal := notices ++ host.journal }

variable {host middle after : Host} {posted more : List Datagram}

theorem Keeps.refl (host : Host) : host.Keeps [] host := ⟨[], by rw [List.append_nil, List.nil_append]⟩

theorem Keeps.trans (first : host.Keeps posted middle) (second : middle.Keeps more after) :
    host.Keeps (posted ++ more) after := by
  obtain ⟨notices, rfl⟩ := first
  obtain ⟨others, rfl⟩ := second
  exact ⟨others ++ notices, by simp only [List.append_assoc]⟩

theorem Keeps.sent_eq (keeps : host.Keeps posted after) : after.sent = host.sent ++ posted := by
  obtain ⟨_, rfl⟩ := keeps
  rfl

theorem Keeps.clock_eq (keeps : host.Keeps posted after) : after.clock = host.clock := by
  obtain ⟨_, rfl⟩ := keeps
  rfl

theorem Keeps.failing_eq (keeps : host.Keeps posted after) : after.failing = host.failing := by
  obtain ⟨_, rfl⟩ := keeps
  rfl

theorem Keeps.limit_eq (keeps : host.Keeps posted after) : after.limit = host.limit := by
  obtain ⟨_, rfl⟩ := keeps
  rfl

theorem Keeps.inbox_eq (keeps : host.Keeps posted after) (number : Nat) :
    after.inbox number = host.inbox number := by
  obtain ⟨_, rfl⟩ := keeps
  rfl

theorem keeps_note (host : Host) (notice : Notice) : host.Keeps [] (host.note notice) :=
  ⟨[notice], by rw [List.append_nil]; rfl⟩

theorem foldl_note_keeps (host : Host) (notices : List Notice) : host.Keeps [] (notices.foldl note host) := by
  induction notices generalizing host with
  | nil => exact .refl host
  | cons notice rest ih => exact (keeps_note host notice).trans (ih (host.note notice))

theorem record_eq_ok {α : Type} {run : Run α} {a : α} (h : host.record run = .ok (a, after)) :
    run.result = .ok a ∧ host.Keeps [] after := by
  unfold record at h
  simp only [Outcome.bind_eq_ok, Outcome.pure_eq_ok] at h
  obtain ⟨_, result, h⟩ := h
  cases h
  exact ⟨result, run.notices.reverse, by rw [List.append_nil]⟩

theorem bind?_eq_some {address home : Address} {number : Nat} (h : host.bind? address = some (after, number, home)) :
    number = host.sockets.length ∧ after = { host with sockets := host.sockets ++ [{ address := home }] } := by
  unfold bind? at h
  split at h
  · cases h
  · cases h
    exact ⟨rfl, rfl⟩

end Net.Host

namespace Connection

def withInbound (c : Connection) (output : ByteStream) : Connection :=
  { c with receiver := { c.receiver with reassembler := { c.receiver.reassembler with output } } }

end Connection

namespace UdpStream

open Outcome

def envelope (st : UdpStream) (peer : Net.Address) (clock : Nat) (segment : Segment) : Net.Datagram :=
  ⟨clock, Net.Host.outwardAddress st.home, peer,
    Segment.toFrame { segment with sourcePort := st.home.port, destPort := peer.port }⟩

def posts (st : UdpStream) (host : Net.Host) (segments : List Segment) : List Net.Datagram :=
  match st.peer with
  | some peer => if host.failing.send then [] else segments.map (st.envelope peer host.clock)
  | none => []

def emptied (st : UdpStream) (c : Connection) : Connection :=
  if st.peer.isSome then { c with queued := [] } else c

/-- The segment that a stream without a peer waits for. -/
def knocks (segment : Segment) : Bool := segment.syn && !segment.ack && !segment.rst

/-- All that has come in is read, and is an event of its own if it is anything. -/
inductive TakesOut (c : Connection) : List Event → Connection → Prop
  | nothing (empty : c.inbound.isEmpty = true) : TakesOut c [] c
  | bytes {output : ByteStream} {bytes : Bytes} (some : c.inbound.isEmpty = false)
      (reads : c.inbound.read c.inbound.size = .ok (output, bytes)) :
      TakesOut c [.received bytes] (c.withInbound output)

/-- What is told of a connection: first that it is open, then all that has come in, then that no more comes, and last
what has ended it. -/
inductive Informs (st : UdpStream) (c : Connection) : UdpStream → Prop
  | informs {told : List Event} {c' : Connection} (takesOut : TakesOut c told c') :
      Informs st c { st with
        connection := some c'
        connectTold := st.connectTold || isOpen c.summary
        disconnectTold := st.disconnectTold || (c'.inbound.atEnd && !c'.inbound.failed)
        failureTold := st.failureTold || c'.cause.isSome
        events := st.events ++ (if !st.connectTold && isOpen c.summary then [.connected] else []) ++ told ++
          (if !st.disconnectTold && (c'.inbound.atEnd && !c'.inbound.failed) then [.disconnected] else []) ++
          (if st.failureTold then [] else c'.cause.toList.map Event.failed) }

/-- The call is made, and what it queues goes out. -/
inductive Sends (base : UdpStream) (host : Net.Host) (c : Connection) (call : Connection.Call) :
    UdpStream → Net.Host → Prop
  | sends {c' : Connection} {reply : Reply} {host' : Net.Host} (performs : (c.perform call).result = .ok (c', reply))
      (keeps : host.Keeps (base.posts host c'.queued) host') :
      Sends base host c call { base with connection := some (base.emptied c') } host'

/-- The call is made, what it queues goes out, and then the application is told what there is to tell. -/
inductive Settles (base : UdpStream) (host : Net.Host) (c : Connection) (call : Connection.Call) :
    UdpStream → Net.Host → Prop
  | settles {c' : Connection} {reply : Reply} {after : UdpStream} {host' : Net.Host}
      (performs : (c.perform call).result = .ok (c', reply)) (keeps : host.Keeps (base.posts host c'.queued) host')
      (informs : Informs { base with connection := some (base.emptied c') } (base.emptied c') after) :
      Settles base host c call after host'

inductive Obeys (st : UdpStream) (host : Net.Host) (call : Connection.Call) : UdpStream → Net.Host → Prop
  | idles (alone : st.connection = none) : Obeys st host call st host
  | sends {c : Connection} {after : UdpStream} {host' : Net.Host} (found : st.connection = some c)
      (sends : Sends st host c call after host') : Obeys st host call after host'

inductive Handles (st : UdpStream) (host : Net.Host) (segment : Segment) (source : Net.Address) :
    UdpStream → Net.Host → Prop
  | ignores {host' : Net.Host} (stranger : st.peer.any (· ≠ source) = true) (keeps : host.Keeps [] host') :
      Handles st host segment source st host'
  | waits (fits : st.peer.any (· ≠ source) = false) (alone : st.connection = none) (other : knocks segment = false) :
      Handles st host segment source st host
  | opens {c : Connection} {after : UdpStream} {host' : Net.Host} (fits : st.peer.any (· ≠ source) = false)
      (alone : st.connection = none) (knock : knocks segment = true)
      (made : st.newConnection source host.clock = .ok c)
      (settles : Settles { st with peer := some source } host c (.segment segment) after host') :
      Handles st host segment source after host'
  | passes {c : Connection} {after : UdpStream} {host' : Net.Host} (fits : st.peer.any (· ≠ source) = false)
      (found : st.connection = some c) (settles : Settles st host c (.segment segment) after host') :
      Handles st host segment source after host'

inductive HandlesArrival (st : UdpStream) (host : Net.Host) (arrival : Net.Arrival) : UdpStream → Net.Host → Prop
  | drops {host' : Net.Host} (malformed : Segment.ofFrame? arrival.bytes = none) (keeps : host.Keeps [] host') :
      HandlesArrival st host arrival st host'
  | handles {segment : Segment} {after : UdpStream} {host' : Net.Host}
      (frame : Segment.ofFrame? arrival.bytes = some segment)
      (handles : Handles st host segment arrival.source after host') : HandlesArrival st host arrival after host'

inductive PassesTime (st : UdpStream) (host : Net.Host) : UdpStream → Net.Host → Prop
  | stands (same : st.epoch.millis host.clock = st.lastTick) : PassesTime st host st host
  | idles (later : st.lastTick < st.epoch.millis host.clock) (alone : st.connection = none) :
      PassesTime st host { st with lastTick := st.epoch.millis host.clock } host
  | ages {c : Connection} {after : UdpStream} {host' : Net.Host} (later : st.lastTick < st.epoch.millis host.clock)
      (found : st.connection = some c)
      (settles : Settles { st with lastTick := st.epoch.millis host.clock } host c
        (.tick (st.epoch.millis host.clock - st.lastTick)) after host') : PassesTime st host after host'

variable {st base after : UdpStream} {c c' : Connection} {host between host' : Net.Host} {call : Connection.Call}
  {reply : Reply} {segment : Segment}

theorem not_knocks (segment : Segment) : (!knocks segment) = (!segment.syn || segment.ack || segment.rst) := by
  simp only [knocks, Bool.not_and, Bool.not_not]

section sending

theorem transmit_keeps (st : UdpStream) (peer : Net.Address) (host : Net.Host) (segment : Segment) :
    host.Keeps (if host.failing.send then [] else [st.envelope peer host.clock segment])
      (st.transmit peer host segment) := by
  unfold transmit Net.Host.send
  by_cases broken : host.failing.send = true
  · simp only [if_pos broken]
    exact Net.Host.keeps_note host _
  · simp only [if_neg broken]
    exact ⟨[], rfl⟩

theorem foldl_transmit_keeps (st : UdpStream) (peer : Net.Address) (host : Net.Host) (segments : List Segment) :
    host.Keeps (if host.failing.send then [] else segments.map (st.envelope peer host.clock))
      (segments.foldl (st.transmit peer) host) := by
  induction segments generalizing host with
  | nil =>
    rw [List.map_nil, ite_self]
    exact .refl host
  | cons segment rest ih =>
    have first := transmit_keeps st peer host segment
    have both := first.trans (ih (st.transmit peer host segment))
    rw [first.failing_eq, first.clock_eq] at both
    cases broken : host.failing.send with
    | true => simpa [broken] using both
    | false => simpa [broken] using both

theorem flush_eq (h : flush { st with connection := some c } host = (after, host')) :
    after = { st with connection := some (st.emptied c) } ∧ host.Keeps (st.posts host c.queued) host' := by
  unfold flush at h
  unfold emptied posts
  cases peer : st.peer with
  | none =>
    simp only [peer] at h
    cases h
    exact ⟨by simp, .refl _⟩
  | some address =>
    simp only [peer, Connection.drain] at h
    cases h
    exact ⟨by simp, foldl_transmit_keeps _ address host c.queued⟩

theorem emptied_eq_drop (st : UdpStream) (c : Connection) :
    ∃ count, st.emptied c = { c with queued := c.queued.drop count } := by
  unfold emptied
  by_cases known : st.peer.isSome = true
  · exact ⟨c.queued.length, by rw [if_pos known, List.drop_length]⟩
  · exact ⟨0, if_neg known⟩

theorem posts_eq (home : after.home = st.home) (peer : after.peer = st.peer) (before : host.Keeps [] between)
    (segments : List Segment) : after.posts host segments = st.posts between segments := by
  unfold posts envelope
  rw [home, peer, before.failing_eq, before.clock_eq]

theorem sends_of_flush (performs : (c.perform call).result = .ok (c', reply)) (notes : host.Keeps [] between)
    (h : flush { base with connection := some c' } between = (after, host')) : Sends base host c call after host' := by
  obtain ⟨rfl, sends⟩ := flush_eq h
  have posted := notes.trans sends
  rw [List.nil_append, ← posts_eq rfl rfl notes] at posted
  exact .sends performs posted

theorem sends_of_record {run : Run Connection}
    (performs : (c.perform call).result = (fun c' => (c', Reply.done)) <$> run.result)
    (h : (do
      let (c', host) ← host.record run
      return flush { base with connection := some c' } host) = .ok (after, host')) :
    Sends base host c call after host' := by
  simp only [bind_eq_ok, pure_eq_ok] at h
  obtain ⟨⟨c', noted⟩, records, h⟩ := h
  obtain ⟨result, notes⟩ := Net.Host.record_eq_ok records
  rw [result] at performs
  exact sends_of_flush performs notes h

end sending

section telling

theorem tellConnect_eq (st : UdpStream) (c : Connection) (host : Net.Host) :
    (st.tellConnect c host).1 = { st with
      connectTold := st.connectTold || isOpen c.summary
      events := st.events ++ if !st.connectTold && isOpen c.summary then [.connected] else [] } ∧
    host.Keeps [] (st.tellConnect c host).2 := by
  obtain ⟨_, _, _, _, _, _, _, _, _, connectTold, _, _⟩ := st
  unfold tellConnect
  cases connectTold with
  | true => simp [Net.Host.Keeps.refl]
  | false => cases isOpen c.summary <;> simp [Net.Host.Keeps.refl, Net.Host.keeps_note]

theorem tellDisconnect_eq (st : UdpStream) (c : Connection) :
    st.tellDisconnect c = { st with
      disconnectTold := st.disconnectTold || (c.inbound.atEnd && !c.inbound.failed)
      events := st.events ++ if !st.disconnectTold && (c.inbound.atEnd && !c.inbound.failed) then
        [.disconnected] else [] } := by
  obtain ⟨_, _, _, _, _, _, _, _, _, _, disconnectTold, _⟩ := st
  unfold tellDisconnect
  rw [Bool.and_assoc]
  cases disconnectTold <;> cases (c.inbound.atEnd && !c.inbound.failed) <;> simp

theorem tellFailure_eq (st : UdpStream) (c : Connection) :
    st.tellFailure c = { st with
      failureTold := st.failureTold || c.cause.isSome
      events := st.events ++ if st.failureTold then [] else c.cause.toList.map Event.failed } := by
  obtain ⟨_, _, _, _, _, _, _, _, _, _, _, failureTold⟩ := st
  unfold tellFailure
  cases failureTold <;> cases c.cause <;> simp

theorem tellData_eq (found : st.connection = some c) (h : st.tellData c = .ok (after, c')) :
    ∃ told, TakesOut c told c' ∧ after = { st with connection := some c', events := st.events ++ told } := by
  unfold tellData at h
  by_cases empty : c.inbound.isEmpty = true
  · rw [if_pos empty] at h
    cases h
    refine ⟨[], .nothing empty, ?_⟩
    rw [List.append_nil, ← found]
  rw [if_neg empty] at h
  simp only [bind_eq_ok, pure_eq_ok] at h
  obtain ⟨⟨output, bytes⟩, reads, h⟩ := h
  cases h
  exact ⟨_, .bytes (Bool.eq_false_iff.mpr empty) reads, rfl⟩

theorem updateEvents_informs (found : st.connection = some c) (h : st.updateEvents host = .ok (after, host')) :
    Informs st c after ∧ host.Keeps [] host' := by
  unfold updateEvents at h
  simp only [found, bind_eq_ok, pure_eq_ok] at h
  obtain ⟨⟨read, c'⟩, reads, h⟩ := h
  cases h
  obtain ⟨connects, keeps⟩ := tellConnect_eq st c host
  rw [connects] at reads
  obtain ⟨told, takesOut, rfl⟩ := tellData_eq (by exact found) reads
  rw [tellFailure_eq, tellDisconnect_eq]
  exact ⟨.informs takesOut, keeps⟩

theorem settles_of_flush (performs : (c.perform call).result = .ok (c', reply)) (notes : host.Keeps [] between)
    (h : (let (st, host) := flush { base with connection := some c' } between
      st.updateEvents host) = .ok (after, host')) : Settles base host c call after host' := by
  generalize flushes : flush { base with connection := some c' } between = flushed at h
  obtain ⟨flushed, sent⟩ := flushed
  obtain ⟨rfl, sends⟩ := flush_eq flushes
  obtain ⟨informs, keeps⟩ := updateEvents_informs rfl h
  have posted := (notes.trans sends).trans keeps
  rw [List.nil_append, List.append_nil, ← posts_eq rfl rfl notes] at posted
  exact .settles performs posted informs

end telling

section actions

theorem pass_settles (before : host.Keeps [] between) (h : base.pass between c segment = .ok (after, host')) :
    Settles base host c (.segment segment) after host' := by
  unfold pass at h
  simp only [bind_eq_ok] at h
  obtain ⟨⟨c', noted⟩, records, h⟩ := h
  obtain ⟨result, notes⟩ := Net.Host.record_eq_ok records
  have performs : (c.perform (.segment segment)).result = .ok (c', .done) := by simp [Connection.perform, result]
  exact settles_of_flush performs (before.trans notes) h

theorem handleSegment_handles {source : Net.Address} (h : st.handleSegment host segment source = .ok (after, host')) :
    Handles st host segment source after host' := by
  unfold handleSegment at h
  by_cases stranger : st.peer.any (· ≠ source) = true
  · rw [if_pos stranger] at h
    cases h
    exact .ignores stranger (Net.Host.keeps_note host _)
  rw [if_neg stranger] at h
  have fits := Bool.eq_false_iff.mpr stranger
  rcases Option.eq_none_or_eq_some st.connection with alone | ⟨c, found⟩
  · rw [alone] at h
    simp only [← not_knocks] at h
    cases knock : knocks segment with
    | false =>
      rw [knock, Bool.not_false, if_pos rfl] at h
      cases h
      exact .waits fits alone knock
    | true =>
      rw [knock, Bool.not_true, if_neg Bool.false_ne_true, bind_eq_ok] at h
      obtain ⟨c, made, h⟩ := h
      rw [← alone] at h
      exact .opens fits alone knock made (pass_settles (Net.Host.keeps_note host _) h)
  · rw [found] at h
    exact .passes fits found (pass_settles (.refl host) h)

theorem handleArrival_handles {arrival : Net.Arrival} (h : st.handleArrival host arrival = .ok (after, host')) :
    HandlesArrival st host arrival after host' := by
  unfold handleArrival at h
  cases frame : Segment.ofFrame? arrival.bytes with
  | none =>
    rw [frame] at h
    cases h
    exact .drops frame (Net.Host.keeps_note host _)
  | some segment =>
    rw [frame] at h
    exact .handles frame (handleSegment_handles h)

theorem passTime_passes (h : st.passTime host = .ok (after, host')) : PassesTime st host after host' := by
  unfold passTime at h
  simp only [bind_eq_ok, Count.sub_eq_ok_iff] at h
  obtain ⟨elapsed, ⟨rfl, later⟩, h⟩ := h
  by_cases early : st.epoch.millis host.clock - st.lastTick = 0
  · rw [if_pos early] at h
    cases h
    exact .stands (Nat.le_antisymm (Nat.le_of_sub_eq_zero early) later)
  rw [if_neg early] at h
  have later : st.lastTick < st.epoch.millis host.clock := Nat.lt_of_sub_ne_zero early
  rcases Option.eq_none_or_eq_some st.connection with alone | ⟨c, found⟩
  · simp only [alone, pure_bind, flush, updateEvents, pure_eq_ok] at h
    cases h
    rw [← alone]
    exact .idles later alone
  · rw [found] at h
    simp only [bind_eq_ok, pure_eq_ok] at h
    obtain ⟨⟨c', noted⟩, records, _, rfl, h⟩ := h
    obtain ⟨result, notes⟩ := Net.Host.record_eq_ok records
    have performs : (c.perform (.tick (st.epoch.millis host.clock - st.lastTick))).result = .ok (c', .done) := by
      simp [Connection.perform, result]
    exact .ages later found (settles_of_flush performs notes h)

theorem write_obeys {bytes : Bytes} {count : Nat} (h : st.write host bytes = .ok (count, after, host')) :
    Obeys st host (.write bytes) after host' := by
  unfold UdpStream.write at h
  rcases Option.eq_none_or_eq_some st.connection with alone | ⟨c, found⟩
  · rw [alone] at h
    cases h
    exact .idles alone
  · rw [found] at h
    simp only [bind_eq_ok, pure_eq_ok] at h
    obtain ⟨⟨⟨c', accepted⟩, noted⟩, records, h⟩ := h
    obtain ⟨result, notes⟩ := Net.Host.record_eq_ok records
    have performs : (c.perform (.write bytes)).result = .ok (c', .count accepted) := by
      simp [Connection.perform, result]
    exact .sends found (sends_of_flush performs notes (Prod.mk.inj h).2)

theorem finish_obeys (h : st.finish host = .ok (after, host')) : Obeys st host .finish after host' := by
  unfold UdpStream.finish at h
  rcases Option.eq_none_or_eq_some st.connection with alone | ⟨c, found⟩
  · rw [alone] at h
    cases h
    exact .idles alone
  · rw [found] at h
    have performs : (c.perform .finish).result = (fun c' => (c', Reply.done)) <$> c.finish.result := by
      simp only [Connection.perform, Run.result_bind, Run.result_pure, map_eq_pure_bind]
      rfl
    exact .sends found (sends_of_record performs h)

theorem abort_obeys (h : st.abort host = .ok (after, host')) : Obeys st host .abort after host' := by
  unfold UdpStream.abort at h
  rcases Option.eq_none_or_eq_some st.connection with alone | ⟨c, found⟩
  · rw [alone] at h
    cases h
    exact .idles alone
  · rw [found] at h
    have performs : (c.perform .abort).result = (fun c' => (c', Reply.done)) <$> c.abort.result := by
      simp only [Connection.perform, Run.result_bind, Run.result_pure, map_eq_pure_bind]
      rfl
    exact .sends found (sends_of_record performs h)

theorem newConnection_eq_ok {peer : Net.Address} {clock : Nat} (h : st.newConnection peer clock = .ok c) :
    ∃ isn, c = Connection.initial st.config.connection isn ∧ st.config.connection.capacity < Cells.limit :=
  ⟨_, Connection.create_eq_ok_iff.mp h⟩

theorem opening_sends {peer : Net.Address} (h : st.opening peer host = .ok (after, host')) :
    ∃ c, st.newConnection peer host.clock = .ok c ∧
      Sends { st with peer := some peer } host c .connect after host' := by
  unfold opening at h
  rw [bind_eq_ok] at h
  obtain ⟨c, made, h⟩ := h
  have performs : (c.perform .connect).result = (fun c' => (c', Reply.done)) <$> c.connect.result := by
    simp only [Connection.perform, Run.result_bind, Run.result_pure, map_eq_pure_bind]
    rfl
  exact ⟨c, made, sends_of_record performs h⟩

end actions

section making

variable {config : StreamConfig} {names : List String}

/-- A new stream has the last of the sockets, and nothing has happened to it. -/
theorem bindAt_eq_ok {address : Net.Address} (h : bindAt config address host = .ok (st, host')) :
    0 < config.pollInterval ∧ config.connection.validate = .ok () ∧ ∃ home,
      st = { config, epoch := Epoch.ofHost host, key := host.key, socket := host.sockets.length, home } ∧
      host' = { host with sockets := host.sockets ++ [{ address := home }] } := by
  unfold bindAt at h
  simp only [bind_eq_ok, mapError_eq_ok] at h
  obtain ⟨_, valid, h⟩ := h
  obtain ⟨polls, valid⟩ := StreamConfig.validate_eq_ok_iff.mp valid
  cases binds : host.bind? address with
  | none =>
    rw [binds] at h
    cases h
  | some made =>
    obtain ⟨bound, socket, home⟩ := made
    obtain ⟨rfl, rfl⟩ := Net.Host.bind?_eq_some binds
    rw [binds] at h
    cases h
    exact ⟨polls, valid, home, rfl, rfl⟩

theorem listen_eq_ok (h : listen config names host = .ok (st, host')) :
    ∃ address, bindAt config address host = .ok (st, host') := by
  unfold listen at h
  rw [bind_eq_ok] at h
  obtain ⟨address, -, binds⟩ := h
  exact ⟨address, binds⟩

theorem connect_eq_ok (h : connect config names host = .ok (.ok (st, host'))) : ∃ peer bound between,
    bindAt config ⟨peer.ip.unspecified, 0⟩ host = .ok (bound, between) ∧
      bound.opening peer between = .ok (st, host') := by
  unfold connect at h
  simp only [bind_eq_ok, pure_eq_ok] at h
  obtain ⟨peer, -, ⟨bound, between⟩, binds, opens⟩ := h
  exact ⟨peer, bound, between, binds, opens⟩

end making

end UdpStream
end TcpStack

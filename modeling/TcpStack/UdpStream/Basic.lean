import TcpStack.Connection.Basic
import TcpStack.Digest
import TcpStack.Net.Host
import TcpStack.Wire.Header

/-! A connection over datagrams, one segment in each. The stream carries segments between its connection
and a socket of the host, hands on the time that has passed in whole milliseconds, and tells its
application what happened as events. It serves one peer: the one it connects to, or the first from
which a SYN comes. The initial sequence number of a connection is a keyed hash of the two addresses plus a
clock, so that the numbers for one pair of addresses move on with time and are hard to guess for anyone else. -/

namespace TcpStack

namespace UdpStream.Isn

def ticksPerMilli : Nat := 250

def addressBytes (address : Net.Address) : Bytes :=
  address.ip.octets ++
    [UInt8.ofNat (address.port.toNat % 256), UInt8.ofNat (address.port.toNat / 256)]

def compute (key : Bytes) (home peer : Net.Address) (millis : Nat) : SeqNum :=
  ⟨(Digest.SipHash.hash key (addressBytes home ++ addressBytes peer)).toUInt32
    + UInt32.ofNat (millis * ticksPerMilli)⟩

end UdpStream.Isn

/-- `pollInterval` is the longest time between two ticks of the connection while the stream waits, in
milliseconds. -/
structure StreamConfig where
  connection : Config := {}
  pollInterval : Nat := 10
deriving DecidableEq, Repr

def StreamConfig.validate (config : StreamConfig) : Except ConfigError Unit :=
  if config.pollInterval = 0 then .error .zeroPollInterval else config.connection.validate

theorem StreamConfig.validate_eq_ok_iff {config : StreamConfig} :
    config.validate = .ok () ↔ 0 < config.pollInterval ∧ config.connection.validate = .ok () := by
  unfold validate
  split
  · simp_all
  · simp_all [Nat.pos_iff_ne_zero]

inductive Event where
  | connected
  | received (bytes : Bytes)
  | disconnected
  | failed (cause : ResetCause)
deriving DecidableEq, Repr

/-- The two clocks of the host when a stream was made, in microseconds and in milliseconds. -/
structure Epoch where
  base : Nat
  wallBase : Nat
deriving DecidableEq, Repr

namespace Epoch

def ofHost (host : Net.Host) : Epoch := ⟨host.clock, host.wallClock⟩

def millis (epoch : Epoch) (clock : Nat) : Nat := (clock - epoch.base) / 1000

def wallMillis (epoch : Epoch) (clock : Nat) : Nat :=
  (epoch.wallBase + epoch.millis clock) % Count.bound

end Epoch

/-- `home` is the address of the stream's own socket, and the three marks say which of the events that
come once were told. -/
structure UdpStream where
  config : StreamConfig
  epoch : Epoch
  lastTick : Nat := 0
  key : Bytes
  socket : Nat
  home : Net.Address
  peer : Option Net.Address := none
  connection : Option Connection := none
  events : List Event := []
  connectTold : Bool := false
  disconnectTold : Bool := false
  failureTold : Bool := false

namespace UdpStream

/-- False once the connection has ended. A stream that has no peer yet is active. -/
def active (st : UdpStream) : Bool :=
  match st.connection with
  | some c => c.active
  | none => true

def room (st : UdpStream) : Nat :=
  match st.connection with
  | some c => c.outbound.room
  | none => 0

def summary (st : UdpStream) : Option Summary := st.connection.map Connection.summary

def newConnection (st : UdpStream) (peer : Net.Address) (clock : Nat) : Except Fault Connection :=
  Connection.create st.config.connection
    (Isn.compute st.key st.home peer (st.epoch.wallMillis clock))

def transmit (st : UdpStream) (peer : Net.Address) (host : Net.Host) (segment : Segment) :
    Net.Host :=
  let segment := { segment with sourcePort := st.home.port, destPort := peer.port }
  let (host, done) := host.send st.home peer segment.toFrame
  if done then host else host.note (.sendFailed peer Net.Host.sendFailure)

def flush (st : UdpStream) (host : Net.Host) : UdpStream × Net.Host :=
  match st.connection, st.peer with
  | some c, some peer =>
    let (segments, c) := c.drain
    ({ st with connection := some c }, segments.foldl (st.transmit peer) host)
  | _, _ => (st, host)

def isOpen (summary : Summary) : Bool :=
  (match summary.sender with
    | .synAcked | .finSent | .finAcked => true
    | _ => false)
  && (match summary.receiver with
    | .synReceived | .finReceived => true
    | _ => false)

def tellConnect (st : UdpStream) (c : Connection) (host : Net.Host) : UdpStream × Net.Host :=
  if !st.connectTold && isOpen c.summary then
    ({ st with connectTold := true, events := st.events ++ [.connected] },
      host.note (.connected st.peer))
  else (st, host)

def tellData (st : UdpStream) (c : Connection) : Except Fault (UdpStream × Connection) := do
  if c.inbound.isEmpty then return (st, c)
  let (output, bytes) ← c.inbound.read c.inbound.size
  let reassembler := { c.receiver.reassembler with output }
  let c := { c with receiver := { c.receiver with reassembler } }
  return ({ st with connection := some c, events := st.events ++ [.received bytes] }, c)

def tellDisconnect (st : UdpStream) (c : Connection) : UdpStream :=
  if !st.disconnectTold && c.inbound.atEnd && !c.inbound.failed then
    { st with disconnectTold := true, events := st.events ++ [.disconnected] }
  else st

def tellFailure (st : UdpStream) (c : Connection) : UdpStream :=
  match c.cause with
  | some cause =>
    if st.failureTold then st
    else { st with failureTold := true, events := st.events ++ [.failed cause] }
  | none => st

def updateEvents (st : UdpStream) (host : Net.Host) : Except Fault (UdpStream × Net.Host) := do
  let some c := st.connection | return (st, host)
  let (st, host) := st.tellConnect c host
  let (st, c) ← st.tellData c
  return ((st.tellDisconnect c).tellFailure c, host)

def pass (st : UdpStream) (host : Net.Host) (c : Connection) (segment : Segment) :
    Except Fault (UdpStream × Net.Host) := do
  let (c, host) ← host.record (c.segmentReceived segment)
  let (st, host) := flush { st with connection := some c } host
  st.updateEvents host

/-- Takes in a segment. Only those of the peer count; without a peer, the source of an opening segment
becomes it. -/
def handleSegment (st : UdpStream) (host : Net.Host) (segment : Segment) (source : Net.Address) :
    Except Fault (UdpStream × Net.Host) :=
  if st.peer.any (· ≠ source) then return (st, host.note (.ignoredStranger source))
  else
    match st.connection with
    | some c => st.pass host c segment
    | none =>
      if !segment.syn || segment.ack || segment.rst then return (st, host)
      else do
        let c ← st.newConnection source host.clock
        pass { st with peer := some source } (host.note (.acceptedSyn source)) c segment

def handleArrival (st : UdpStream) (host : Net.Host) (arrival : Net.Arrival) :
    Except Fault (UdpStream × Net.Host) :=
  match Segment.ofFrame? arrival.bytes with
  | some segment => st.handleSegment host segment arrival.source
  | none => return (st, host.note (.droppedMalformed arrival.source))

def receiveDue (st : UdpStream) (host : Net.Host) : Except Fault (UdpStream × Net.Host) :=
  let (due, host) := host.receiveDue st.socket
  due.foldlM (fun (st, host) arrival => st.handleArrival host arrival) (st, host)

def passTime (st : UdpStream) (host : Net.Host) : Except Fault (UdpStream × Net.Host) := do
  let now := st.epoch.millis host.clock
  let elapsed ← Count.sub now st.lastTick
  if elapsed = 0 then return (st, host)
  let st := { st with lastTick := now }
  let (st, host) ←
    match st.connection with
    | some c => do
      let (c, host) ← host.record (c.tick elapsed)
      pure ({ st with connection := some c }, host)
    | none => pure (st, host)
  let (st, host) := st.flush host
  st.updateEvents host

def work (st : UdpStream) (host : Net.Host) : Except Fault (UdpStream × Net.Host) := do
  let (st, host) ← st.receiveDue host
  st.passTime host

def nextEvent (st : UdpStream) : Option Event × UdpStream :=
  match st.events with
  | [] => (none, st)
  | event :: events => (some event, { st with events })

def poll (st : UdpStream) (host : Net.Host) :
    Except Fault (Option Event × UdpStream × Net.Host) := do
  let (st, host) ← if st.events.isEmpty then st.work host else pure (st, host)
  let (event, st) := st.nextEvent
  return (event, st, host)

/-- All events that polling gives until it gives none: those that are there, and those that come up by
working once. There is nothing left to do after that, for no time passes and all that is due is
taken in. -/
def pollAll (st : UdpStream) (host : Net.Host) :
    Except Fault (List Event × UdpStream × Net.Host) := do
  let (after, host) ← work { st with events := [] } host
  return (st.events ++ after.events, { after with events := [] }, host)

def waitAndWork (st : UdpStream) (host : Net.Host) (timeout : Nat) :
    Except Fault (Bool × UdpStream × Net.Host) := do
  let (host, outcome) := host.wait st.socket timeout
  match outcome with
  | .stalled => return (true, st, host)
  | .readable =>
    let (st, host) ← st.work host
    return (false, st, host)
  | .quiet =>
    let (st, host) ← st.passTime host
    return (false, st, host)

def pollMicros (st : UdpStream) : Nat := st.config.pollInterval * 1000

inductive Waited where
  | event (event : Event)
  | timedOut
  | stalled
deriving DecidableEq, Repr

def waitWithin : (tries : Nat) → UdpStream → Net.Host →
    Except Fault (Waited × UdpStream × Net.Host)
  | 0, st, host => return (.stalled, st, host)
  | tries + 1, st, host =>
    match st.nextEvent with
    | (some event, st) => return (.event event, st, host)
    | (none, st) => do
      let (stalled, st, host) ← st.waitAndWork host st.pollMicros
      if stalled then return (.stalled, st, host)
      waitWithin tries st host

/-- Waits for the next event. Each wait moves the clock on or takes a datagram out of the inbox, so no
more are tried than there are microseconds left and datagrams in the inbox, and two for what is there
first and last. -/
def wait (st : UdpStream) (host : Net.Host) : Except Fault (Waited × UdpStream × Net.Host) :=
  waitWithin (host.limit - host.clock + (host.inbox st.socket).length + 2) st host

def waitForWithin : (tries remaining : Nat) → UdpStream → Net.Host →
    Except Fault (Waited × UdpStream × Net.Host)
  | 0, _, st, host => return (.timedOut, st, host)
  | tries + 1, remaining, st, host => do
    let begin := host.clock
    let (stalled, st, host) ← st.waitAndWork host (min remaining st.pollMicros)
    if stalled then return (.stalled, st, host)
    match st.nextEvent with
    | (some event, st) => return (.event event, st, host)
    | (none, st) =>
      let elapsed ← Count.sub host.clock begin
      if remaining ≤ elapsed then return (.timedOut, st, host)
      waitForWithin tries (← Count.sub remaining elapsed) st host

/-- Waits for the next event, but no longer than so many microseconds. As in `wait`, each try uses up
time or a datagram. -/
def waitFor (st : UdpStream) (host : Net.Host) (timeout : Nat) :
    Except Fault (Waited × UdpStream × Net.Host) :=
  match st.nextEvent with
  | (some event, st) => return (.event event, st, host)
  | (none, st) => waitForWithin (timeout + (host.inbox st.socket).length + 1) timeout st host

def write (st : UdpStream) (host : Net.Host) (bytes : Bytes) :
    Except Fault (Nat × UdpStream × Net.Host) := do
  let some c := st.connection | return (0, st, host)
  let ((c, accepted), host) ← host.record (c.write bytes)
  return (accepted, flush { st with connection := some c } host)

def finish (st : UdpStream) (host : Net.Host) : Except Fault (UdpStream × Net.Host) := do
  let some c := st.connection | return (st, host)
  let (c, host) ← host.record c.finish
  return flush { st with connection := some c } host

def abort (st : UdpStream) (host : Net.Host) : Except Fault (UdpStream × Net.Host) := do
  let some c := st.connection | return (st, host)
  let (c, host) ← host.record c.abort
  return flush { st with connection := some c } host

def drop (st : UdpStream) (host : Net.Host) : Except Fault Net.Host := do
  let (st, host) ← if st.active then st.abort host else pure (st, host)
  let parting := match st.connection with
    | some c => c.farewell
    | none => []
  return (parting.foldl Net.Host.note host).close st.socket

end UdpStream
end TcpStack

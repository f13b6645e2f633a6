import TcpStack.Connection.Config
import TcpStack.Receiver.Basic
import TcpStack.Sender.Basic

/-! A connection: a sender for the outbound stream and a receiver for the inbound one. It does no input
or output and reads no clock. Segments from the peer are handed in, segments for the peer queue up,
and time passes when it is told so. An inactive connection ignores whatever comes. -/

namespace TcpStack

/-- Why a connection was reset, other than by its own application. -/
inductive ResetCause where
  | byPeer
  | timedOut
deriving DecidableEq, Repr

def ResetCause.text : ResetCause → String
  | .byPeer => "connection reset by peer"
  | .timedOut => "connection timed out"

/-- TIME_WAIT lasts this many first timeouts of silence. -/
def timeWaitFactor : Nat := 10

/-- While `linger` is set the connection stays after both streams have finished, to acknowledge a FIN
that comes again. `idle` is the time since the last segment came in. -/
structure Connection where
  config : Config
  sender : Sender
  receiver : Receiver
  queued : List Segment := []
  linger : Bool := true
  active : Bool := true
  idle : Nat := 0
  cause : Option ResetCause := none

namespace Connection

def initial (config : Config) (isn : SeqNum) : Connection :=
  { config
    sender := Sender.initial config.capacity config.timeout (config.isn.getD isn)
    receiver := Receiver.ofCapacity config.capacity }

def create (config : Config) (isn : SeqNum) : Except Fault Connection := do
  Cells.checkSize config.capacity
  return initial config isn

def new? (config : Config) (isn : SeqNum) : Except ConfigError (Except Fault Connection) := do
  config.validate
  return create config isn

theorem create_eq_ok_iff {config : Config} {isn : SeqNum} {c : Connection} :
    create config isn = .ok c ↔ c = initial config isn ∧ config.capacity < Cells.limit := by
  unfold create Cells.checkSize
  split <;> simp_all [bind, Except.bind, pure, Except.pure, eq_comm]

def opened (c : Connection) : Bool := 0 < c.sender.nextSeqno

def synchronized (c : Connection) : Bool := c.receiver.isn.isSome

def summary (c : Connection) : Summary :=
  { sender := c.sender.state
    receiver := c.receiver.state
    active := c.active
    linger := c.active && c.linger }

def inbound (c : Connection) : ByteStream := c.receiver.stream

def outbound (c : Connection) : ByteStream := c.sender.stream

def drain (c : Connection) : List Segment × Connection := (c.queued, { c with queued := [] })

def flush (c : Connection) : Run Connection := do
  let (segments, sender) := c.sender.drain
  let stamped ← liftM (segments.mapM c.receiver.stamp)
  Run.sayAll (stamped.map .passedOut)
  return { c with sender, queued := c.queued ++ stamped }

def kill (c : Connection) (cause : Option ResetCause) : Connection :=
  { c with
    sender := { c.sender with stream := c.sender.stream.fail }
    receiver := { c.receiver with
      reassembler := { c.receiver.reassembler with
        output := c.receiver.reassembler.output.fail } }
    active := false
    cause }

/-- Ends the connection with an RST to the peer, which takes the place of all that the sender had
queued. -/
def reset (c : Connection) (cause : Option ResetCause) : Run Connection := do
  let rst : Segment := { rst := true, seqno := c.sender.nextWire }
  let c ← flush { c with sender := { c.sender with queued := [rst] } }
  return c.kill cause

def sendAck (c : Connection) : Run Connection :=
  flush { c with sender := c.sender.sendEmpty }

def pump (c : Connection) : Run Connection := do
  let sender ← c.sender.fillWindow
  flush { c with sender }

/-- If the inbound stream has ended before the outbound one was sent, the connection need not linger. One
that does not linger ends once its FIN is acknowledged. -/
def checkFinished (c : Connection) : Run Connection := do
  let finished := c.inbound.ended
  let c := if finished && !c.outbound.atEnd then { c with linger := false } else c
  if finished && !c.linger && c.sender.state = .finAcked then
    Run.say .closed
    return { c with active := false }
  return c

def connect (c : Connection) : Run Connection :=
  if !c.active || c.opened then return c else c.pump

def write (c : Connection) (bytes : Bytes) : Run (Connection × Nat) := do
  if !c.active then return (c, 0)
  let (stream, accepted) ← c.sender.stream.write bytes
  let c := { c with sender := { c.sender with stream } }
  return (← if c.opened then c.pump else pure c, accepted)

def finish (c : Connection) : Run Connection :=
  if !c.active then return c
  else
    let c := { c with sender := { c.sender with stream := c.sender.stream.finish } }
    if c.opened then c.pump else return c

def abort (c : Connection) : Run Connection := do
  if !c.active then return c
  Run.say .abortedLocally
  c.reset none

def resetByPeer (c : Connection) : Run Connection := do
  Run.say .resetByPeer
  return c.kill (some .byPeer)

/-- Before anything was sent or received, only a SYN that acknowledges nothing counts. It is answered
with our own. -/
def receiveListening (c : Connection) (segment : Segment) : Run Connection := do
  if segment.rst || segment.ack || !segment.syn then return c
  let (receiver, _) ← c.receiver.segmentReceived segment
  let c ← checkFinished { c with receiver }
  c.connect

/-- After our SYN and before the peer's, only a SYN counts, or an RST that acknowledges ours. -/
def receiveSynSent (c : Connection) (segment : Segment) : Run Connection := do
  if segment.rst then
    let answers ← if segment.ack then liftM (c.sender.ackIsLegal segment.ackno) else pure false
    if answers then c.resetByPeer else return c
  else if !segment.syn then return c
  else
    let legal ← if segment.ack then liftM (c.sender.ackIsLegal segment.ackno) else pure true
    if !legal then return c
    let (receiver, _) ← c.receiver.segmentReceived segment
    let sender ←
      if segment.ack then Prod.fst <$> c.sender.ackReceived segment.ackno segment.window
      else pure c.sender
    let c ← checkFinished { c with receiver, sender }
    if !c.active then return c
    if c.sender.queued.isEmpty then c.sendAck else c.flush

/-- With both numbers known: an RST counts in the window or as a probe, an acknowledgment of what was
never sent and a probe are answered, and anything else is taken in by both halves. A probe is an empty
segment one number before the next expected. -/
def receiveSynchronized (c : Connection) (segment : Segment) : Run Connection := do
  let inWindow ← c.receiver.inWindow segment
  let probe ←
    if segment.sequenceLength = 0 then
      (fun ackno => ackno.map (· - (1 : UInt32)) == some segment.seqno) <$> liftM c.receiver.checkedAckno
    else pure false
  if segment.rst then
    if inWindow || probe then c.resetByPeer else return c
  else
    let legal ← if segment.ack then liftM (c.sender.ackIsLegal segment.ackno) else pure true
    if !legal || probe then c.sendAck
    else
      let sender ←
        if segment.ack then Prod.fst <$> c.sender.ackReceived segment.ackno segment.window
        else pure c.sender
      let (receiver, _) ← c.receiver.segmentReceived segment
      let c ← checkFinished { c with receiver, sender }
      if !c.active then return c
      let sender ← c.sender.fillWindow
      let c := { c with sender }
      if 0 < segment.sequenceLength && c.sender.queued.isEmpty then c.sendAck else c.flush

def segmentReceived (c : Connection) (segment : Segment) : Run Connection := do
  if !c.active then return c
  Run.say (.passedIn segment)
  let before := c.summary
  let c := { c with idle := 0 }
  let c ←
    if c.synchronized then c.receiveSynchronized segment
    else if c.opened then c.receiveSynSent segment
    else c.receiveListening segment
  if c.summary ≠ before then Run.say (.moved before c.summary)
  return c

/-- Lets time pass. A segment sent again too often ends the connection, and so does enough silence in
TIME_WAIT. -/
def tick (c : Connection) (elapsed : Nat) : Run Connection := do
  if !c.active then return c
  let idle ← Count.add c.idle elapsed
  let sender ← c.sender.tick elapsed
  let c := { c with idle, sender }
  if c.config.maxResends < c.sender.resends then
    Run.say (.givingUp c.sender.resends)
    return (← c.reset (some .timedOut))
  let c ← c.flush
  if c.summary.named = some .timeWait then
    let limit ← Count.mul timeWaitFactor c.config.timeout
    if limit ≤ c.idle then
      Run.say .timeWaitExpired
      return { c with active := false }
  return c

def farewell (c : Connection) : List Notice := if c.active then [.droppedActive] else []

end Connection
end TcpStack

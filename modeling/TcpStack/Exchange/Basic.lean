import TcpStack.Connection.Basic
import TcpStack.Digest
import TcpStack.Exchange.Link
import TcpStack.Wire.Header

/-! Two connections that send each other data over a link. An end writes what it has as room comes up,
finishes its stream after that, and reads all that arrives. Each round carries segments both ways
until none are left, twice, and then lets time pass. -/

namespace TcpStack

structure Party where
  connection : Connection
  unwritten : Bytes
  finished : Bool := false
  readings : List Bytes := []

structure Exchange where
  link : Link
  first : Party
  second : Party
  carried : Nat := 0
  passages : List Passage := []

namespace Party

def received (p : Party) : Bytes := p.readings.reverse.flatten

def serve (p : Party) : Except Fault Party := do
  let (connection, accepted) ←
    if p.unwritten.isEmpty then pure (p.connection, 0)
    else (p.connection.write p.unwritten).result
  let unwritten := p.unwritten.drop accepted
  let ending := unwritten.isEmpty && !p.finished
  let connection ← if ending then connection.finish.result else pure connection
  let (output, arrived) ← connection.inbound.read connection.inbound.size
  let reassembler := { connection.receiver.reassembler with output }
  return {
    connection := { connection with receiver := { connection.receiver with reassembler } }
    unwritten
    finished := p.finished || ending
    readings := arrived :: p.readings }

def receive (p : Party) (segment : Segment) : Except Fault Party := do
  return { p with connection := ← (p.connection.segmentReceived segment).result }

def tick (p : Party) (elapsed : Nat) : Except Fault Party := do
  return { p with connection := ← (p.connection.tick elapsed).result }

def connect (p : Party) : Except Fault Party := do
  return { p with connection := ← p.connection.connect.result }

end Party

namespace Exchange

def party (x : Exchange) : Side → Party
  | .first => x.first
  | .second => x.second

def withParty (x : Exchange) (side : Side) (p : Party) : Exchange :=
  match side with
  | .first => { x with first := p }
  | .second => { x with second := p }

def act (x : Exchange) (side : Side) (action : Party → Except Fault Party) :
    Except Fault Exchange := do
  return x.withParty side (← action (x.party side))

def transport (side : Side) (x : Exchange) (segment : Segment) : Except Fault Exchange := do
  let lost := x.link.loses x.carried
  let x := { x with
    carried := x.carried + 1
    passages := ⟨side, lost, segment⟩ :: x.passages }
  if lost then return x else x.act side.other (·.receive segment)

def carry (x : Exchange) (side : Side) : Except Fault (Exchange × Bool) := do
  let (segments, connection) := (x.party side).connection.drain
  let x := x.withParty side { x.party side with connection }
  return (← segments.foldlM (transport side) x, !segments.isEmpty)

def settleWithin : (passes : Nat) → Exchange → Except Fault Exchange
  | 0, x => return x
  | passes + 1, x => do
    let (x, there) ← x.carry .first
    let (x, back) ← x.carry .second
    if there || back then settleWithin passes x else return x

/-- More passes than are needed: while no time passes and nothing is written or read, each pass but a
few carries bytes that are new to the other end, and those fit in its window. -/
def passes (x : Exchange) : Nat :=
  let load (p : Party) : Nat := p.connection.config.capacity + p.connection.queued.length
  1000 + 4 * (load x.first + load x.second)

def settle (x : Exchange) : Except Fault Exchange := settleWithin x.passes x

def round (x : Exchange) (elapsed : Nat) : Except Fault Exchange := do
  let x ← x.settle
  let x ← x.act .first Party.serve
  let x ← x.act .second Party.serve
  let x ← x.settle
  let x ← x.act .first (·.tick elapsed)
  x.act .second (·.tick elapsed)

def active (x : Exchange) : Bool := x.first.connection.active || x.second.connection.active

def rounds (elapsed : Nat) : (limit count : Nat) → Exchange → Except Fault (Exchange × Nat)
  | 0, count, x => return (x, count)
  | limit + 1, count, x =>
    if x.active then do rounds elapsed limit (count + 1) (← x.round elapsed)
    else return (x, count)

def run (x : Exchange) (both : Bool) (elapsed limit : Nat) : Except Fault (Exchange × Nat) := do
  let x ← x.act .first Party.connect
  let x ← if both then x.act .second Party.connect else pure x
  let x ← x.act .first Party.serve
  let x ← x.act .second Party.serve
  rounds elapsed limit 0 x

def digest (x : Exchange) : UInt64 :=
  x.passages.foldr (fun passage state => Digest.Fnv.absorb state passage.segment.toFrame)
    Digest.Fnv.start

end Exchange
end TcpStack

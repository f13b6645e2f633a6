import TcpStack.Net.Address
import TcpStack.Run

/-! A machine with a clock and datagram sockets, as a value. The clock counts microseconds and moves
only when somebody waits or says so. What is sent is recorded and goes nowhere by itself; what a
socket is to receive lies in its inbox until it is due. Parts of the machine can be made to fail. -/

namespace TcpStack.Net

structure Datagram where
  time : Nat
  source : Address
  dest : Address
  bytes : Bytes
deriving DecidableEq, Repr

/-- A datagram on its way to a socket, which it reaches when the clock shows `due`. -/
structure Arrival where
  due : Nat
  source : Address
  bytes : Bytes
deriving DecidableEq, Repr

structure Socket where
  address : Address
  inbox : List Arrival := []
  isOpen : Bool := true
deriving DecidableEq, Repr

structure Failing where
  bind : Bool := false
  send : Bool := false
  receive : Bool := false
  wait : Bool := false
deriving DecidableEq, Repr

/-- Sockets are numbered in the order in which they were bound. The clock never goes past `limit`
while somebody waits. The wall clock started with the clock, at `wallStart` milliseconds since 1970,
and `key` is what the machine gives out as random bytes. Of the datagrams sent, the first `routed`
were passed on. The journal stands with the latest notice first. -/
structure Host where
  clock : Nat := 0
  limit : Nat
  wallStart : Int := 0
  key : Bytes
  sockets : List Socket := []
  sent : List Datagram := []
  routed : Nat := 0
  failing : Failing := {}
  journal : List Notice := []

inductive Wait where
  | readable
  | quiet
  | stalled
deriving DecidableEq, Repr

namespace Host

def note (host : Host) (notice : Notice) : Host :=
  { host with journal := notice :: host.journal }

def record (host : Host) (run : Run α) : Except Fault (α × Host) := do
  let a ← run.result
  return (a, { host with journal := run.notices.reverse ++ host.journal })

def drainJournal (host : Host) : List Notice × Host :=
  (host.journal.reverse, { host with journal := [] })

def wallClock (host : Host) : Nat := (host.wallStart + host.clock / 1000).toNat

def clockAfter (host : Host) (micros : Nat) : Except Fault Nat := Count.add host.clock micros

def advance (host : Host) (micros : Nat) : Except Fault Host := do
  return { host with clock := ← host.clockAfter micros }

def bindFailure : String := "simulated bind error"

def firstFreePort : Nat := 49152

def bind? (host : Host) (address : Address) : Option (Host × Nat × Address) :=
  if host.failing.bind then none
  else
    let number := host.sockets.length
    let port := if address.port = 0 then UInt16.ofNat (firstFreePort + number) else address.port
    let address := { address with port }
    some ({ host with sockets := host.sockets ++ [{ address }] }, number, address)

def inbox (host : Host) (number : Nat) : List Arrival :=
  match host.sockets[number]? with
  | some socket => socket.inbox
  | none => []

def withInbox (host : Host) (number : Nat) (inbox : List Arrival) : Host :=
  { host with sockets := host.sockets.modify number fun socket => { socket with inbox } }

def close (host : Host) (number : Nat) : Host :=
  { host with sockets := host.sockets.modify number fun socket => { socket with isOpen := false } }

/-- Puts a datagram into an inbox, behind all that are due no later. -/
def deliver (host : Host) (number : Nat) (arrival : Arrival) : Host :=
  let (sooner, later) := (host.inbox number).span fun other => other.due ≤ arrival.due
  host.withInbox number (sooner ++ arrival :: later)

/-- The address that the receivers of a socket's datagrams see. -/
def outwardAddress (address : Address) : Address :=
  if address.ip.isUnspecified then { address with ip := address.ip.loopback } else address

def send (host : Host) (address dest : Address) (bytes : Bytes) : Host × Bool :=
  if host.failing.send then (host, false)
  else
    ({ host with sent := host.sent ++ [⟨host.clock, outwardAddress address, dest, bytes⟩] }, true)

def sendFailure : String := "simulated send error"

/-- The most bytes of a datagram that a socket receives; the rest is cut off. -/
def receiveSize : Nat := 1472

def receiveDue (host : Host) (number : Nat) : List Arrival × Host :=
  if host.failing.receive then ([], host)
  else
    let (due, later) := (host.inbox number).span fun arrival => arrival.due ≤ host.clock
    (due.map fun arrival => { arrival with bytes := arrival.bytes.take receiveSize },
      host.withInbox number later)

/-- The first datagram of an inbox, if it will be due within the time and can be noticed. -/
def nextWithin (host : Host) (number timeout : Nat) : Option Arrival :=
  if host.failing.receive || host.failing.wait then none
  else (host.inbox number).head?.filter fun arrival => arrival.due ≤ host.clock + timeout

/-- Waits until a datagram is due, but no longer than the timeout. A wait that would take the clock past
its limit stalls instead, and the clock stays. -/
def wait (host : Host) (number timeout : Nat) : Host × Wait :=
  let (wake, outcome) := match host.nextWithin number timeout with
    | some arrival => (max host.clock arrival.due, Wait.readable)
    | none => (host.clock + timeout, Wait.quiet)
  if host.limit < wake then (host, .stalled) else ({ host with clock := wake }, outcome)

def socketAt? (host : Host) (port : UInt16) : Option Nat :=
  host.sockets.findIdx? fun socket => socket.isOpen && socket.address.port == port

/-- Passes the datagrams on that were sent and not passed on before, each to the first open socket with
its port. Those at the places in `lost` do not arrive. Says how many did. -/
def route (host : Host) (lost : List Nat) (delay : Nat) : Except Fault (Host × Nat) := do
  let waiting := (host.sent.drop host.routed).zipIdx
  let passed := waiting.filterMap fun (datagram, place) =>
    if lost.contains place then none
    else (host.socketAt? datagram.dest.port).map (·, datagram)
  let arrivals ← passed.mapM fun (number, datagram) => do
    return (number, Arrival.mk (← host.clockAfter delay) datagram.source datagram.bytes)
  return (arrivals.foldl (fun host (number, arrival) => host.deliver number arrival)
    { host with routed := host.sent.length }, arrivals.length)

theorem clock_le_of_wait {host after : Host} {number timeout : Nat} {outcome : Wait}
    (h : host.wait number timeout = (after, outcome)) : host.clock ≤ after.clock := by
  unfold wait at h
  cases hn : host.nextWithin number timeout with
  | none =>
    simp only [hn] at h
    split at h <;> cases h <;> simp
  | some arrival =>
    simp only [hn] at h
    split at h
    · cases h
      exact Nat.le_refl _
    · cases h
      exact Nat.le_max_left ..

theorem wait_le_clock {host after : Host} {number timeout : Nat} {outcome : Wait}
    (h : host.wait number timeout = (after, outcome)) : after.clock ≤ host.clock + timeout := by
  unfold wait at h
  cases hn : host.nextWithin number timeout with
  | none =>
    simp only [hn] at h
    split at h <;> cases h <;> simp
  | some arrival =>
    have due : arrival.due ≤ host.clock + timeout := by
      unfold nextWithin at hn
      split at hn
      · cases hn
      · simpa using (Option.filter_eq_some_iff.1 hn).2
    simp only [hn] at h
    split at h
    · cases h
      exact Nat.le_add_right ..
    · cases h
      exact Nat.max_le.2 ⟨Nat.le_add_right .., due⟩

end Host
end TcpStack.Net

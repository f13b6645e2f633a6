import TcpStack.UdpStream.Open

/-! Sessions: a program that has one stream and nothing to do but to react to its events. It waits for the
next event at most a second at a time, and when none came looks whether the stream is still active.
A program ends when its stream has closed or failed; if a wait stalls it stays where it is. -/

namespace TcpStack.Echo

def eventTimeout : Nat := 1000000

structure Session where
  stream : UdpStream
  host : Net.Host
  memory : Bytes := []
  printed : List String := []

inductive Ending where
  | returned
  | stalled
deriving DecidableEq, Repr

namespace Session

def print (s : Session) (line : String) : Session := { s with printed := line :: s.printed }

def write (s : Session) (bytes : Bytes) : Except Fault (Session × Nat) := do
  let (accepted, stream, host) ← s.stream.write s.host bytes
  return ({ s with stream, host }, accepted)

def finish (s : Session) : Except Fault Session := do
  let (stream, host) ← s.stream.finish s.host
  return { s with stream, host }

abbrev Reaction := Session → Event → Except Fault (Session × Bool)

def runWithin (react : Reaction) : (tries : Nat) → Session → Except Fault (Session × Ending)
  | 0, s => return (s, .stalled)
  | tries + 1, s => do
    let (waited, stream, host) ← s.stream.waitFor s.host eventTimeout
    let s := { s with stream, host }
    match waited with
    | .stalled => return (s, .stalled)
    | .timedOut =>
      if s.stream.active then runWithin react tries s
      else return (s.print "closed", .returned)
    | .event event =>
      let (s, ends) ← react s event
      if ends then return (s, .returned) else runWithin react tries s

/-- Runs a program on its stream, which it throws away at the end. Each try uses up a second, one of the
three events that come once, or a datagram. -/
def run (react : Reaction) (s : Session) : Except Fault (Session × Ending) := do
  let tries := s.host.limit - s.host.clock + (s.host.inbox s.stream.socket).length + 5
  let (s, ending) ← runWithin react tries s
  return ({ s with host := ← s.stream.drop s.host }, ending)

def deliverAll (s : Session) (arrivals : List Net.Arrival) : Session :=
  { s with host := arrivals.foldl (fun host a => host.deliver s.stream.socket a) s.host }

end Session

def receivedLine (bytes : Bytes) : String := "udp::Event::Receive " ++ Text.Hex.listing bytes

def failedLine (cause : ResetCause) : String := "udp::Event::Error " ++ cause.text

end TcpStack.Echo

import TcpStack.Net.Address.Lookup
import TcpStack.UdpStream.Basic

/-! Making streams: by listening at an address or by connecting to one, and the ways in which that
fails. -/

namespace TcpStack.UdpStream

inductive Endpoint where
  | peer
  | home
deriving DecidableEq, Repr

inductive OpenError where
  | invalid (reason : ConfigError)
  | noAddress (endpoint : Endpoint)
  | badAddress (reason : Net.LookupError)
  | addressInUse
deriving DecidableEq, Repr

namespace OpenError

def message : OpenError → String
  | .invalid reason => reason.message
  | .noAddress .peer => "no peer address"
  | .noAddress .home => "no bind address"
  | .badAddress .noPort => "invalid socket address"
  | .badAddress .malformedPort => "invalid port value"
  | .badAddress .zeroInHost => "file name contained an unexpected NUL byte"
  | .badAddress .unknownHost => "failed to lookup address information: Name or service not known"
  | .addressInUse => Net.Host.bindFailure

end OpenError

/-- The first of the named addresses. What is no address in full is looked up. -/
def resolve (endpoint : Endpoint) : (names : List String) → Except OpenError Net.Address
  | [] => .error (.noAddress endpoint)
  | name :: _ =>
    match Net.Address.parse? name with
    | some address => .ok address
    | none => (Net.Address.lookup name).mapError .badAddress

def bindAt (config : StreamConfig) (address : Net.Address) (host : Net.Host) :
    Except OpenError (UdpStream × Net.Host) := do
  (config.validate).mapError .invalid
  match host.bind? address with
  | none => .error .addressInUse
  | some (host, socket, home) =>
    return ({ config, epoch := Epoch.ofHost host, key := host.key, socket, home }, host)

def listen (config : StreamConfig) (names : List String) (host : Net.Host) :
    Except OpenError (UdpStream × Net.Host) := do
  bindAt config (← resolve .home names) host

def opening (st : UdpStream) (peer : Net.Address) (host : Net.Host) :
    Except Fault (UdpStream × Net.Host) := do
  let c ← st.newConnection peer host.clock
  let (c, host) ← host.record c.connect
  return flush { st with connection := some c, peer := some peer } host

def connect (config : StreamConfig) (names : List String) (host : Net.Host) :
    Except OpenError (Except Fault (UdpStream × Net.Host)) := do
  let peer ← resolve .peer names
  let (st, host) ← bindAt config ⟨peer.ip.unspecified, 0⟩ host
  return st.opening peer host

end TcpStack.UdpStream

import Std.Async.Timer
import Std.Async.UDP
import TcpStack.Echo.Client
import TcpStack.Echo.Server

/-! The command line: the echo server and the echo client on a real datagram socket. Whatever the socket
receives goes into the inbox of a host whose clock follows the real one, and whatever that host sends
goes out through the socket. All decisions are those of the session. -/

namespace TcpStack.CommandLine

open Std.Async

def toSocketAddress (address : Net.Address) : Std.Net.SocketAddress :=
  match address.ip with
  | .v4 a b c d => .v4 ⟨⟨#v[a, b, c, d]⟩, address.port⟩
  | .v6 groups _ => .v6 ⟨⟨groups⟩, address.port⟩

def ofSocketAddress : Std.Net.SocketAddress → Net.Address
  | .v4 a =>
    ⟨.v4 (a.addr.octets.get 0) (a.addr.octets.get 1) (a.addr.octets.get 2) (a.addr.octets.get 3),
      a.port⟩
  | .v6 a => ⟨.v6 a.addr.segments 0, a.port⟩

structure LiveSocket where
  socket : UDP.Socket
  began : Nat

def LiveSocket.micros (live : LiveSocket) : IO Nat := do
  return ((← IO.monoNanosNow) - live.began) / 1000

def freshHost : IO Net.Host := do
  let wall ← Std.Time.Timestamp.now
  let key ← IO.getRandomBytes 16
  return {
    limit := Count.greatest
    wallStart := wall.toMillisecondsSinceUnixEpoch.val
    key := key.toList }

def LiveSocket.receive? (live : LiveSocket) (millis : Nat) : IO (Option (Bytes × Net.Address)) :=
  Async.block do
    let arrived ← Selectable.one #[
      .case (live.socket.recvSelector (UInt64.ofNat Net.Host.receiveSize)) (pure ∘ some),
      .case (← Selector.sleep (Std.Time.Millisecond.Offset.ofNat millis)) fun _ => pure none]
    return match arrived with
      | some (bytes, some source) => some (bytes.toList, ofSocketAddress source)
      | _ => none

def LiveSocket.transmit (live : LiveSocket) (host : Net.Host) : IO Net.Host := do
  for datagram in host.sent do
    try
      Async.block (live.socket.send datagram.bytes.toByteArray (toSocketAddress datagram.dest))
    catch _ => pure ()
  return { host with sent := [], journal := [] }

def unwrap (result : Except Fault α) : IO α :=
  match result with
  | .ok a => return a
  | .error fault => throw (IO.userError fault.message)

def printLines (s : Echo.Session) : IO Echo.Session := do
  let out ← IO.getStdout
  for line in s.printed.reverse do
    out.putStrLn line
  out.flush
  return { s with printed := [] }

def close (live : LiveSocket) (s : Echo.Session) : IO Unit := do
  discard (live.transmit (← unwrap (s.stream.drop s.host)))

/-- Goes on until the session ends. `quietSince` is when the last event came or the stream was last found
active. -/
partial def serve (live : LiveSocket) (react : Echo.Session.Reaction) (quietSince : Nat)
    (s : Echo.Session) : IO Unit := do
  let now ← live.micros
  let (event, stream, host) ← unwrap (s.stream.poll { s.host with clock := now })
  let s := { s with stream, host := ← live.transmit host }
  match event with
  | some event =>
    let (s, ends) ← unwrap (react s event)
    let s ← printLines { s with host := ← live.transmit s.host }
    if ends then close live s else serve live react now s
  | none =>
    let waited := Echo.eventTimeout ≤ now - quietSince
    if waited && !s.stream.active then
      discard (printLines (s.print "closed"))
      close live s
    else
      let host ← match ← live.receive? s.stream.config.pollInterval with
        | some (bytes, source) => pure (s.host.deliver s.stream.socket ⟨now, source, bytes⟩)
        | none => pure s.host
      serve live react (if waited then now else quietSince) { s with host }

def bindLive (address : Net.Address) : IO (LiveSocket × Net.Address) := do
  let socket ← UDP.Socket.mk
  socket.bind (toSocketAddress address)
  return (⟨socket, ← IO.monoNanosNow⟩, ofSocketAddress (← socket.getSockName))

/-- Runs a program whose socket is bound to `home`, after `prepare` has readied its stream. -/
def runAt (home : Net.Address) (react : Echo.Session.Reaction)
    (prepare : Echo.Session → Except Fault Echo.Session) : IO Unit := do
  let (live, home) ← bindLive home
  match UdpStream.bindAt {} home (← freshHost) with
  | .error e => throw (IO.userError e.message)
  | .ok (stream, host) => serve live react 0 (← printLines (← unwrap (prepare { stream, host })))

def resolved (endpoint : UdpStream.Endpoint) (name : String) : IO Net.Address :=
  match UdpStream.resolve endpoint [name] with
  | .ok address => return ofSocketAddress (toSocketAddress address)
  | .error e => throw (IO.userError e.message)

def serverMain (args : List String) : IO Unit := do
  let home ← resolved .home (args.headD Echo.Server.defaultAddress)
  runAt home Echo.Server.react fun s =>
    return s.print ("listening on " ++ s.stream.home.text)

def clientMain (args : List String) : IO Unit := do
  let peer ← resolved .peer (args.headD Echo.Client.defaultAddress)
  runAt ⟨peer.ip.unspecified, 0⟩ (Echo.Client.react (Echo.Client.message args)) fun s => do
    let (stream, host) ← s.stream.opening peer s.host
    return { s with stream, host }

end TcpStack.CommandLine

def main (args : List String) : IO UInt32 := do
  match args with
  | "server" :: rest =>
    TcpStack.CommandLine.serverMain rest
    return 0
  | "client" :: rest =>
    TcpStack.CommandLine.clientMain rest
    return 0
  | _ =>
    IO.eprintln "usage: server [ADDRESS] | client [ADDRESS [MESSAGE]]"
    return 2

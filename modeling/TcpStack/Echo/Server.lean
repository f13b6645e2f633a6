import TcpStack.Echo.Session

/-! The echo server: it sends back all that its one client sends, and finishes when the client has. -/

namespace TcpStack.Echo.Server

def defaultAddress : String := "127.0.0.1:8888"

def react : Session.Reaction
  | s, .connected =>
    return (s.print ("udp::Event::Connect " ++ Net.Address.optionText s.stream.peer), false)
  | s, .received bytes => do
    let (s, accepted) ← (s.print (receivedLine bytes)).write bytes
    if accepted < bytes.length then
      let lost := toString (bytes.length - accepted)
      return (s.print ("outbound stream full, dropped " ++ lost ++ " bytes"), false)
    return (s, false)
  | s, .disconnected => do return (← (s.print "udp::Event::Disconnect").finish, false)
  | s, .failed cause => return (s.print (failedLine cause), true)

def start (args : List String) (host : Net.Host) : Except UdpStream.OpenError Session := do
  let (stream, host) ← UdpStream.listen {} [args.headD defaultAddress] host
  let s : Session := { stream, host }
  return s.print ("listening on " ++ stream.home.text)

end TcpStack.Echo.Server

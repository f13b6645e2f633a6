import TcpStack.Echo.Session
import TcpStack.Text.Utf8

/-! The echo client: it sends a message, finishes, and prints what comes back. -/

namespace TcpStack.Echo.Client

def defaultAddress : String := "127.0.0.1:8888"

def defaultMessage : String := "hello, bramble"

def react (message : String) : Session.Reaction
  | s, .connected => do
    let (s, _) ← (s.print "udp::Event::Connect").write message.toUTF8.toList
    return (← s.finish, false)
  | s, .received bytes =>
    return ({ s.print (receivedLine bytes) with memory := s.memory ++ bytes }, false)
  | s, .disconnected =>
    return ((s.print "udp::Event::Disconnect").print ("echo: " ++ Text.Utf8.decode s.memory), false)
  | s, .failed cause => return (s.print (failedLine cause), true)

def message (args : List String) : String := (args.drop 1).headD defaultMessage

def start (args : List String) (host : Net.Host) :
    Except UdpStream.OpenError (Except Fault Session) := do
  let opened ← UdpStream.connect {} [args.headD defaultAddress] host
  return opened.map fun (stream, host) => { stream, host }

end TcpStack.Echo.Client

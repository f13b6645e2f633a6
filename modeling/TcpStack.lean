import TcpStack.Main
import TcpStack.ByteStream.Ring.Lemmas
import TcpStack.Exchange.Basic
import TcpStack.Reassembler.Call
import TcpStack.Sender.Call
import TcpStack.Connection.Call
import TcpStack.ByteStream.Cells
import TcpStack.Proofs.Connection.Opening
import TcpStack.Proofs.Connection.Naming
import TcpStack.Proofs.Reassembler.History
import TcpStack.Proofs.Duplex.FlowControl
import TcpStack.Proofs.Connection.Faultless
import TcpStack.Proofs.Sender.Opening
import TcpStack.Proofs.Exchange.Settling
import TcpStack.Proofs.Receiver.Admission
import TcpStack.Proofs.UdpStream.Connecting
import TcpStack.Proofs.UdpStream.Punctual
import TcpStack.Proofs.Receiver.Finishing
import TcpStack.Proofs.Reassembler.ByteMap
import TcpStack.Proofs.Reassembler.Completion
import TcpStack.Proofs.Reassembler.Redelivery
import TcpStack.Proofs.Sender.Reachable
import TcpStack.Proofs.Sender.Filling
import TcpStack.Proofs.Sender.States
import TcpStack.Proofs.Sender.Backoff
import TcpStack.Proofs.Connection.Copies
import TcpStack.Proofs.Connection.TimeWait
import TcpStack.Proofs.Connection.Ticking
import TcpStack.Proofs.ByteStream.History
import TcpStack.Proofs.Segment.Frame
import TcpStack.Proofs.UdpStream.Strangers
import TcpStack.Proofs.UdpStream.Outflow
import TcpStack.Proofs.UdpStream.Waiting

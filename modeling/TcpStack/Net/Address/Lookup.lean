import TcpStack.Net.Address.Parse
import TcpStack.Wire.Word

/-! Looking up a host and a port, for the hosts that need no name service since they are numbers: an IPv6
address without brackets, or an IPv4 address of one to four parts, of which the last takes all bytes
that the others leave. A part is decimal, octal after a zero, or hexadecimal after `0x`. -/

namespace TcpStack.Net

inductive LookupError where
  | noPort
  | malformedPort
  | zeroInHost
  | unknownHost
deriving DecidableEq, Repr

def part? (text : String) : Option Nat :=
  match text.toList with
  | '0' :: 'x' :: digits | '0' :: 'X' :: digits => number? 16 UInt32.size digits
  | '0' :: digit :: digits => number? 8 UInt32.size (digit :: digits)
  | digits => number? 10 UInt32.size digits

def ofParts? (front : List Nat) (last : Nat) : Option IpAddress :=
  let count := 4 - front.length
  if 3 < front.length || front.any (256 ≤ ·) || Wire.Word.bound count ≤ last then none
  else
    match front.map UInt8.ofNat ++ Wire.Word.encode count last with
    | [a, b, c, d] => some (.v4 a b c d)
    | _ => none

def partsHost? (text : String) : Option IpAddress := do
  match (← (text.splitOn ".").mapM part?).reverse with
  | last :: front => ofParts? front.reverse last
  | [] => none

def numericHost? (text : String) : Option IpAddress := partsHost? text <|> ipv6? text

def signedPort? (text : String) : Option UInt16 :=
  match text.toList with
  | '+' :: digits => port? (String.ofList digits)
  | digits => port? (String.ofList digits)

/-- The address of a host and a port, which stands behind the last colon. A host holds no zero
character. -/
def Address.lookup (text : String) : Except LookupError Address :=
  match (text.splitOn ":").reverse with
  | port :: last :: front =>
    match signedPort? port with
    | none => .error .malformedPort
    | some port =>
      let host := ":".intercalate (front.reverse ++ [last])
      if host.contains '\x00' then .error .zeroInHost
      else
        match numericHost? host with
        | none => .error .unknownHost
        | some ip => .ok ⟨ip, port⟩
  | _ => .error .noPort

end TcpStack.Net

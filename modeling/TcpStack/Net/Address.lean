import TcpStack.Text.Hex

/-! Addresses of datagrams, and their text. In the text of an IPv6 address the longest run of zero
groups, the first of equal ones, is left out if it has more than one group, and an address that
stands for an IPv4 one shows that one. A scope follows after a percent sign. -/

namespace TcpStack.Net

inductive IpAddress where
  | v4 (a b c d : UInt8)
  | v6 (groups : Vector UInt16 8) (scope : UInt32)
deriving DecidableEq, Repr

structure Address where
  ip : IpAddress
  port : UInt16
deriving DecidableEq, Repr

namespace IpAddress

def octets : IpAddress → Bytes
  | .v4 a b c d => [a, b, c, d]
  | .v6 groups _ =>
    groups.toList.flatMap fun g => [UInt8.ofNat (g.toNat / 256), UInt8.ofNat (g.toNat % 256)]

def unspecified : IpAddress → IpAddress
  | .v4 .. => .v4 0 0 0 0
  | .v6 .. => .v6 (Vector.replicate 8 0) 0

def loopback : IpAddress → IpAddress
  | .v4 .. => .v4 127 0 0 1
  | .v6 _ scope => .v6 #v[0, 0, 0, 0, 0, 0, 0, 1] scope

/-- It stands for every local address, or for every one of its scope. -/
def isUnspecified (ip : IpAddress) : Bool := ip.octets.all (· == 0)

def quad (a b c d : Nat) : String := ".".intercalate ([a, b, c, d].map toString)

def zerosAt (groups : List UInt16) (i : Nat) : Nat :=
  ((groups.drop i).takeWhile (· == 0)).length

def longestZeros (groups : List UInt16) : Nat :=
  (List.range groups.length).foldl
    (fun best i => if zerosAt groups best < zerosAt groups i then i else best) 0

def groupsText (groups : List UInt16) : String :=
  ":".intercalate (groups.map fun g => String.ofList (Nat.toDigits 16 g.toNat))

def v6Text (groups : Vector UInt16 8) : String :=
  match groups.toList with
  | [0, 0, 0, 0, 0, 0xffff, high, low] =>
    "::ffff:" ++ quad (high.toNat / 256) (high.toNat % 256) (low.toNat / 256) (low.toNat % 256)
  | groups =>
    let first := longestZeros groups
    let count := zerosAt groups first
    if 1 < count then
      groupsText (groups.take first) ++ "::" ++ groupsText (groups.drop (first + count))
    else groupsText groups

def text : IpAddress → String
  | .v4 a b c d => quad a.toNat b.toNat c.toNat d.toNat
  | .v6 groups scope =>
    v6Text groups ++ (if scope = 0 then "" else "%" ++ toString scope.toNat)

end IpAddress

def Address.text (address : Address) : String :=
  match address.ip with
  | .v4 .. => address.ip.text ++ ":" ++ toString address.port.toNat
  | .v6 .. => "[" ++ address.ip.text ++ "]:" ++ toString address.port.toNat

def Address.optionText : Option Address → String
  | some address => "Some(" ++ address.text ++ ")"
  | none => "None"

end TcpStack.Net

import TcpStack.Net.Address

/-! Reading addresses. An IPv4 address is four decimal numbers without leading zeros; an IPv6 address
is up to eight groups of at most four hexadecimal digits, one run of zero groups may be left out, and
the last two groups may be written as an IPv4 address. A scope is a decimal number. -/

namespace TcpStack.Net

def number? (base bound : Nat) (digits : List Char) : Option Nat := do
  let values ← digits.mapM Text.Hex.value?
  let n := values.foldl (fun n d => n * base + d) 0
  if values.isEmpty || values.any (base ≤ ·) || bound ≤ n then none else some n

def octet? (text : String) : Option UInt8 := do
  let n ← number? 10 256 text.toList
  if 1 < text.length && text.startsWith "0" then none else some (UInt8.ofNat n)

def group? (text : String) : Option UInt16 := do
  let n ← number? 16 UInt16.size text.toList
  if 4 < text.length then none else some (UInt16.ofNat n)

def port? (text : String) : Option UInt16 :=
  (number? 10 UInt16.size text.toList).map UInt16.ofNat

def quad? (text : String) : Option (UInt8 × UInt8 × UInt8 × UInt8) :=
  match text.splitOn "." with
  | [a, b, c, d] => do return (← octet? a, ← octet? b, ← octet? c, ← octet? d)
  | _ => none

def groups? : (parts : List String) → Option (List UInt16)
  | [] => some []
  | [last] =>
    match quad? last with
    | some (a, b, c, d) =>
      some [UInt16.ofNat (a.toNat * 256 + b.toNat), UInt16.ofNat (c.toNat * 256 + d.toNat)]
    | none => (group? last).map ([·])
  | part :: rest => do return (← group? part) :: (← groups? rest)

def sideGroups? (text : String) : Option (List UInt16) :=
  if text.isEmpty then some [] else groups? (text.splitOn ":")

def eightGroups? (groups : List UInt16) : Option (Vector UInt16 8) :=
  if h : groups.toArray.size = 8 then some ⟨groups.toArray, h⟩ else none

def allGroups? (text : String) : Option (Vector UInt16 8) :=
  match text.splitOn "::" with
  | [whole] => do eightGroups? (← groups? (whole.splitOn ":"))
  | [left, right] => do
    let front ← sideGroups? left
    let back ← sideGroups? right
    if left.contains '.' || 7 < front.length + back.length then none
    else eightGroups? (front ++ List.replicate (8 - front.length - back.length) 0 ++ back)
  | _ => none

def ipv6? (text : String) : Option IpAddress :=
  match text.splitOn "%" with
  | [groups] => do return .v6 (← allGroups? groups) 0
  | [groups, scope] => do
    return .v6 (← allGroups? groups) (UInt32.ofNat (← number? 10 UInt32.size scope.toList))
  | _ => none

def Address.parse? (text : String) : Option Address :=
  match text.splitOn "]:" with
  | [whole] =>
    match whole.splitOn ":" with
    | [ip, port] => do
      let (a, b, c, d) ← quad? ip
      return ⟨.v4 a b c d, ← port? port⟩
    | _ => none
  | [ip, port] =>
    if ip.startsWith "[" then do
      return ⟨← ipv6? (String.ofList (ip.toList.drop 1)), ← port? port⟩
    else none
  | _ => none

end TcpStack.Net

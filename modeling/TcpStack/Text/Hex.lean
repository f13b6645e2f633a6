import TcpStack.Basic

/-! Hexadecimal text. -/

namespace TcpStack.Text.Hex

def digits (table : Nat → Char) : (count : Nat) → (value : Nat) → List Char
  | 0, _ => []
  | count + 1, value => digits table count (value / 16) ++ [table (value % 16)]

def lower (digit : Nat) : Char := Nat.digitChar digit

def upper (digit : Nat) : Char := (Nat.digitChar digit).toUpper

def ofWord (word : UInt64) : String := String.ofList (digits lower 16 word.toNat)

def ofBytes (bytes : Bytes) : String :=
  String.ofList (bytes.flatMap fun b => digits lower 2 b.toNat)

def listing (bytes : Bytes) : String :=
  "[" ++ ", ".intercalate (bytes.map fun b => String.ofList (digits upper 2 b.toNat)) ++ "]"

def value? (c : Char) : Option Nat :=
  if '0' ≤ c ∧ c ≤ '9' then some (c.toNat - '0'.toNat)
  else if 'a' ≤ c ∧ c ≤ 'f' then some (c.toNat - 'a'.toNat + 10)
  else if 'A' ≤ c ∧ c ≤ 'F' then some (c.toNat - 'A'.toNat + 10)
  else none

def parse? : List Char → Option Bytes
  | [] => some []
  | high :: low :: rest => do
    let high ← value? high
    let low ← value? low
    let bytes ← parse? rest
    return UInt8.ofNat (16 * high + low) :: bytes
  | _ => none

end TcpStack.Text.Hex

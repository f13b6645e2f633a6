import TcpStack.Basic

/-! Reading bytes as UTF-8 where they need not be well formed. A replacement character stands for each
longest part that begins a character and does not complete it, and for each byte that begins none. -/

namespace TcpStack.Text.Utf8

structure Begun where
  value : Nat
  missing : Nat
  low : Nat := 0x80
  high : Nat := 0xbf
deriving DecidableEq, Repr

def replacement : Char := Char.ofNat 0xfffd

structure Reading where
  chars : List Char := []
  begun : Option Begun := none
deriving Repr

/-- Takes a byte that begins a character. The bounds on the second byte rule out longer forms than
needed, surrogates and values past the last character. -/
def start (chars : List Char) (b : Nat) : Reading :=
  let lead (begun : Begun) : Reading := ⟨chars, some begun⟩
  if b < 0x80 then ⟨Char.ofNat b :: chars, none⟩
  else if b < 0xc2 then ⟨replacement :: chars, none⟩
  else if b < 0xe0 then lead { value := b - 0xc0, missing := 1 }
  else if b = 0xe0 then lead { value := 0, missing := 2, low := 0xa0 }
  else if b = 0xed then lead { value := 0xd, missing := 2, high := 0x9f }
  else if b < 0xf0 then lead { value := b - 0xe0, missing := 2 }
  else if b = 0xf0 then lead { value := 0, missing := 3, low := 0x90 }
  else if b < 0xf4 then lead { value := b - 0xf0, missing := 3 }
  else if b = 0xf4 then lead { value := 4, missing := 3, high := 0x8f }
  else ⟨replacement :: chars, none⟩

def step (reading : Reading) (byte : UInt8) : Reading :=
  let b := byte.toNat
  match reading.begun with
  | none => start reading.chars b
  | some begun =>
    if begun.low ≤ b ∧ b ≤ begun.high then
      let value := begun.value * 64 + (b - 0x80)
      if begun.missing = 1 then ⟨Char.ofNat value :: reading.chars, none⟩
      else ⟨reading.chars, some { value, missing := begun.missing - 1 }⟩
    else start (replacement :: reading.chars) b

def decode (bytes : Bytes) : String :=
  let reading := bytes.foldl step {}
  let chars := if reading.begun.isSome then replacement :: reading.chars else reading.chars
  String.ofList chars.reverse

end TcpStack.Text.Utf8

import TcpStack.Basic

/-! Words on the wire, most significant byte first. `encode` and `decode` are inverse to each other
on values that fit the count of bytes. -/

namespace TcpStack.Wire.Word

def encode : (count : Nat) → (value : Nat) → Bytes
  | 0, _ => []
  | count + 1, value => encode count (value / 256) ++ [UInt8.ofNat value]

def bound : (count : Nat) → Nat
  | 0 => 1
  | count + 1 => bound count * 256

def decode (bytes : Bytes) : Nat := bytes.foldl (fun value b => value * 256 + b.toNat) 0

@[simp] theorem length_encode (count value : Nat) : (encode count value).length = count := by
  induction count generalizing value with
  | zero => rfl
  | succ count ih => simp [encode, ih]

theorem decode_append_singleton (bytes : Bytes) (b : UInt8) :
    decode (bytes ++ [b]) = decode bytes * 256 + b.toNat := by
  simp [decode, List.foldl_append]

theorem decode_encode (count value : Nat) (h : value < bound count) :
    decode (encode count value) = value := by
  induction count generalizing value with
  | zero => simp_all [bound, encode, decode]
  | succ count ih =>
    rw [encode, decode_append_singleton, ih _ (by rw [bound] at h; omega)]
    simp only [UInt8.toNat_ofNat']
    omega

end TcpStack.Wire.Word

import TcpStack.Basic

/-! Two hashes of byte strings. FNV-1a gives the digest of a record. SipHash-1-3 has a key: one round for each word of
the message, three rounds at the end; words are little-endian, and the last word carries the length of the message in
its top byte. -/

namespace TcpStack.Digest

namespace Fnv

def start : UInt64 := 0xcbf29ce484222325

def prime : UInt64 := 0x100000001b3

def step (state : UInt64) (b : UInt8) : UInt64 := (state ^^^ b.toUInt64) * prime

def absorb (state : UInt64) (bytes : Bytes) : UInt64 := bytes.foldl step state

def digest (bytes : Bytes) : UInt64 := absorb start bytes

end Fnv

namespace SipHash

structure Lanes where
  v0 : UInt64
  v1 : UInt64
  v2 : UInt64
  v3 : UInt64
deriving DecidableEq, Repr

def rotateLeft (word amount : UInt64) : UInt64 :=
  (word <<< amount) ||| (word >>> (64 - amount))

def round (s : Lanes) : Lanes :=
  let v0 := s.v0 + s.v1
  let v1 := rotateLeft s.v1 13 ^^^ v0
  let v0 := rotateLeft v0 32
  let v2 := s.v2 + s.v3
  let v3 := rotateLeft s.v3 16 ^^^ v2
  let v0 := v0 + v3
  let v3 := rotateLeft v3 21 ^^^ v0
  let v2 := v2 + v1
  let v1 := rotateLeft v1 17 ^^^ v2
  let v2 := rotateLeft v2 32
  ⟨v0, v1, v2, v3⟩

def littleEndian (bytes : Bytes) : UInt64 :=
  bytes.foldr (fun b word => (word <<< 8) ||| b.toUInt64) 0

def lanesOfKey (key : Bytes) : Lanes :=
  let k0 := littleEndian (key.take 8)
  let k1 := littleEndian ((key.drop 8).take 8)
  ⟨k0 ^^^ 0x736f6d6570736575, k1 ^^^ 0x646f72616e646f6d,
    k0 ^^^ 0x6c7967656e657261, k1 ^^^ 0x7465646279746573⟩

def absorb (s : Lanes) (word : UInt64) : Lanes :=
  let s := round { s with v3 := s.v3 ^^^ word }
  { s with v0 := s.v0 ^^^ word }

def absorbAll (length : Nat) : (words : Nat) → Bytes → Lanes → Lanes
  | 0, rest, s => absorb s (littleEndian rest ||| (UInt64.ofNat length <<< 56))
  | words + 1, bytes, s =>
    absorbAll length words (bytes.drop 8) (absorb s (littleEndian (bytes.take 8)))

def hash (key message : Bytes) : UInt64 :=
  let s := absorbAll message.length (message.length / 8) message (lanesOfKey key)
  let s := round (round (round { s with v2 := s.v2 ^^^ 0xff }))
  s.v0 ^^^ s.v1 ^^^ s.v2 ^^^ s.v3

end SipHash
end TcpStack.Digest

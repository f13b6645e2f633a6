import Mathlib.Data.List.Induction
import TcpStack.Wire.Header

/-! Frames and segments, each made from the other. A segment comes back from its frame as it was. A frame that is
long enough and has no options is read, and what it carries is written as the same frame again, with all that a
header has no use for set to zero. -/

namespace TcpStack

namespace Wire

theorem Word.decode_lt (bytes : Bytes) : Word.decode bytes < Word.bound bytes.length := by
  induction bytes using List.reverseRecOn with
  | nil => exact Nat.one_pos
  | append_singleton bytes b ih =>
    have byte := b.toNat_lt
    rw [Word.decode_append_singleton, List.length_append, List.length_singleton, Word.bound]
    omega

theorem Word.encode_decode (bytes : Bytes) : Word.encode bytes.length (Word.decode bytes) = bytes := by
  induction bytes using List.reverseRecOn with
  | nil => rfl
  | append_singleton bytes b ih =>
    have byte := b.toNat_lt
    have high : (Word.decode bytes * 256 + b.toNat) / 256 = Word.decode bytes := by omega
    have low : UInt8.ofNat (Word.decode bytes * 256 + b.toNat) = b := by
      rw [← UInt8.toNat_inj, UInt8.toNat_ofNat']
      omega
    rw [Word.decode_append_singleton, List.length_append, List.length_singleton, Word.encode, high, low, ih]

def field (bytes : Bytes) (first count : Nat) : Bytes := (bytes.drop first).take count

theorem length_field {bytes : Bytes} {first count : Nat} (inside : first + count ≤ bytes.length) :
    (field bytes first count).length = count := by
  unfold field
  rw [List.length_take, List.length_drop]
  omega

theorem field_append_drop (bytes : Bytes) (first count : Nat) :
    field bytes first count ++ bytes.drop (first + count) = bytes.drop first := by
  unfold field
  rw [← List.drop_drop, List.take_append_drop]

theorem field_one {bytes : Bytes} {first : Nat} (inside : first < bytes.length) :
    field bytes first 1 = [bytes[first]] := by
  unfold field
  rw [List.drop_eq_getElem_cons inside]
  rfl

theorem field_front {word : Bytes} {count : Nat} (rest : Bytes) (length_eq : word.length = count) :
    field (word ++ rest) 0 count = word := by
  unfold field
  rw [List.drop_zero, List.take_left' length_eq]

theorem field_behind {word : Bytes} {first : Nat} (rest : Bytes) (count : Nat) (behind : word.length ≤ first) :
    field (word ++ rest) first count = field rest (first - word.length) count := by
  unfold field
  rw [List.drop_append, List.drop_of_length_le behind, List.nil_append]

@[simp] theorem Word.decode_singleton (b : UInt8) : Word.decode [b] = b.toNat := by
  simp [Word.decode]

theorem Reader.word?_eq (bytes : Bytes) (consumed count : Nat) :
    (Reader.mk bytes consumed).word? count =
      if count ≤ bytes.length - consumed then
        some (Word.decode (field bytes consumed count), Reader.mk bytes (consumed + count))
      else none := by
  unfold Reader.word? field
  simp only [List.length_drop]

variable {α : Type} {bytes : Bytes} {consumed count : Nat} {next : Nat × Reader → Option α}

theorem Reader.bind_word?_of_le (inside : consumed + count ≤ bytes.length) :
    (Reader.mk bytes consumed).word? count >>= next =
      next (Word.decode (field bytes consumed count), Reader.mk bytes (consumed + count)) := by
  rw [Reader.word?_eq, if_pos (by omega)]
  rfl

theorem Reader.bind_word?_eq_none (missing : consumed ≤ bytes.length → consumed + count ≤ bytes.length →
      ∀ value, next (value, Reader.mk bytes (consumed + count)) = none) (before : consumed ≤ bytes.length) :
    (Reader.mk bytes consumed).word? count >>= next = none := by
  rw [Reader.word?_eq]
  split
  · exact missing before (by omega) _
  · rfl

end Wire

open Wire

namespace Header

def read (bytes : Bytes) : Header where
  sourcePort := UInt16.ofNat (Word.decode (field bytes 0 2))
  destPort := UInt16.ofNat (Word.decode (field bytes 2 2))
  seqno := ⟨UInt32.ofNat (Word.decode (field bytes 4 4))⟩
  ackno := ⟨UInt32.ofNat (Word.decode (field bytes 8 4))⟩
  urg := (Word.decode (field bytes 13 1)).testBit 5
  ack := (Word.decode (field bytes 13 1)).testBit 4
  psh := (Word.decode (field bytes 13 1)).testBit 3
  rst := (Word.decode (field bytes 13 1)).testBit 2
  syn := (Word.decode (field bytes 13 1)).testBit 1
  fin := (Word.decode (field bytes 13 1)).testBit 0
  window := UInt16.ofNat (Word.decode (field bytes 14 2))

theorem decode?_of_long {bytes : Bytes} (long : size ≤ bytes.length) :
    decode? bytes =
      if Word.decode (field bytes 12 1) / 16 ≠ sizeWords then none else some (read bytes, size) := by
  unfold size at long
  unfold decode?
  iterate 9 refine (Reader.bind_word?_of_le (by omega)).trans ?_
  rfl

theorem decode?_of_short {bytes : Bytes} (short : bytes.length < size) : decode? bytes = none := by
  unfold size at short
  unfold decode?
  iterate 9 refine Reader.bind_word?_eq_none (fun _ inside _ => ?_) (by omega)
  omega

theorem flagByte_bits (header : Header) :
    header.flagByte < 64 ∧
      header.flagByte.testBit 5 = header.urg ∧ header.flagByte.testBit 4 = header.ack ∧
      header.flagByte.testBit 3 = header.psh ∧ header.flagByte.testBit 2 = header.rst ∧
      header.flagByte.testBit 1 = header.syn ∧ header.flagByte.testBit 0 = header.fin := by
  have urg := header.urg.toNat_le
  have ack := header.ack.toNat_le
  have psh := header.psh.toNat_le
  have rst := header.rst.toNat_le
  have syn := header.syn.toNat_le
  have fin := header.fin.toNat_le
  have bit {value i : Nat} {flag : Bool} (h : value / 2 ^ i % 2 = flag.toNat) : value.testBit i = flag := by
    rw [Bool.eq_iff_iff, ← Bool.toNat_eq_one, Nat.toNat_testBit, h, Bool.toNat_eq_one]
  unfold flagByte
  refine ⟨?_, bit ?_, bit ?_, bit ?_, bit ?_, bit ?_, bit ?_⟩ <;> omega

theorem flagByte_read (bytes : Bytes) : (read bytes).flagByte = Word.decode (field bytes 13 1) % 64 := by
  unfold flagByte read
  simp only [Nat.toNat_testBit]
  omega

theorem decode_encode_of_toNat16 (value : UInt16) :
    UInt16.ofNat (Word.decode (Word.encode 2 value.toNat)) = value := by
  rw [Word.decode_encode 2 _ value.toNat_lt, UInt16.ofNat_toNat]

theorem decode_encode_of_toNat32 (value : UInt32) :
    UInt32.ofNat (Word.decode (Word.encode 4 value.toNat)) = value := by
  rw [Word.decode_encode 4 _ value.toNat_lt, UInt32.ofNat_toNat]

theorem fields_encode (header : Header) (payload : Bytes) :
    let bytes := header.encode ++ payload
    field bytes 0 2 = Word.encode 2 header.sourcePort.toNat ∧ field bytes 2 2 = Word.encode 2 header.destPort.toNat ∧
      field bytes 4 4 = Word.encode 4 header.seqno.value.toNat ∧
      field bytes 8 4 = Word.encode 4 header.ackno.value.toNat ∧
      field bytes 12 1 = Word.encode 1 (sizeWords * 16) ∧
      field bytes 13 1 = Word.encode 1 header.flagByte ∧ field bytes 14 2 = Word.encode 2 header.window.toNat := by
  unfold encode
  simp only [List.append_assoc]
  refine ⟨?_, ?_, ?_, ?_, ?_, ?_, ?_⟩
  all_goals simp [field_front, field_behind]

theorem read_encode (header : Header) (payload : Bytes) : read (header.encode ++ payload) = header := by
  obtain ⟨flagByte_lt, urg, ack, psh, rst, syn, fin⟩ := header.flagByte_bits
  have flags : Word.decode (Word.encode 1 header.flagByte) = header.flagByte :=
    Word.decode_encode 1 _ (Nat.lt_trans flagByte_lt (by decide))
  obtain ⟨sourcePort, destPort, seqno, ackno, -, flagByte, window⟩ := header.fields_encode payload
  unfold read
  rw [sourcePort, destPort, seqno, ackno, flagByte, window, flags, urg, ack, psh, rst, syn, fin]
  simp only [decode_encode_of_toNat16, decode_encode_of_toNat32]

theorem decode?_encode (header : Header) (payload : Bytes) :
    decode? (header.encode ++ payload) = some (header, size) := by
  obtain ⟨-, -, -, -, length, -, -⟩ := header.fields_encode payload
  have plain : Word.decode (Word.encode 1 (sizeWords * 16)) / 16 = sizeWords := by decide
  rw [decode?_of_long (by simp), length, if_neg (not_not.mpr plain), read_encode]

theorem encode_read {bytes : Bytes} (long : size ≤ bytes.length) :
    (read bytes).encode =
      field bytes 0 2 ++ field bytes 2 2 ++ field bytes 4 4 ++ field bytes 8 4 ++ [0x50] ++
        [UInt8.ofNat (Word.decode (field bytes 13 1) % 64)] ++ field bytes 14 2 ++ [0, 0] ++ [0, 0] := by
  unfold size at long
  have word (first count : Nat) (inside : first + count ≤ 20) :
      Word.encode count (Word.decode (field bytes first count)) = field bytes first count ∧
        Word.decode (field bytes first count) < Word.bound count := by
    have length_eq : (field bytes first count).length = count := length_field (Nat.le_trans inside long)
    constructor
    · have inverse := Word.encode_decode (field bytes first count)
      rwa [length_eq] at inverse
    · have lt := Word.decode_lt (field bytes first count)
      rwa [length_eq] at lt
  have short (first : Nat) (inside : first + 2 ≤ 20) :
      (UInt16.ofNat (Word.decode (field bytes first 2))).toNat = Word.decode (field bytes first 2) :=
    UInt16.toNat_ofNat_of_lt' (word first 2 inside).2
  have long (first : Nat) (inside : first + 4 ≤ 20) :
      (UInt32.ofNat (Word.decode (field bytes first 4))).toNat = Word.decode (field bytes first 4) :=
    UInt32.toNat_ofNat_of_lt' (word first 4 inside).2
  unfold encode
  rw [flagByte_read]
  simp only [read]
  rw [short 0 (by decide), short 2 (by decide), short 14 (by decide), long 4 (by decide), long 8 (by decide),
    (word 0 2 (by decide)).1, (word 2 2 (by decide)).1, (word 4 4 (by decide)).1, (word 8 4 (by decide)).1,
    (word 14 2 (by decide)).1]
  rfl

end Header
namespace Segment

/-- What is left of the byte at a position: the reserved bits, the checksum and the urgent pointer are cleared. -/
def kept (position : Nat) (b : UInt8) : UInt8 :=
  if position = 12 then b &&& 0xF0
  else if position = 13 then b &&& 0x3F
  else if 16 ≤ position ∧ position < 20 then 0
  else b

def cleared (first : Nat) (bytes : Bytes) : Bytes := bytes.mapIdx fun i => kept (first + i)

theorem cleared_drop {frame : Bytes} {first count : Nat} (inside : first + count ≤ frame.length) :
    cleared first (frame.drop first) =
      cleared first (field frame first count) ++ cleared (first + count) (frame.drop (first + count)) := by
  unfold cleared
  rw [← field_append_drop frame first count, List.mapIdx_append, length_field inside]
  simp only [Nat.add_assoc, Nat.add_comm count]

theorem cleared_of_plain {first : Nat} {bytes : Bytes}
    (plain : first + bytes.length ≤ 12 ∨ 14 ≤ first ∧ first + bytes.length ≤ 16 ∨ 20 ≤ first) :
    cleared first bytes = bytes := by
  unfold cleared kept
  refine List.ext_getElem List.length_mapIdx fun i _ inside => ?_
  rw [List.getElem_mapIdx, if_neg (by omega), if_neg (by omega), if_neg (by omega)]

theorem cleared_of_unused {first : Nat} {bytes : Bytes} (behind : 16 ≤ first)
    (before : first + bytes.length ≤ 20) : cleared first bytes = List.replicate bytes.length 0 := by
  unfold cleared kept
  refine List.ext_getElem (by rw [List.length_mapIdx, List.length_replicate]) fun i inside _ => ?_
  rw [List.length_mapIdx] at inside
  rw [List.getElem_mapIdx, if_neg (by omega), if_neg (by omega), if_pos (by omega), List.getElem_replicate]

theorem high_nibble {b : UInt8} (five : b.toNat / 16 = 5) : b &&& 0xF0 = 0x50 := by
  have all : ∀ low < 16, (80 + low) &&& 240 = 80 := by decide
  have split : b.toNat = 80 + b.toNat % 16 := by omega
  rw [← UInt8.toNat_inj, UInt8.toNat_and, split]
  exact all _ (Nat.mod_lt _ (by decide))

theorem low_bits (b : UInt8) : b &&& 0x3F = UInt8.ofNat (b.toNat % 64) := by
  have fits : b.toNat % 64 < UInt8.size := Nat.lt_trans (Nat.mod_lt _ (by decide)) (by decide : 64 < 256)
  have value := UInt8.toNat_ofNat_of_lt' fits
  rw [← UInt8.toNat_inj, UInt8.toNat_and, value]
  exact Nat.and_two_pow_sub_one_eq_mod _ 6

theorem ofFrame?_of_short {frame : Bytes} (short : frame.length < 20) : ofFrame? frame = none := by
  unfold ofFrame?
  rw [Header.decode?_of_short short]
  rfl

theorem ofFrame?_of_long {frame : Bytes} (long : 20 ≤ frame.length) :
    ofFrame? frame =
      if frame[12].toNat / 16 ≠ 5 then none
      else some { toHeader := Header.read frame, payload := frame.drop 20 } := by
  unfold ofFrame?
  rw [Header.decode?_of_long long, field_one (by omega), Word.decode_singleton]
  split
  case isTrue options => exact (if_pos options).symm
  case isFalse plain => exact (if_neg plain).symm

theorem ofFrame?_toFrame (segment : Segment) : ofFrame? segment.toFrame = some segment := by
  unfold ofFrame? toFrame
  rw [Header.decode?_encode]
  simp only [Option.map_some, List.drop_left' segment.toHeader.length_encode]

theorem cleared_frame {frame : Bytes} (long : 20 ≤ frame.length) (plain : frame[12].toNat / 16 = 5) :
    frame.mapIdx kept = (Header.read frame).encode ++ frame.drop 20 := by
  have whole : frame.mapIdx kept = cleared 0 (frame.drop 0) := by
    unfold cleared
    simp only [Nat.zero_add, List.drop_zero]
  have next (first count : Nat) (inside : first + count ≤ 20) :
      cleared first (frame.drop first) =
        cleared first (field frame first count) ++ cleared (first + count) (frame.drop (first + count)) :=
    cleared_drop (Nat.le_trans inside long)
  have word (first count : Nat) (inside : first + count ≤ 20) : (field frame first count).length = count :=
    length_field (Nat.le_trans inside long)
  have same (first count : Nat) (inside : first + count ≤ 20)
      (plain : first + count ≤ 12 ∨ 14 ≤ first ∧ first + count ≤ 16 ∨ 20 ≤ first) :
      cleared first (field frame first count) = field frame first count :=
    cleared_of_plain (by rwa [word first count inside])
  have unused (first : Nat) (behind : 16 ≤ first) (inside : first + 2 ≤ 20) :
      cleared first (field frame first 2) = [0, 0] := by
    rw [cleared_of_unused behind (by rwa [word first 2 inside]), word first 2 inside]
    rfl
  have offset : cleared 12 (field frame 12 1) = [0x50] := by
    rw [field_one (by omega)]
    exact congrArg (fun b => [b]) (high_nibble plain)
  have flags : cleared 13 (field frame 13 1) = [UInt8.ofNat (Word.decode (field frame 13 1) % 64)] := by
    rw [field_one (by omega), Word.decode_singleton]
    exact congrArg (fun b => [b]) (low_bits frame[13])
  have payload : cleared (18 + 2) (frame.drop (18 + 2)) = frame.drop 20 := cleared_of_plain (by omega)
  rw [whole, next 0 2 (by decide), next 2 2 (by decide), next 4 4 (by decide), next 8 4 (by decide),
    next 12 1 (by decide), next 13 1 (by decide), next 14 2 (by decide), next 16 2 (by decide),
    next 18 2 (by decide), offset, flags, payload, same 0 2 (by decide) (by decide),
    same 2 2 (by decide) (by decide), same 4 4 (by decide) (by decide), same 8 4 (by decide) (by decide),
    same 14 2 (by decide) (by decide), unused 16 (by decide) (by decide), unused 18 (by decide) (by decide),
    Header.encode_read long]
  simp only [List.append_assoc]

theorem toFrame_of_ofFrame? {frame : Bytes} {segment : Segment} (h : ofFrame? frame = some segment) :
    segment.toFrame = frame.mapIdx kept := by
  have long : 20 ≤ frame.length := by
    by_contra short
    rw [ofFrame?_of_short (Nat.not_le.mp short)] at h
    cases h
  rw [ofFrame?_of_long long] at h
  split at h
  case isTrue => cases h
  case isFalse plain =>
    cases h
    exact (cleared_frame long (not_not.mp plain)).symm

/-- What is written is read, a frame is refused if it is short or has options, and what is read is written as it
was but for what a header has no use for. -/
theorem frames_exact :
    (∀ segment : Segment, ofFrame? segment.toFrame = some segment) ∧
    (∀ frame : Bytes, ofFrame? frame = none ↔
      frame.length < 20 ∨ ∃ b : UInt8, frame[12]? = some b ∧ b >>> 4 ≠ 5) ∧
    ∀ (frame : Bytes) (segment : Segment), ofFrame? frame = some segment →
      segment.toFrame = frame.mapIdx kept := by
  refine ⟨ofFrame?_toFrame, fun frame => ?_, fun _ _ => toFrame_of_ofFrame?⟩
  rcases Nat.lt_or_ge frame.length 20 with short | long
  · exact iff_of_true (ofFrame?_of_short short) (.inl short)
  · rw [ofFrame?_of_long long, List.getElem?_eq_getElem (by omega)]
    have nibble : frame[12] >>> 4 = 5 ↔ frame[12].toNat / 16 = 5 := by
      rw [← UInt8.toNat_inj, UInt8.toNat_shiftRight, Nat.shiftRight_eq_div_pow]
      rfl
    simp [nibble, Nat.not_lt.mpr long]

theorem frame_cleared :
    let frame : Bytes := [0, 80, 31, 144, 0, 0, 0, 77, 0, 0, 0, 9, 0x5F, 0xD2, 1, 0, 255, 255, 255, 255, 7, 8]
    let segment : Segment :=
      { sourcePort := 80, destPort := 8080, seqno := ⟨77⟩, ackno := ⟨9⟩, ack := true, syn := true, window := 256,
        payload := [7, 8] }
    ofFrame? frame = some segment ∧
      segment.toFrame = [0, 80, 31, 144, 0, 0, 0, 77, 0, 0, 0, 9, 0x50, 0x12, 1, 0, 0, 0, 0, 0, 7, 8] := by
  intro frame segment
  have read : ofFrame? frame = some segment := by decide
  exact ⟨read, (frames_exact.2.2 frame segment read).trans (by decide)⟩

end Segment
end TcpStack

/- module: ChronoCap/WireFormat
   source: include/chrono_cap/wire_format.hpp
   digest: Shift-and-mask integer codecs and the packed headers of the .bin format. -/

import ChronoCap.Foundation.ByteStore
import ChronoCap.Foundation.LittleEndian
import Mathlib.Tactic.IntervalCases

set_option autoImplicit false
set_option relaxedAutoImplicit false

namespace ChronoCap.WireFormat

open ChronoCap.Foundation.LittleEndian
open ChronoCap.Foundation.ByteStore

/-! Integer codecs. An encoder returns the bytes it stores at its pointer; a decoder
    reads the memory from its pointer on, and `none` is a read past the end of it. -/

def encodeU16 (v : UInt16) : List UInt8 :=
  [(v &&& 0xFF).toUInt8, ((v >>> 8) &&& 0xFF).toUInt8]

def decodeU16 (inp : List UInt8) : Option UInt16 := do
  let b0 ← inp[0]?
  let b1 ← inp[1]?
  return b0.toUInt16 ||| b1.toUInt16 <<< 8

def encodeU32 (v : UInt32) : List UInt8 :=
  [(v &&& 0xFF).toUInt8, ((v >>> 8) &&& 0xFF).toUInt8,
    ((v >>> 16) &&& 0xFF).toUInt8, ((v >>> 24) &&& 0xFF).toUInt8]

def decodeU32 (inp : List UInt8) : Option UInt32 := do
  let b0 ← inp[0]?
  let b1 ← inp[1]?
  let b2 ← inp[2]?
  let b3 ← inp[3]?
  return b0.toUInt32 ||| b1.toUInt32 <<< 8 ||| b2.toUInt32 <<< 16 ||| b3.toUInt32 <<< 24

def encodeU64 (v : UInt64) : List UInt8 :=
  (List.range 8).map (fun i => ((v >>> UInt64.ofNat (8 * i)) &&& 0xFF).toUInt8)

/-- The body of the decoding loop: `v |= in[i] << (8 * i)`. -/
def decodeU64Step (inp : List UInt8) (v : UInt64) (i : Nat) : Option UInt64 := do
  let b ← inp[i]?
  return v ||| b.toUInt64 <<< UInt64.ofNat (8 * i)

def decodeU64 (inp : List UInt8) : Option UInt64 :=
  (List.range 8).foldlM (decodeU64Step inp) 0

theorem encodeU16_eq (v : UInt16) : encodeU16 v = toBytes 2 v.toNat := by
  simp only [encodeU16, toBytes, List.range_succ, List.range_zero, List.map_cons, List.map_nil,
    List.nil_append, List.cons_append, List.cons.injEq, and_true, ← UInt8.toNat_inj]
  simp [Nat.shiftRight_eq_div_pow, Nat.and_two_pow_sub_one_eq_mod _ 8]

theorem encodeU32_eq (v : UInt32) : encodeU32 v = toBytes 4 v.toNat := by
  simp only [encodeU32, toBytes, List.range_succ, List.range_zero, List.map_cons, List.map_nil,
    List.nil_append, List.cons_append, List.cons.injEq, and_true, ← UInt8.toNat_inj]
  simp [Nat.shiftRight_eq_div_pow, Nat.and_two_pow_sub_one_eq_mod _ 8]

theorem encodeU64_eq (v : UInt64) : encodeU64 v = toBytes 8 v.toNat := by
  apply List.map_congr_left
  intro i hi
  have hi : i < 8 := List.mem_range.mp hi
  rw [← UInt8.toNat_inj]
  interval_cases i <;>
    simp [Nat.shiftRight_eq_div_pow, Nat.and_two_pow_sub_one_eq_mod _ 8]

/-! One more byte or-ed in at its place, at each width. -/

private theorem toNat_or_byte16 (acc : UInt16) {k : Nat} (hk : k < 2) (h : acc.toNat < 256 ^ k)
    (b : UInt8) : (acc ||| b.toUInt16 <<< UInt16.ofNat (8 * k)).toNat =
      acc.toNat + 256 ^ k * b.toNat := by
  have hb := b.toNat_lt
  have shift : (b.toUInt16 <<< UInt16.ofNat (8 * k)).toNat = b.toNat <<< (8 * k) := by
    interval_cases k <;> simp [Nat.shiftLeft_eq]
    omega
  rw [UInt16.toNat_or, shift, or_shiftLeft_byte h]

private theorem toNat_or_byte32 (acc : UInt32) {k : Nat} (hk : k < 4) (h : acc.toNat < 256 ^ k)
    (b : UInt8) : (acc ||| b.toUInt32 <<< UInt32.ofNat (8 * k)).toNat =
      acc.toNat + 256 ^ k * b.toNat := by
  have hb := b.toNat_lt
  have shift : (b.toUInt32 <<< UInt32.ofNat (8 * k)).toNat = b.toNat <<< (8 * k) := by
    interval_cases k <;> simp [Nat.shiftLeft_eq] <;> omega
  rw [UInt32.toNat_or, shift, or_shiftLeft_byte h]

private theorem toNat_or_byte64 (acc : UInt64) {k : Nat} (hk : k < 8) (h : acc.toNat < 256 ^ k)
    (b : UInt8) : (acc ||| b.toUInt64 <<< UInt64.ofNat (8 * k)).toNat =
      acc.toNat + 256 ^ k * b.toNat := by
  have hb := b.toNat_lt
  have shift : (b.toUInt64 <<< UInt64.ofNat (8 * k)).toNat = b.toNat <<< (8 * k) := by
    interval_cases k <;> simp [Nat.shiftLeft_eq] <;> omega
  rw [UInt64.toNat_or, shift, or_shiftLeft_byte h]

theorem decodeU16_of_le {inp : List UInt8} (h : 2 ≤ inp.length) :
    decodeU16 inp = some (UInt16.ofNat (ofBytes (inp.take 2))) := by
  match inp, h with
  | b0 :: b1 :: rest, _ =>
      have h0 := b0.toNat_lt
      have h1 := b1.toNat_lt
      have v1 := toNat_or_byte16 b0.toUInt16 (k := 1) (by decide) (by simpa using h0) b1
      have value : (b0.toUInt16 ||| b1.toUInt16 <<< 8).toNat = b0.toNat + 256 * b1.toNat := by
        simpa using v1
      have packed : b0.toUInt16 ||| b1.toUInt16 <<< 8 =
          UInt16.ofNat (ofBytes [b0, b1]) := by
        rw [← UInt16.toNat_inj, value, UInt16.toNat_ofNat']
        simp
        omega
      simp [decodeU16, packed]

theorem decodeU32_of_le {inp : List UInt8} (h : 4 ≤ inp.length) :
    decodeU32 inp = some (UInt32.ofNat (ofBytes (inp.take 4))) := by
  match inp, h with
  | b0 :: b1 :: b2 :: b3 :: rest, _ =>
      have h0 := b0.toNat_lt
      have h1 := b1.toNat_lt
      have h2 := b2.toNat_lt
      have h3 := b3.toNat_lt
      have v1 := toNat_or_byte32 b0.toUInt32 (k := 1) (by decide) (by simpa using h0) b1
      have v2 := toNat_or_byte32 _ (k := 2) (by decide)
        (by rw [v1]; simp; omega) b2
      have v3 := toNat_or_byte32 _ (k := 3) (by decide)
        (by rw [v2, v1]; simp; omega) b3
      have value : (b0.toUInt32 ||| b1.toUInt32 <<< 8 ||| b2.toUInt32 <<< 16 |||
          b3.toUInt32 <<< 24).toNat =
            b0.toNat + 256 * b1.toNat + 65536 * b2.toNat + 16777216 * b3.toNat := by
        rw [v2, v1] at v3
        simpa using v3
      have packed : b0.toUInt32 ||| b1.toUInt32 <<< 8 ||| b2.toUInt32 <<< 16 |||
          b3.toUInt32 <<< 24 = UInt32.ofNat (ofBytes [b0, b1, b2, b3]) := by
        rw [← UInt32.toNat_inj, value, UInt32.toNat_ofNat']
        simp
        omega
      simp [decodeU32, packed]

/-- The decoding loop after `k` rounds holds the number its first `k` bytes denote. -/
theorem decodeU64_loop {inp : List UInt8} {k : Nat} (hk : k ≤ 8) (h : k ≤ inp.length) :
    ∃ v, (List.range k).foldlM (decodeU64Step inp) 0 = some v ∧
      v.toNat = ofBytes (inp.take k) := by
  induction k with
  | zero => exact ⟨0, rfl, rfl⟩
  | succ k ih =>
      obtain ⟨v, loop, value⟩ := ih (by omega) (by omega)
      have bound : v.toNat < 256 ^ k := by
        rw [value]
        simpa [Nat.min_eq_left (show k ≤ inp.length by omega)] using ofBytes_lt (inp.take k)
      have hk' : k < inp.length := h
      refine ⟨v ||| inp[k].toUInt64 <<< UInt64.ofNat (8 * k), ?_, ?_⟩
      · rw [List.range_succ, List.foldlM_append, loop]
        simp [decodeU64Step, hk']
      · rw [toNat_or_byte64 _ (by omega) bound, value, ofBytes_take_succ hk']

theorem decodeU64_of_le {inp : List UInt8} (h : 8 ≤ inp.length) :
    decodeU64 inp = some (UInt64.ofNat (ofBytes (inp.take 8))) := by
  obtain ⟨v, loop, value⟩ := decodeU64_loop (by decide) h
  rw [decodeU64, loop, ← value, UInt64.ofNat_toNat]

@[simp] theorem length_encodeU16 (v : UInt16) : (encodeU16 v).length = 2 := rfl

@[simp] theorem length_encodeU32 (v : UInt32) : (encodeU32 v).length = 4 := rfl

@[simp] theorem length_encodeU64 (v : UInt64) : (encodeU64 v).length = 8 := by
  simp [encodeU64]

@[simp] theorem decodeU16_encodeU16 (v : UInt16) (rest : List UInt8) :
    decodeU16 (encodeU16 v ++ rest) = some v := by
  rw [decodeU16_of_le (by simp), List.take_left' (by simp), encodeU16_eq, ofBytes_toBytes,
    Nat.mod_eq_of_lt (by have := v.toNat_lt; omega), UInt16.ofNat_toNat]

@[simp] theorem decodeU32_encodeU32 (v : UInt32) (rest : List UInt8) :
    decodeU32 (encodeU32 v ++ rest) = some v := by
  rw [decodeU32_of_le (by simp), List.take_left' (by simp), encodeU32_eq, ofBytes_toBytes,
    Nat.mod_eq_of_lt (by have := v.toNat_lt; omega), UInt32.ofNat_toNat]

@[simp] theorem decodeU64_encodeU64 (v : UInt64) (rest : List UInt8) :
    decodeU64 (encodeU64 v ++ rest) = some v := by
  rw [decodeU64_of_le (by simp), List.take_left' (by simp), encodeU64_eq, ofBytes_toBytes,
    Nat.mod_eq_of_lt (by have := v.toNat_lt; omega), UInt64.ofNat_toNat]

/-! File format constants. -/

/-- The characters `I2WLOG` and two NULs. -/
def kMagic : List UInt8 := [0x49, 0x32, 0x57, 0x4C, 0x4F, 0x47, 0, 0]

def kFormatVersion : UInt32 := 1

def kFileHeaderWireSize : Nat := 8 + 4 + 4 + 8 + 8

def kTopicMetaWireSize : Nat := 2 + 4 + 32

def kRecordHeaderWireSize : Nat := 2 + 8 + 8

def kIndexEntryWireSize : Nat := 8 + 8 + 2

def kMaxPayloadBytes : Nat := 64

structure FileHeader where
  version : UInt32 := kFormatVersion
  topicCount : UInt32 := 0
  createdAtNs : UInt64 := 0
  deriving DecidableEq, Repr

def FileHeader.serialize (h : FileHeader) (out : List UInt8) : List UInt8 :=
  let out := poke out 0 kMagic
  let out := poke out 8 (encodeU32 h.version)
  let out := poke out 12 (encodeU32 h.topicCount)
  let out := poke out 16 (encodeU64 h.createdAtNs)
  poke out 24 (List.replicate 8 0)

/-- The outer `none` is a read outside the memory, the inner one the refusal of bad magic. -/
def FileHeader.deserialize (inp : List UInt8) : Option (Option FileHeader) := do
  let magic ← readArray 8 inp
  if magic.toList ≠ kMagic then
    return none
  let version ← decodeU32 (inp.drop 8)
  let topicCount ← decodeU32 (inp.drop 12)
  let createdAtNs ← decodeU64 (inp.drop 16)
  return some { version, topicCount, createdAtNs }

structure TopicMetaEntry where
  topicId : UInt16 := 0
  structSize : UInt32 := 0
  name : Vector UInt8 32 := Vector.replicate 32 0
  deriving DecidableEq, Repr

/-- `beyond` is what `strlen` would find behind the `name` array if no NUL stopped it. -/
def TopicMetaEntry.serialize (beyond : List UInt8) (e : TopicMetaEntry) (out : List UInt8) :
    List UInt8 :=
  let out := poke out 0 (encodeU16 e.topicId)
  let out := poke out 2 (encodeU32 e.structSize)
  let out := poke out 6 (List.replicate 32 0)
  let len := (cString e.name.toList beyond).length
  poke out 6 (e.name.toList.take (if len < 32 then len else 31))

def TopicMetaEntry.deserialize (inp : List UInt8) : Option TopicMetaEntry := do
  let topicId ← decodeU16 inp
  let structSize ← decodeU32 (inp.drop 2)
  let name ← readArray 32 (inp.drop 6)
  return { topicId, structSize, name }

structure RecordHeader where
  topicId : UInt16 := 0
  stampNs : UInt64 := 0
  seq : UInt64 := 0
  deriving DecidableEq, Repr

def RecordHeader.serialize (h : RecordHeader) (out : List UInt8) : List UInt8 :=
  let out := poke out 0 (encodeU16 h.topicId)
  let out := poke out 2 (encodeU64 h.stampNs)
  poke out 10 (encodeU64 h.seq)

def RecordHeader.deserialize (inp : List UInt8) : Option RecordHeader := do
  let topicId ← decodeU16 inp
  let stampNs ← decodeU64 (inp.drop 2)
  let seq ← decodeU64 (inp.drop 10)
  return { topicId, stampNs, seq }

structure IndexEntry where
  stampNs : UInt64 := 0
  byteOffset : UInt64 := 0
  topicId : UInt16 := 0
  deriving DecidableEq, Repr

def IndexEntry.serialize (e : IndexEntry) (out : List UInt8) : List UInt8 :=
  let out := poke out 0 (encodeU64 e.stampNs)
  let out := poke out 8 (encodeU64 e.byteOffset)
  poke out 16 (encodeU16 e.topicId)

def IndexEntry.deserialize (inp : List UInt8) : Option IndexEntry := do
  let stampNs ← decodeU64 inp
  let byteOffset ← decodeU64 (inp.drop 8)
  let topicId ← decodeU16 (inp.drop 16)
  return { stampNs, byteOffset, topicId }

/-! What each encoder leaves in its buffer, whatever the buffer held before. -/

def FileHeader.bytes (h : FileHeader) : List UInt8 :=
  kMagic ++ encodeU32 h.version ++ encodeU32 h.topicCount ++ encodeU64 h.createdAtNs ++
    List.replicate 8 0

@[simp] theorem FileHeader.length_bytes (h : FileHeader) :
    h.bytes.length = kFileHeaderWireSize := by
  simp [FileHeader.bytes, kMagic, kFileHeaderWireSize]

theorem FileHeader.serialize_eq (h : FileHeader) (out : List UInt8) :
    h.serialize out = h.bytes ++ out.drop kFileHeaderWireSize := by
  simp only [FileHeader.serialize, poke_zero]
  rw [poke_after _ _ _ (by simp [kMagic]), poke_after _ _ _ (by simp [kMagic]),
    poke_after _ _ _ (by simp [kMagic]), poke_after _ _ _ (by simp [kMagic])]
  simp [FileHeader.bytes, kMagic, kFileHeaderWireSize]

theorem FileHeader.deserialize_bytes (h : FileHeader) (rest : List UInt8) :
    FileHeader.deserialize (h.bytes ++ rest) = some (some h) := by
  have magic : readArray 8 (h.bytes ++ rest) =
      some ⟨kMagic.toArray, rfl⟩ := by
    rw [FileHeader.bytes]
    simp only [List.append_assoc]
    exact readArray_append 8 kMagic _ rfl
  have d8 : (h.bytes ++ rest).drop 8 = encodeU32 h.version ++ (encodeU32 h.topicCount ++
      (encodeU64 h.createdAtNs ++ (List.replicate 8 0 ++ rest))) := by
    simp [FileHeader.bytes, kMagic]
  have d12 : (h.bytes ++ rest).drop 12 = encodeU32 h.topicCount ++
      (encodeU64 h.createdAtNs ++ (List.replicate 8 0 ++ rest)) := by
    rw [show 12 = 8 + 4 from rfl, ← List.drop_drop, d8, List.drop_left' (by simp)]
  have d16 : (h.bytes ++ rest).drop 16 =
      encodeU64 h.createdAtNs ++ (List.replicate 8 0 ++ rest) := by
    rw [show 16 = 12 + 4 from rfl, ← List.drop_drop, d12, List.drop_left' (by simp)]
  simp [FileHeader.deserialize, magic, d8, d12, d16, Vector.toList]

def RecordHeader.bytes (h : RecordHeader) : List UInt8 :=
  encodeU16 h.topicId ++ encodeU64 h.stampNs ++ encodeU64 h.seq

@[simp] theorem RecordHeader.length_bytes (h : RecordHeader) :
    h.bytes.length = kRecordHeaderWireSize := by
  simp [RecordHeader.bytes, kRecordHeaderWireSize]

theorem RecordHeader.serialize_eq (h : RecordHeader) (out : List UInt8) :
    h.serialize out = h.bytes ++ out.drop kRecordHeaderWireSize := by
  simp only [RecordHeader.serialize, poke_zero]
  rw [poke_after _ _ _ (by simp), poke_after _ _ _ (by simp)]
  simp [RecordHeader.bytes, kRecordHeaderWireSize]

theorem RecordHeader.deserialize_bytes (h : RecordHeader) (rest : List UInt8) :
    RecordHeader.deserialize (h.bytes ++ rest) = some h := by
  have d0 : h.bytes ++ rest = encodeU16 h.topicId ++
      (encodeU64 h.stampNs ++ (encodeU64 h.seq ++ rest)) := by
    simp [RecordHeader.bytes]
  have d2 : (h.bytes ++ rest).drop 2 = encodeU64 h.stampNs ++ (encodeU64 h.seq ++ rest) := by
    rw [d0, List.drop_left' (by simp)]
  have d10 : (h.bytes ++ rest).drop 10 = encodeU64 h.seq ++ rest := by
    rw [show 10 = 2 + 8 from rfl, ← List.drop_drop, d2, List.drop_left' (by simp)]
  rw [RecordHeader.deserialize, d2, d10, d0]
  simp

def IndexEntry.bytes (e : IndexEntry) : List UInt8 :=
  encodeU64 e.stampNs ++ encodeU64 e.byteOffset ++ encodeU16 e.topicId

theorem IndexEntry.serialize_eq (e : IndexEntry) (out : List UInt8) :
    e.serialize out = e.bytes ++ out.drop kIndexEntryWireSize := by
  simp only [IndexEntry.serialize, poke_zero]
  rw [poke_after _ _ _ (by simp), poke_after _ _ _ (by simp)]
  simp [IndexEntry.bytes, kIndexEntryWireSize]

theorem IndexEntry.deserialize_bytes (e : IndexEntry) (rest : List UInt8) :
    IndexEntry.deserialize (e.bytes ++ rest) = some e := by
  have d0 : e.bytes ++ rest = encodeU64 e.stampNs ++
      (encodeU64 e.byteOffset ++ (encodeU16 e.topicId ++ rest)) := by
    simp [IndexEntry.bytes]
  have d8 : (e.bytes ++ rest).drop 8 =
      encodeU64 e.byteOffset ++ (encodeU16 e.topicId ++ rest) := by
    rw [d0, List.drop_left' (by simp)]
  have d16 : (e.bytes ++ rest).drop 16 = encodeU16 e.topicId ++ rest := by
    rw [show 16 = 8 + 8 from rfl, ← List.drop_drop, d8, List.drop_left' (by simp)]
  rw [IndexEntry.deserialize, d8, d16, d0]
  simp

/-- The name as the 32-byte field carries it: at most 31 characters, then NULs. -/
def TopicMetaEntry.text (e : TopicMetaEntry) : List UInt8 :=
  (e.name.toList.takeWhile (· ≠ 0)).take 31

def TopicMetaEntry.bytes (e : TopicMetaEntry) : List UInt8 :=
  encodeU16 e.topicId ++ encodeU32 e.structSize ++
    (e.text ++ List.replicate (32 - e.text.length) 0)

theorem TopicMetaEntry.length_text_lt (e : TopicMetaEntry) : e.text.length < 32 := by
  simp [TopicMetaEntry.text]

@[simp] theorem TopicMetaEntry.length_bytes (e : TopicMetaEntry) :
    e.bytes.length = kTopicMetaWireSize := by
  have h := e.length_text_lt
  simp only [TopicMetaEntry.bytes, List.length_append, length_encodeU16, length_encodeU32,
    List.length_replicate, kTopicMetaWireSize]
  omega

theorem TopicMetaEntry.not_mem_text (e : TopicMetaEntry) : 0 ∉ e.text := fun h =>
  not_mem_takeWhile_ne _ (List.mem_of_mem_take h)

/-- A name of at most 31 characters is its own text. -/
theorem TopicMetaEntry.text_of_nul {e : TopicMetaEntry} (nul : 0 ∈ e.name.toList) :
    e.text = e.name.toList.takeWhile (· ≠ 0) := by
  have size : e.name.toList.length = 32 := by simp
  have short := length_takeWhile_ne_lt nul
  exact List.take_of_length_le (by omega)

/-- The copied prefix is the text, and does not depend on how far `strlen` overran. -/
theorem TopicMetaEntry.take_strlen (beyond : List UInt8) (e : TopicMetaEntry) :
    e.name.toList.take (if (cString e.name.toList beyond).length < 32 then
      (cString e.name.toList beyond).length else 31) = e.text := by
  have size : e.name.toList.length = 32 := by simp
  by_cases nul : 0 ∈ e.name.toList
  · have prefixed : e.name.toList.takeWhile (· ≠ 0) <+: e.name.toList :=
      List.takeWhile_prefix _
    have short : (e.name.toList.takeWhile (· ≠ 0)).length < 32 := by
      have lt := length_takeWhile_ne_lt nul
      omega
    rw [cString_of_nul beyond nul, if_pos short, TopicMetaEntry.text,
      List.take_of_length_le (l := e.name.toList.takeWhile _) (by omega)]
    exact (List.prefix_iff_eq_take.mp prefixed).symm
  · have whole : e.name.toList.takeWhile (· ≠ 0) = e.name.toList := by
      rw [List.takeWhile_eq_self_iff]
      exact fun b hb => decide_eq_true (fun hb0 => nul (hb0 ▸ hb))
    rw [cString_of_no_nul beyond nul, TopicMetaEntry.text, whole]
    simp

theorem TopicMetaEntry.serialize_eq (beyond : List UInt8) (e : TopicMetaEntry)
    (out : List UInt8) :
    e.serialize beyond out = e.bytes ++ out.drop kTopicMetaWireSize := by
  have short := e.length_text_lt
  simp only [TopicMetaEntry.serialize, poke_zero, TopicMetaEntry.take_strlen]
  rw [poke_after _ _ _ (by simp), poke_after _ _ _ (by simp), List.append_assoc _ _ (List.drop _ _),
    poke_after _ _ _ (by simp), List.drop_append_of_le_length (by simp; omega),
    List.drop_replicate]
  simp [TopicMetaEntry.bytes, kTopicMetaWireSize]

/-- Decoding an encoded entry gives the same id and size, and a field that reads as the text. -/
theorem TopicMetaEntry.deserialize_bytes (e : TopicMetaEntry) (rest : List UInt8) :
    ∃ d, TopicMetaEntry.deserialize (e.bytes ++ rest) = some d ∧ d.topicId = e.topicId ∧
      d.structSize = e.structSize ∧ ∀ beyond, cString d.name.toList beyond = e.text := by
  have short := e.length_text_lt
  let field := e.text ++ List.replicate (32 - e.text.length) 0
  have size : field.length = 32 := by
    simp [field]
    omega
  have d0 : e.bytes ++ rest =
      encodeU16 e.topicId ++ (encodeU32 e.structSize ++ (field ++ rest)) := by
    simp [TopicMetaEntry.bytes, field]
  have d2 : (e.bytes ++ rest).drop 2 = encodeU32 e.structSize ++ (field ++ rest) := by
    rw [d0, List.drop_left' (by simp)]
  have d6 : (e.bytes ++ rest).drop 6 = field ++ rest := by
    rw [show 6 = 2 + 4 from rfl, ← List.drop_drop, d2, List.drop_left' (by simp)]
  refine ⟨⟨e.topicId, e.structSize, ⟨field.toArray, by simpa using size⟩⟩, ?_, rfl, rfl, ?_⟩
  · rw [TopicMetaEntry.deserialize, d2, d6, d0, readArray_append 32 field rest size]
    simp
  · intro beyond
    obtain ⟨pad, hpad⟩ : ∃ pad, List.replicate (32 - e.text.length) (0 : UInt8) = 0 :: pad :=
      ⟨List.replicate (31 - e.text.length) 0, by
        rw [← List.replicate_succ]
        congr 1
        omega⟩
    change cString field beyond = e.text
    rw [show field = e.text ++ 0 :: pad from congrArg (e.text ++ ·) hpad]
    exact cString_terminated e.not_mem_text pad beyond

/-! What each decoder reads off any memory that is long enough. -/

def u16At (bs : List UInt8) (off : Nat) : UInt16 := UInt16.ofNat (ofBytes ((bs.drop off).take 2))

def u32At (bs : List UInt8) (off : Nat) : UInt32 := UInt32.ofNat (ofBytes ((bs.drop off).take 4))

def u64At (bs : List UInt8) (off : Nat) : UInt64 := UInt64.ofNat (ofBytes ((bs.drop off).take 8))

theorem decodeU16_drop (bs : List UInt8) (off : Nat) (h : off + 2 ≤ bs.length) :
    decodeU16 (bs.drop off) = some (u16At bs off) :=
  decodeU16_of_le (by simp; omega)

theorem decodeU32_drop (bs : List UInt8) (off : Nat) (h : off + 4 ≤ bs.length) :
    decodeU32 (bs.drop off) = some (u32At bs off) :=
  decodeU32_of_le (by simp; omega)

theorem decodeU64_drop (bs : List UInt8) (off : Nat) (h : off + 8 ≤ bs.length) :
    decodeU64 (bs.drop off) = some (u64At bs off) :=
  decodeU64_of_le (by simp; omega)

/-! A field does not depend on what lies behind it. -/

private theorem take_field {n off w : Nat} (bs : List UInt8) (h : off + w ≤ n) :
    ((bs.take n).drop off).take w = (bs.drop off).take w := by
  rw [List.drop_take, List.take_take, Nat.min_eq_left (by omega)]

theorem u16At_take {n off : Nat} (bs : List UInt8) (h : off + 2 ≤ n) :
    u16At (bs.take n) off = u16At bs off := by
  rw [u16At, take_field bs h, u16At]

theorem u32At_take {n off : Nat} (bs : List UInt8) (h : off + 4 ≤ n) :
    u32At (bs.take n) off = u32At bs off := by
  rw [u32At, take_field bs h, u32At]

theorem u64At_take {n off : Nat} (bs : List UInt8) (h : off + 8 ≤ n) :
    u64At (bs.take n) off = u64At bs off := by
  rw [u64At, take_field bs h, u64At]

theorem FileHeader.deserialize_of_le {bs : List UInt8} (h : kFileHeaderWireSize ≤ bs.length) :
    FileHeader.deserialize bs = some (if bs.take 8 = kMagic then
      some ⟨u32At bs 8, u32At bs 12, u64At bs 16⟩ else none) := by
  simp only [kFileHeaderWireSize] at h
  obtain ⟨magic, found, list⟩ := readArray_of_le (show 8 ≤ bs.length by omega)
  by_cases good : bs.take 8 = kMagic
  · simp [FileHeader.deserialize, found, list, good, decodeU32_drop bs 8 (by omega),
      decodeU32_drop bs 12 (by omega),
      decodeU64_drop bs 16 (by omega)]
  · simp [FileHeader.deserialize, found, list, good]

theorem TopicMetaEntry.deserialize_of_le {bs : List UInt8} (h : kTopicMetaWireSize ≤ bs.length) :
    ∃ d, TopicMetaEntry.deserialize bs = some d ∧ d.topicId = u16At bs 0 ∧
      d.structSize = u32At bs 2 ∧ d.name.toList = (bs.drop 6).take 32 := by
  simp only [kTopicMetaWireSize] at h
  obtain ⟨name, found, list⟩ := readArray_of_le (show 32 ≤ (bs.drop 6).length by simp; omega)
  refine ⟨⟨u16At bs 0, u32At bs 2, name⟩, ?_, rfl, rfl, list⟩
  have id := decodeU16_drop bs 0 (by omega)
  rw [List.drop_zero] at id
  simp [TopicMetaEntry.deserialize, found, id, decodeU32_drop bs 2 (by omega)]

theorem RecordHeader.deserialize_of_le {bs : List UInt8} (h : kRecordHeaderWireSize ≤ bs.length) :
    RecordHeader.deserialize bs = some ⟨u16At bs 0, u64At bs 2, u64At bs 10⟩ := by
  simp only [kRecordHeaderWireSize] at h
  have id := decodeU16_drop bs 0 (by omega)
  rw [List.drop_zero] at id
  simp [RecordHeader.deserialize, id, decodeU64_drop bs 2 (by omega),
    decodeU64_drop bs 10 (by omega)]

theorem IndexEntry.deserialize_of_le {bs : List UInt8} (h : kIndexEntryWireSize ≤ bs.length) :
    IndexEntry.deserialize bs = some ⟨u64At bs 0, u64At bs 8, u16At bs 16⟩ := by
  simp only [kIndexEntryWireSize] at h
  have stamp := decodeU64_drop bs 0 (by omega)
  rw [List.drop_zero] at stamp
  simp [IndexEntry.deserialize, stamp, decodeU64_drop bs 8 (by omega),
    decodeU16_drop bs 16 (by omega)]

/-! Encoding what was read off a place gives the bytes that are there. -/

private theorem toBytes_field {bs : List UInt8} {off w : Nat} (h : off + w ≤ bs.length) :
    toBytes w (ofBytes ((bs.drop off).take w)) = (bs.drop off).take w := by
  have length : ((bs.drop off).take w).length = w := by
    rw [List.length_take, List.length_drop, Nat.min_eq_left (by omega)]
  have whole := toBytes_ofBytes ((bs.drop off).take w)
  rwa [length] at whole

private theorem ofBytes_field_lt {bs : List UInt8} {off w : Nat} (h : off + w ≤ bs.length) :
    ofBytes ((bs.drop off).take w) < 256 ^ w := by
  have bound := ofBytes_lt ((bs.drop off).take w)
  rwa [List.length_take, List.length_drop, Nat.min_eq_left (by omega)] at bound

theorem encodeU16_u16At {bs : List UInt8} {off : Nat} (h : off + 2 ≤ bs.length) :
    encodeU16 (u16At bs off) = (bs.drop off).take 2 := by
  have small : ofBytes ((bs.drop off).take 2) < 2 ^ 16 := ofBytes_field_lt h
  rw [encodeU16_eq, u16At, UInt16.toNat_ofNat', Nat.mod_eq_of_lt small, toBytes_field h]

theorem encodeU32_u32At {bs : List UInt8} {off : Nat} (h : off + 4 ≤ bs.length) :
    encodeU32 (u32At bs off) = (bs.drop off).take 4 := by
  have small : ofBytes ((bs.drop off).take 4) < 2 ^ 32 := ofBytes_field_lt h
  rw [encodeU32_eq, u32At, UInt32.toNat_ofNat', Nat.mod_eq_of_lt small, toBytes_field h]

theorem encodeU64_u64At {bs : List UInt8} {off : Nat} (h : off + 8 ≤ bs.length) :
    encodeU64 (u64At bs off) = (bs.drop off).take 8 := by
  have small : ofBytes ((bs.drop off).take 8) < 2 ^ 64 := ofBytes_field_lt h
  rw [encodeU64_eq, u64At, UInt64.toNat_ofNat', Nat.mod_eq_of_lt small, toBytes_field h]

end ChronoCap.WireFormat

/- module: ChronoCap/CodecInverse
   source: include/chrono_cap/wire_format.hpp, include/chrono_cap/payload_codec.hpp
   digest: Each codec of the format in both directions: decoding undoes encoding, encoding undoes
           decoding up to the bytes it normalises, and the fields tile the wire size. -/

import ChronoCap.PayloadCodec

set_option autoImplicit false
set_option relaxedAutoImplicit false

namespace ChronoCap.CodecInverse

open ChronoCap.Foundation.ByteStore
open ChronoCap.WireFormat

/-- The encoder fills `size` bytes of its buffer with the fields, each byte from exactly one of
them, and leaves the rest alone. -/
structure Packed (size : Nat) (fields : List (Nat × List UInt8))
    (encode : List UInt8 → List UInt8) : Prop where
  stores : ∀ out, encode out = pokes out fields
  filled : ∀ out, encode out = (fields.map Prod.snd).flatten ++ out.drop size
  length : (fields.map Prod.snd).flatten.length = size
  once : ∀ k < size, ∃ pre s post, fields = pre ++ s :: post ∧ Covers s k ∧
    ∀ t ∈ pre ++ post, ¬ Covers t k

theorem packed_of_tiles {size : Nat} {fields : List (Nat × List UInt8)}
    {encode : List UInt8 → List UInt8} (tiles : Tiles 0 fields size)
    (stores : ∀ out, encode out = pokes out fields) : Packed size fields encode where
  stores := stores
  filled out := by
    have row := pokes_of_tiles [] out tiles
    have length := tiles.length
    rw [Nat.zero_add] at length
    rw [length] at row
    exact (stores out).trans row
  length := by
    have length := tiles.length
    rwa [Nat.zero_add] at length
  once _ below := tiles.covers (Nat.zero_le _) below

/-! The fields of each type, at the offsets of the source. -/

def fileHeaderFields (h : FileHeader) : List (Nat × List UInt8) :=
  [(0, kMagic), (8, encodeU32 h.version), (12, encodeU32 h.topicCount),
    (16, encodeU64 h.createdAtNs), (24, List.replicate 8 0)]

def topicMetaFields (e : TopicMetaEntry) : List (Nat × List UInt8) :=
  [(0, encodeU16 e.topicId), (2, encodeU32 e.structSize),
    (6, e.text ++ List.replicate (32 - e.text.length) 0)]

def recordHeaderFields (h : RecordHeader) : List (Nat × List UInt8) :=
  [(0, encodeU16 h.topicId), (2, encodeU64 h.stampNs), (10, encodeU64 h.seq)]

def indexEntryFields (e : IndexEntry) : List (Nat × List UInt8) :=
  [(0, encodeU64 e.stampNs), (8, encodeU64 e.byteOffset), (16, encodeU16 e.topicId)]

def joyFields (v : JoyMsgs) : List (Nat × List UInt8) :=
  [(0, encodeU64 v.timestamp), (8, encodeU32 v.axis0), (12, encodeU32 v.axis2),
    (16, JoyMsgs.button v.button0), (17, JoyMsgs.button v.button1),
    (18, JoyMsgs.button v.button3), (19, JoyMsgs.button v.button4),
    (20, JoyMsgs.button v.button5), (21, JoyMsgs.button v.button6)]

theorem packed_fileHeader (h : FileHeader) :
    Packed kFileHeaderWireSize (fileHeaderFields h) h.serialize :=
  packed_of_tiles (by simp [fileHeaderFields, Tiles, kMagic, kFileHeaderWireSize]) (fun _ => rfl)

theorem packed_recordHeader (h : RecordHeader) :
    Packed kRecordHeaderWireSize (recordHeaderFields h) h.serialize :=
  packed_of_tiles (by simp [recordHeaderFields, Tiles, kRecordHeaderWireSize]) (fun _ => rfl)

theorem packed_indexEntry (e : IndexEntry) :
    Packed kIndexEntryWireSize (indexEntryFields e) e.serialize :=
  packed_of_tiles (by simp [indexEntryFields, Tiles, kIndexEntryWireSize]) (fun _ => rfl)

theorem packed_joy (v : JoyMsgs) : Packed joy.wireSize (joyFields v) v.encodePayload :=
  packed_of_tiles (by simp [joyFields, Tiles, joy]) (fun _ => rfl)

/-- The name is stored over a field that was cleared first; together they are one store. -/
theorem packed_topicMeta (beyond : List UInt8) (e : TopicMetaEntry) :
    Packed kTopicMetaWireSize (topicMetaFields e) (e.serialize beyond) := by
  have short := e.length_text_lt
  have tiles : Tiles 0 (topicMetaFields e) kTopicMetaWireSize := by
    refine ⟨rfl, rfl, rfl, ?_⟩
    simp only [Tiles, length_encodeU16, length_encodeU32, List.length_append,
      List.length_replicate, kTopicMetaWireSize]
    omega
  apply packed_of_tiles tiles
  intro out
  have row := pokes_of_tiles [] out tiles
  have length := tiles.length
  rw [Nat.zero_add] at length
  rw [length] at row
  rw [TopicMetaEntry.serialize_eq]
  refine Eq.trans ?_ row.symm
  simp [topicMetaFields, TopicMetaEntry.bytes]

/-! Encoding what was decoded. -/

/-- A field and the bytes in front of it. -/
theorem take_append_field (bs : List UInt8) (off w : Nat) :
    bs.take off ++ (bs.drop off).take w = bs.take (off + w) :=
  List.take_add.symm

theorem recordHeader_again {bs : List UInt8} (size : bs.length = kRecordHeaderWireSize) :
    ∃ h, RecordHeader.deserialize bs = some h ∧
      ∀ out, out.length = kRecordHeaderWireSize → h.serialize out = bs := by
  refine ⟨_, RecordHeader.deserialize_of_le size.ge, ?_⟩
  intro out room
  simp only [kRecordHeaderWireSize] at size
  rw [RecordHeader.serialize_eq, List.drop_of_length_le room.le, List.append_nil,
    RecordHeader.bytes, encodeU16_u16At (by omega), encodeU64_u64At (by omega),
    encodeU64_u64At (by omega), List.drop_zero, take_append_field, take_append_field,
    List.take_of_length_le (by omega)]

theorem indexEntry_again {bs : List UInt8} (size : bs.length = kIndexEntryWireSize) :
    ∃ e, IndexEntry.deserialize bs = some e ∧
      ∀ out, out.length = kIndexEntryWireSize → e.serialize out = bs := by
  refine ⟨_, IndexEntry.deserialize_of_le size.ge, ?_⟩
  intro out room
  simp only [kIndexEntryWireSize] at size
  rw [IndexEntry.serialize_eq, List.drop_of_length_le room.le, List.append_nil,
    IndexEntry.bytes, encodeU64_u64At (by omega), encodeU64_u64At (by omega),
    encodeU16_u16At (by omega), List.drop_zero, take_append_field, take_append_field,
    List.take_of_length_le (by omega)]

/-- The reserved bytes come back as zeros. -/
theorem fileHeader_again {bs : List UInt8} (size : bs.length = kFileHeaderWireSize)
    (magic : bs.take 8 = kMagic) :
    ∃ h, FileHeader.deserialize bs = some (some h) ∧
      ∀ out, out.length = kFileHeaderWireSize →
        h.serialize out = bs.take 24 ++ List.replicate 8 0 := by
  refine ⟨⟨u32At bs 8, u32At bs 12, u64At bs 16⟩, ?_, ?_⟩
  · rw [FileHeader.deserialize_of_le size.ge, if_pos magic]
  · intro out room
    simp only [kFileHeaderWireSize] at size
    rw [FileHeader.serialize_eq, List.drop_of_length_le room.le, List.append_nil,
      FileHeader.bytes, encodeU32_u32At (by omega), encodeU32_u32At (by omega),
      encodeU64_u64At (by omega), ← magic, take_append_field, take_append_field,
      take_append_field]

/-- The bytes behind the first NUL of the name come back as zeros. -/
theorem topicMeta_again {bs : List UInt8} (size : bs.length = kTopicMetaWireSize)
    (nul : 0 ∈ bs.drop 6) :
    ∃ e, TopicMetaEntry.deserialize bs = some e ∧
      ∀ beyond out, out.length = kTopicMetaWireSize → e.serialize beyond out =
        bs.take 6 ++ (bs.drop 6).takeWhile (· ≠ 0) ++
          List.replicate (32 - ((bs.drop 6).takeWhile (· ≠ 0)).length) 0 := by
  obtain ⟨e, decoded, id, structSize, name⟩ := TopicMetaEntry.deserialize_of_le size.ge
  refine ⟨e, decoded, ?_⟩
  intro beyond out room
  simp only [kTopicMetaWireSize] at size
  rw [List.take_of_length_le (by rw [List.length_drop]; omega)] at name
  have text : e.text = (bs.drop 6).takeWhile (· ≠ 0) := by
    rw [← name]
    exact TopicMetaEntry.text_of_nul (name ▸ nul)
  rw [TopicMetaEntry.serialize_eq, List.drop_of_length_le room.le, List.append_nil,
    TopicMetaEntry.bytes, id, structSize, encodeU16_u16At (by omega), encodeU32_u32At (by omega),
    List.drop_zero, take_append_field, text, List.append_assoc]

theorem eq_of_length_six {bs : List UInt8} (six : bs.length = 6) :
    ∃ b0 b1 b3 b4 b5 b6, bs = [b0, b1, b3, b4, b5, b6] := by
  rcases bs with _ | ⟨b0, _ | ⟨b1, _ | ⟨b3, _ | ⟨b4, _ | ⟨b5, _ | ⟨b6, _ | ⟨b7, bs⟩⟩⟩⟩⟩⟩⟩
  case cons.cons.cons.cons.cons.cons.nil => exact ⟨b0, b1, b3, b4, b5, b6, rfl⟩
  all_goals simp at six

/-- A button byte that is not 0 comes back as 1. -/
theorem joy_again {bs : List UInt8} (size : bs.length = joy.wireSize) :
    ∃ v, JoyMsgs.decodePayload bs = some v ∧
      ∀ out, out.length = joy.wireSize → v.encodePayload out =
        bs.take 16 ++ (bs.drop 16).map (fun b => if b = 0 then 0 else 1) := by
  change bs.length = 22 at size
  have stamp := decodeU64_drop bs 0 (by omega)
  rw [List.drop_zero] at stamp
  have byte : ∀ k, bs[16 + k]? = (bs.drop 16)[k]? := fun k => List.getElem?_drop.symm
  have again : ∀ b : UInt8, JoyMsgs.button (decide (b ≠ 0)) = [if b = 0 then 0 else 1] := by
    intro b
    by_cases zero : b = 0 <;> simp [JoyMsgs.button, zero]
  have six : (bs.drop 16).length = 6 := by
    rw [List.length_drop]
    omega
  obtain ⟨b0, b1, b3, b4, b5, b6, buttons⟩ := eq_of_length_six six
  have h0 := byte 0
  have h1 := byte 1
  have h3 := byte 2
  have h4 := byte 3
  have h5 := byte 4
  have h6 := byte 5
  rw [buttons] at h0 h1 h3 h4 h5 h6
  simp only [List.getElem?_cons_zero, List.getElem?_cons_succ, Nat.reduceAdd] at h0 h1 h3 h4 h5 h6
  refine ⟨⟨u64At bs 0, u32At bs 8, u32At bs 12, b0 ≠ 0, b1 ≠ 0, b3 ≠ 0, b4 ≠ 0, b5 ≠ 0, b6 ≠ 0⟩,
    ?_, ?_⟩
  · unfold JoyMsgs.decodePayload
    rw [stamp, decodeU32_drop bs 8 (by omega), decodeU32_drop bs 12 (by omega), h0, h1, h3, h4,
      h5, h6]
    rfl
  · intro out room
    change out.length = 22 at room
    rw [JoyMsgs.encodePayload_eq, List.drop_of_length_le room.le, List.append_nil, JoyMsgs.bytes,
      encodeU64_u64At (by omega), encodeU32_u32At (by omega), encodeU32_u32At (by omega),
      List.drop_zero, take_append_field, take_append_field, buttons]
    simp only [again, List.append_assoc, List.map_cons, List.map_nil, List.cons_append,
      List.nil_append]

/-! Decoding what was encoded. -/

theorem topicMeta_undo (beyond : List UInt8) (e : TopicMetaEntry) (out : List UInt8)
    (nul : 0 ∈ e.name.toList) :
    ∃ d, TopicMetaEntry.deserialize (e.serialize beyond out) = some d ∧ d.topicId = e.topicId ∧
      d.structSize = e.structSize ∧
      (∀ beyond', cString d.name.toList beyond' = cString e.name.toList beyond) ∧
      (e.name.toList = e.text ++ List.replicate (32 - e.text.length) 0 → d = e) := by
  have short := e.length_text_lt
  rw [TopicMetaEntry.serialize_eq]
  obtain ⟨d, decoded, id, structSize, text⟩ :=
    e.deserialize_bytes (out.drop kTopicMetaWireSize)
  refine ⟨d, decoded, id, structSize, ?_, ?_⟩
  · intro beyond'
    rw [text, cString_of_nul beyond nul, TopicMetaEntry.text_of_nul nul]
  · intro padded
    have long : kTopicMetaWireSize ≤ (e.bytes ++ out.drop kTopicMetaWireSize).length := by
      rw [List.length_append, TopicMetaEntry.length_bytes]
      exact Nat.le_add_right _ _
    obtain ⟨d', decoded', -, -, name⟩ := TopicMetaEntry.deserialize_of_le long
    obtain rfl : d = d' := Option.some.inj (decoded.symm.trans decoded')
    have field : (e.bytes ++ out.drop kTopicMetaWireSize).drop 6 =
        e.text ++ List.replicate (32 - e.text.length) 0 ++ out.drop kTopicMetaWireSize := by
      rw [TopicMetaEntry.bytes, List.append_assoc _ _ (out.drop _), List.drop_left' (by simp)]
    rw [field, ← padded, List.take_left' (by simp)] at name
    obtain ⟨topicId, size, array⟩ := d
    obtain ⟨topicId', size', array'⟩ := e
    have same : array = array' := Vector.toList_inj.mp name
    cases id
    cases structSize
    rw [same]

/-- Both directions for every codec of the format, and its layout. -/
structure Inverse : Prop where
  fileHeader : ∀ (h : FileHeader) out, FileHeader.deserialize (h.serialize out) = some (some h)
  recordHeader : ∀ (h : RecordHeader) out, RecordHeader.deserialize (h.serialize out) = some h
  indexEntry : ∀ (e : IndexEntry) out, IndexEntry.deserialize (e.serialize out) = some e
  /-- the name as a C string; the whole array too if it is cleared behind the name -/
  topicMeta : ∀ beyond (e : TopicMetaEntry) out, 0 ∈ e.name.toList →
    ∃ d, TopicMetaEntry.deserialize (e.serialize beyond out) = some d ∧ d.topicId = e.topicId ∧
      d.structSize = e.structSize ∧
      (∀ beyond', cString d.name.toList beyond' = cString e.name.toList beyond) ∧
      (e.name.toList = e.text ++ List.replicate (32 - e.text.length) 0 → d = e)
  joyMsgs : ∀ (v : JoyMsgs) out, JoyMsgs.decodePayload (v.encodePayload out) = some v
  fileHeader_again : ∀ bs, bs.length = kFileHeaderWireSize → bs.take 8 = kMagic →
    ∃ h, FileHeader.deserialize bs = some (some h) ∧
      ∀ out, out.length = kFileHeaderWireSize → h.serialize out = bs.take 24 ++ List.replicate 8 0
  recordHeader_again : ∀ bs, bs.length = kRecordHeaderWireSize →
    ∃ h, RecordHeader.deserialize bs = some h ∧
      ∀ out, out.length = kRecordHeaderWireSize → h.serialize out = bs
  indexEntry_again : ∀ bs, bs.length = kIndexEntryWireSize →
    ∃ e, IndexEntry.deserialize bs = some e ∧
      ∀ out, out.length = kIndexEntryWireSize → e.serialize out = bs
  topicMeta_again : ∀ bs, bs.length = kTopicMetaWireSize → 0 ∈ bs.drop 6 →
    ∃ e, TopicMetaEntry.deserialize bs = some e ∧
      ∀ beyond out, out.length = kTopicMetaWireSize → e.serialize beyond out =
        bs.take 6 ++ (bs.drop 6).takeWhile (· ≠ 0) ++
          List.replicate (32 - ((bs.drop 6).takeWhile (· ≠ 0)).length) 0
  joyMsgs_again : ∀ bs, bs.length = joy.wireSize →
    ∃ v, JoyMsgs.decodePayload bs = some v ∧
      ∀ out, out.length = joy.wireSize → v.encodePayload out =
        bs.take 16 ++ (bs.drop 16).map (fun b => if b = 0 then 0 else 1)
  fileHeader_packed : ∀ h, Packed kFileHeaderWireSize (fileHeaderFields h) h.serialize
  recordHeader_packed : ∀ h, Packed kRecordHeaderWireSize (recordHeaderFields h) h.serialize
  indexEntry_packed : ∀ e, Packed kIndexEntryWireSize (indexEntryFields e) e.serialize
  topicMeta_packed : ∀ beyond e,
    Packed kTopicMetaWireSize (topicMetaFields e) (e.serialize beyond)
  joyMsgs_packed : ∀ v, Packed joy.wireSize (joyFields v) v.encodePayload

/-- The codecs of the format are mutually inverse, and each fills its wire size field by field. -/
theorem codecs_inverse : Inverse where
  fileHeader h out := by rw [FileHeader.serialize_eq, FileHeader.deserialize_bytes]
  recordHeader h out := by rw [RecordHeader.serialize_eq, RecordHeader.deserialize_bytes]
  indexEntry e out := by rw [IndexEntry.serialize_eq, IndexEntry.deserialize_bytes]
  topicMeta beyond e out nul := topicMeta_undo beyond e out nul
  joyMsgs v out := by rw [JoyMsgs.encodePayload_eq, JoyMsgs.decodePayload_bytes]
  fileHeader_again _ size magic := fileHeader_again size magic
  recordHeader_again _ size := recordHeader_again size
  indexEntry_again _ size := indexEntry_again size
  topicMeta_again _ size nul := topicMeta_again size nul
  joyMsgs_again _ size := joy_again size
  fileHeader_packed := packed_fileHeader
  recordHeader_packed := packed_recordHeader
  indexEntry_packed := packed_indexEntry
  topicMeta_packed := packed_topicMeta
  joyMsgs_packed := packed_joy

end ChronoCap.CodecInverse

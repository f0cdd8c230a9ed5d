/- module: ChronoCap/NameField
   source: include/chrono_cap/wire_format.hpp, src/core/record_reader.cpp
   digest: The name of a table entry is scanned for its NUL; whether the scan stays inside the
           field depends on what the file has there. -/

import ChronoCap.RecordReader
import ChronoCap.RecordWriter

set_option autoImplicit false
set_option relaxedAutoImplicit false

namespace ChronoCap.NameField

open ChronoCap.Foundation.ByteStore
open ChronoCap.WireFormat
open ChronoCap.RecordReader

/-- The bytes a scan for the end of a string looks at: its characters, and the NUL behind them. -/
def examined (array beyond : List UInt8) : Nat := (cString array beyond).length + 1

/-- The bytes of one entry of a topic table. -/
abbrev EntryBytes := Vector UInt8 kTopicMetaWireSize

def nameBytes (entry : EntryBytes) : List UInt8 := entry.toList.drop 6

/-- Decoding the entry and building the name looks at the 32 bytes of the field only and stops at
the first NUL; so does `strlen` when the decoded entry is serialized again, which gives an entry
with the same id and size and the name cut to 31 characters. -/
def ReadInside (entry : EntryBytes) (rest beyond : List UInt8) : Prop :=
  ∃ e, TopicMetaEntry.deserialize (entry.toList ++ rest) = some e ∧
    examined e.name.toList beyond ≤ 32 ∧
    (resolve beyond e).name = (nameBytes entry).takeWhile (· ≠ 0) ∧
    ∀ out rest' beyond', ∃ d,
      TopicMetaEntry.deserialize
        ((e.serialize beyond out).take kTopicMetaWireSize ++ rest') = some d ∧
      d.topicId = e.topicId ∧ d.structSize = e.structSize ∧
      examined d.name.toList beyond' ≤ 32 ∧
      (resolve beyond' d).name = ((resolve beyond e).name).take 31

variable {array : List UInt8}

theorem examined_of_nul (beyond : List UInt8) (nul : 0 ∈ array) :
    examined array beyond ≤ array.length := by
  rw [examined, cString_of_nul beyond nul]
  have prefixed : array.takeWhile (· ≠ 0) <+: array := List.takeWhile_prefix _
  have le := prefixed.length_le
  rcases Nat.lt_or_ge (array.takeWhile (· ≠ 0)).length array.length with shorter | whole
  · exact shorter
  · have same := prefixed.eq_of_length (by omega)
    exact absurd (same ▸ nul) (not_mem_takeWhile_ne _)

/-- Without a NUL the scan leaves the array, whatever lies behind it. -/
theorem examined_of_no_nul (beyond : List UInt8) (unterminated : 0 ∉ array) :
    array.length < examined array beyond := by
  rw [examined, cString_of_no_nul beyond unterminated, List.length_append]
  omega

theorem examined_le_iff (array beyond : List UInt8) :
    examined array beyond ≤ array.length ↔ 0 ∈ array := by
  constructor
  · intro inside
    by_contra unterminated
    have outside := examined_of_no_nul beyond unterminated
    omega
  · exact examined_of_nul beyond

/-- What Deserialize finds in the field. -/
theorem deserialize_name (entry : EntryBytes) (rest : List UInt8) :
    ∃ e, TopicMetaEntry.deserialize (entry.toList ++ rest) = some e ∧
      e.name.toList = nameBytes entry := by
  have size : entry.toList.length = kTopicMetaWireSize := by simp
  obtain ⟨e, decoded, -, -, name⟩ := TopicMetaEntry.deserialize_of_le
    (show kTopicMetaWireSize ≤ (entry.toList ++ rest).length by simp)
  refine ⟨e, decoded, ?_⟩
  have long : (nameBytes entry).length = 32 := by
    rw [nameBytes, List.length_drop, size]
    rfl
  rw [name, List.drop_append_of_le_length (by rw [size]; decide), ← long]
  exact List.take_left

/-- Serializing a decoded entry closes the name within the field, whatever `strlen` ran over. -/
theorem reserialized (e : TopicMetaEntry) (beyond out rest' beyond' : List UInt8) :
    ∃ d, TopicMetaEntry.deserialize
        ((e.serialize beyond out).take kTopicMetaWireSize ++ rest') = some d ∧
      d.topicId = e.topicId ∧ d.structSize = e.structSize ∧
      examined d.name.toList beyond' ≤ 32 ∧ (resolve beyond' d).name = e.text := by
  obtain ⟨d, decoded, id, size, text⟩ := e.deserialize_bytes rest'
  refine ⟨d, ?_, id, size, ?_, text beyond'⟩
  · rw [TopicMetaEntry.serialize_eq, List.take_left' e.length_bytes]
    exact decoded
  · have short := e.length_text_lt
    rw [examined, text beyond']
    omega

/-- The reader stays inside the name field, whatever lies behind it, exactly if the field holds a
NUL. -/
theorem readInside_iff (entry : EntryBytes) (rest beyond : List UInt8) :
    ReadInside entry rest beyond ↔ 0 ∈ nameBytes entry := by
  obtain ⟨e, decoded, field⟩ := deserialize_name entry rest
  have size : e.name.toList.length = 32 := by simp
  constructor
  · rintro ⟨e', decoded', inside, -, -⟩
    obtain rfl : e = e' := Option.some.inj (decoded.symm.trans decoded')
    rw [← field]
    exact (examined_le_iff e.name.toList beyond).mp (by omega)
  · intro nul
    rw [← field] at nul
    have name : (resolve beyond e).name = e.name.toList.takeWhile (· ≠ 0) :=
      cString_of_nul beyond nul
    have inside := examined_of_nul beyond nul
    refine ⟨e, decoded, by omega, by rw [name, field], ?_⟩
    intro out rest' beyond'
    rw [name]
    exact reserialized e beyond out rest' beyond'

/-- The entries of the writer hold one. -/
theorem writer_terminates (t : TopicInfo) (entry : EntryBytes)
    (written : entry.toList = t.meta.bytes) : 0 ∈ nameBytes entry := by
  have short := t.meta.length_text_lt
  have field : nameBytes entry =
      t.meta.text ++ List.replicate (32 - t.meta.text.length) 0 := by
    rw [nameBytes, written, TopicMetaEntry.bytes]
    exact List.drop_left' (by simp)
  rw [field]
  apply List.mem_append_right
  rw [List.mem_replicate]
  exact ⟨by omega, rfl⟩

/-- An entry whose name field is 32 letters. -/
def unterminatedEntry : EntryBytes := Vector.replicate kTopicMetaWireSize 0x41

/-- The scan for the end of its name looks at a 33rd byte, and takes it if it is none. -/
theorem unterminatedEntry_read_outside :
    (∀ beyond, ¬ ReadInside unterminatedEntry [] beyond) ∧
      cString (nameBytes unterminatedEntry) [0x42] = nameBytes unterminatedEntry ++ [0x42] := by
  refine ⟨?_, by decide⟩
  intro beyond inside
  exact absurd ((readInside_iff unterminatedEntry [] beyond).mp inside) (by decide)

end ChronoCap.NameField

/- module: ChronoCap/RoundTrip
   source: src/core/record_writer.cpp, src/core/record_reader.cpp
   digest: What the writer puts into a file the reader takes out of it: topics, and records field
           for field and byte for byte. -/

import ChronoCap.FileGrammar
import ChronoCap.RecordWriter

set_option autoImplicit false
set_option relaxedAutoImplicit false

namespace ChronoCap.RoundTrip

open ChronoCap.Foundation
open ChronoCap.Foundation.ByteStore
open ChronoCap.WireFormat
open ChronoCap.Ring (Record PoppedRecord)
open ChronoCap.RecordReader
open ChronoCap.RecordGrammar
open ChronoCap.FileGrammar

/-! An encoder's bytes, seen through the fields the decoder reads. -/

theorem headerFields (h : FileHeader) (rest : List UInt8) :
    (h.bytes ++ rest).take 8 = kMagic ∧ u32At (h.bytes ++ rest) 8 = h.version ∧
      u32At (h.bytes ++ rest) 12 = h.topicCount := by
  have decoded := h.deserialize_bytes rest
  rw [FileHeader.deserialize_of_le (by simp)] at decoded
  split at decoded
  · rename_i magic
    have same := Option.some.inj (Option.some.inj decoded)
    exact ⟨magic, congrArg FileHeader.version same, congrArg FileHeader.topicCount same⟩
  · simp at decoded

theorem recordFields (h : RecordHeader) (rest : List UInt8) :
    u16At (h.bytes ++ rest) 0 = h.topicId ∧ u64At (h.bytes ++ rest) 2 = h.stampNs ∧
      u64At (h.bytes ++ rest) 10 = h.seq := by
  obtain ⟨id, stamp, seq⟩ := h
  have decoded := (RecordHeader.mk id stamp seq).deserialize_bytes rest
  rw [RecordHeader.deserialize_of_le (by simp)] at decoded
  injection decoded with same
  injection same with id stamp seq
  exact ⟨id, stamp, seq⟩

theorem entryFields (e : TopicMetaEntry) (rest : List UInt8) :
    u16At (e.bytes ++ rest) 0 = e.topicId ∧ u32At (e.bytes ++ rest) 2 = e.structSize ∧
      ∀ beyond, cString (((e.bytes ++ rest).drop 6).take 32) beyond = e.text := by
  obtain ⟨d, decoded, id, size, name⟩ := e.deserialize_bytes rest
  obtain ⟨d', decoded', id', size', name'⟩ :=
    TopicMetaEntry.deserialize_of_le
      (show kTopicMetaWireSize ≤ (e.bytes ++ rest).length by simp)
  obtain rfl : d = d' := Option.some.inj (decoded.symm.trans decoded')
  exact ⟨id'.symm.trans id, size'.symm.trans size, fun beyond => by rw [← name', name beyond]⟩

/-! The header and the table. -/

/-- A topic as it comes back from the file. -/
def resolved (t : TopicInfo) : ResolvedTopic := ⟨t.topicId, t.wireSize, t.fileName⟩

section Table

variable (createdAtNs : UInt64) {topics : List TopicInfo} (few : topics.length < 2 ^ 32)
  (region : List UInt8)

include few

theorem entryCount_headerBytes :
    entryCount (headerBytes createdAtNs topics ++ region) = topics.length := by
  rw [entryCount, headerBytes, List.append_assoc, (headerFields _ _).2.2]
  change (UInt32.ofNat topics.length).toNat = _
  rw [UInt32.toNat_ofNat', Nat.mod_eq_of_lt few]

theorem length_headerBytes :
    (headerBytes createdAtNs topics).length =
      recordsStart (headerBytes createdAtNs topics ++ region) := by
  rw [recordsStart, entryCount_headerBytes createdAtNs few, headerBytes, List.length_append,
    FileHeader.length_bytes, length_tableBytes, entryOffset]

theorem wellFormed_headerBytes : WellFormed (headerBytes createdAtNs topics ++ region) := by
  have start := length_headerBytes createdAtNs few region
  obtain ⟨magic, version, -⟩ :=
    headerFields (fileHeader createdAtNs topics) (tableBytes topics ++ region)
  refine ⟨?_, ?_, ?_, ?_⟩
  · rw [headerBytes, List.append_assoc, List.length_append, FileHeader.length_bytes]
    omega
  · rw [headerBytes, List.append_assoc]
    exact magic
  · rw [headerBytes, List.append_assoc]
    exact version
  · rw [List.length_append]
    omega

omit few in
/-- Entry `i` begins `i` entries behind the header. -/
theorem drop_entry {i : Nat} (hi : i < topics.length) :
    ∃ rest, (headerBytes createdAtNs topics ++ region).drop (entryOffset i) =
      topics[i].meta.bytes ++ rest := by
  have table : ∀ (ts : List TopicInfo) (j : Nat) (hj : j < ts.length),
      ∃ rest, (tableBytes ts ++ region).drop (kTopicMetaWireSize * j) =
        ts[j].meta.bytes ++ rest := by
    intro ts
    induction ts with
    | nil => simp
    | cons t ts ih =>
        intro j hj
        cases j with
        | zero => exact ⟨tableBytes ts ++ region, by simp⟩
        | succ j =>
            obtain ⟨rest, found⟩ := ih j (by simpa using hj)
            refine ⟨rest, ?_⟩
            rw [tableBytes_cons, List.append_assoc, Nat.mul_succ, Nat.add_comm,
              ← List.drop_drop, List.drop_left' (by simp), found]
            rfl
  obtain ⟨rest, found⟩ := table topics i hi
  refine ⟨rest, ?_⟩
  rw [headerBytes, List.append_assoc, entryOffset, ← List.drop_drop, List.drop_left' (by simp),
    found]

/-- The reader finds the topics that were written, whatever lies behind its buffers. -/
theorem readTable_headerBytes (beyond : Nat → List UInt8) :
    readTable beyond (headerBytes createdAtNs topics ++ region) = topics.map resolved := by
  rw [readTable, entryCount_headerBytes createdAtNs few]
  apply List.ext_getElem
  · simp
  · intro i hi _
    have hi : i < topics.length := by simpa using hi
    obtain ⟨rest, found⟩ := drop_entry createdAtNs region hi
    obtain ⟨id, size, name⟩ := entryFields topics[i].meta rest
    rw [← found, u16At_drop] at id
    rw [← found, u32At_drop] at size
    rw [List.getElem_map, List.getElem_map, List.getElem_range, resolved, readEntry, tableEntry,
      ← topics[i].text_meta, ← name (beyond i), ← found, List.drop_drop]
    simp only [Nat.add_zero] at id
    simp only [id, size, nameField]
    rfl

end Table

/-! The records. -/

/-- A record of a topic of the table, with as many payload bytes as that topic has. -/
def Fits (topics : List TopicInfo) (r : Record) : Prop :=
  ∃ t ∈ topics, t.topicId = r.topicId ∧ t.wireSize = r.payloadLen ∧
    r.bytes.length = r.payloadLen.toNat

theorem lastEntry_of_mem {topics : List TopicInfo}
    (distinct : (topics.map TopicInfo.topicId).Nodup) {t : TopicInfo} (mem : t ∈ topics) :
    lastEntry (topics.map resolved) t.topicId = some (resolved t) := by
  have only : (topics.map resolved).filter (fun s => s.topicId = t.topicId) = [resolved t] := by
    induction topics with
    | nil => simp at mem
    | cons s ts ih =>
        rw [List.map_cons, List.nodup_cons] at distinct
        obtain ⟨fresh, distinct⟩ := distinct
        rcases List.mem_cons.mp mem with rfl | later
        · have none : (ts.map resolved).filter (fun s => s.topicId = t.topicId) = [] := by
            rw [List.filter_eq_nil_iff]
            intro u hu same
            obtain ⟨v, hv, rfl⟩ := List.mem_map.mp hu
            have same : v.topicId = t.topicId := of_decide_eq_true same
            exact fresh (same ▸ List.mem_map_of_mem hv)
          rw [List.map_cons, List.filter_cons_of_pos (by simp [resolved]), none]
        · have other : s.topicId ≠ t.topicId := fun same =>
            fresh (same ▸ List.mem_map_of_mem later)
          rw [List.map_cons, List.filter_cons_of_neg (by simp [resolved, other]),
            ih distinct later]
  rw [lastEntry, only]
  rfl

theorem isFrame_recordBytes {topics : List TopicInfo}
    (distinct : (topics.map TopicInfo.topicId).Nodup) {r : Record} (fits : Fits topics r) :
    (records (topics.map resolved)).IsFrame (recordBytes r) := by
  obtain ⟨t, mem, id, size, length⟩ := fits
  have whole : (recordBytes r).length = kRecordHeaderWireSize + r.bytes.length := by
    rw [recordBytes, List.length_append, RecordHeader.length_bytes]
  change recordSize (topics.map resolved) (recordBytes r) = some (recordBytes r).length
  have topic : u16At (recordBytes r) 0 = t.topicId := (recordFields _ _).1.trans id.symm
  rw [recordSize, if_neg (by omega), topic, lastEntry_of_mem distinct mem, Option.map_some, whole,
    length, ← size]
  rfl

theorem frameRecord_recordBytes {r : Record} (length : r.bytes.length = r.payloadLen.toNat) :
    frameRecord (recordBytes r) = r := by
  obtain ⟨id, stamp, seq⟩ := recordFields ⟨r.topicId, r.stampNs, r.seq⟩ r.bytes
  have whole : (recordBytes r).length - kRecordHeaderWireSize = r.payloadLen.toNat := by
    rw [recordBytes, List.length_append, RecordHeader.length_bytes, Nat.add_sub_cancel_left, length]
  have bytes : (recordBytes r).drop kRecordHeaderWireSize = r.bytes := by
    rw [recordBytes, List.drop_left' (by simp)]
  rw [frameRecord, whole, UInt32.ofNat_toNat, bytes, recordBytes, id, stamp, seq]

/-- What a callback is handed, with the payload bytes in place of the pointer. -/
def delivered (r : RecordReader) (c : Callback) : Record :=
  ⟨c.topicId, c.stampNs, c.seq, c.payloadLen, r.payload c⟩

/-- The callbacks of the grammar hand over the records its frames carry. -/
theorem delivered_parse {r : RecordReader} {F : List UInt8} (mapped : Mapped r F)
    (topics : List ResolvedTopic) (start : Nat) :
    (parse topics start (F.drop start)).map (delivered r) =
      ((records topics).frames (F.drop start)).map frameRecord := by
  have frame : ∀ x ∈ Framing.located start ((records topics).frames (F.drop start)),
      delivered r (frameCallback x) = frameRecord x.2 := by
    intro x hx
    obtain ⟨isFrame, after, -, found⟩ := Framing.located_frames hx
    obtain ⟨t, -, length⟩ := entry_of_isFrame isFrame
    have small := t.wireSize.toNat_lt
    have len : (frameCallback x).payloadLen.toNat = x.2.length - kRecordHeaderWireSize := by
      simp only [frameCallback, UInt32.toNat_ofNat']
      omega
    have bytes : r.payload (frameCallback x) = x.2.drop kRecordHeaderWireSize := by
      rw [List.drop_drop, Nat.add_sub_cancel' after] at found
      rw [payload, mapped.memory, len]
      change (F.drop (x.1 + kRecordHeaderWireSize)).take _ = _
      rw [← found, List.drop_take, List.drop_drop, found]
    rw [delivered, bytes]
    rfl
  rw [parse, List.map_map]
  have pointwise : (Framing.located start ((records topics).frames (F.drop start))).map
      (delivered r ∘ frameCallback) =
        (Framing.located start ((records topics).frames (F.drop start))).map
          (frameRecord ∘ Prod.snd) :=
    List.map_congr_left frame
  rw [pointwise, ← List.map_map, Framing.map_snd_located]

/-- What a fresh reader should make of a file: the given topics, and the given records played. -/
def Replays (image : FileImage) (beyond : Nat → List UInt8) (now : UInt64)
    (topics : List ResolvedTopic) (rs : List Record) : Prop :=
  ∃ r, RecordReader.open 64 beyond { file := some image } none {} () = some (true, r, ()) ∧
    r.topics = topics ∧
    ∃ stop t, run 64 now r = some (stop, t) ∧ t.callbacks.map (delivered r) = rs

theorem Replays.unique {image : FileImage} {beyond : Nat → List UInt8} {now : UInt64}
    {topics topics' : List ResolvedTopic} {rs rs' : List Record}
    (h : Replays image beyond now topics rs) (h' : Replays image beyond now topics' rs') :
    rs = rs' := by
  obtain ⟨r, opened, -, stop, t, ran, rfl⟩ := h
  obtain ⟨r', opened', -, stop', t', ran', rfl⟩ := h'
  rw [opened] at opened'
  obtain rfl : r = r' := by simpa using opened'
  rw [ran] at ran'
  obtain ⟨-, rfl⟩ : stop = stop' ∧ t = t' := by simpa using ran'
  rfl

/-- A file made of a header, a table, whole records of its topics and a tail is well formed, lists
these topics, and hands over these records and then what the grammar makes of the tail. -/
theorem written_format_append (createdAtNs : UInt64) {topics : List TopicInfo}
    (few : topics.length < 2 ^ 32) (distinct : (topics.map TopicInfo.topicId).Nodup)
    {rs : List Record} (fits : ∀ r ∈ rs, Fits topics r) {tail : List UInt8} {image : FileImage}
    (written : image.bytes =
      headerBytes createdAtNs topics ++ ((rs.map recordBytes).flatten ++ tail)) :
    WellFormed image.bytes ∧ (∀ beyond, readTable beyond image.bytes = topics.map resolved) ∧
      ∀ r, Mapped r image.bytes →
        (parse (topics.map resolved) (recordsStart image.bytes)
          (image.bytes.drop (recordsStart image.bytes))).map (delivered r) =
            rs ++ ((records (topics.map resolved)).frames tail).map frameRecord := by
  have wf : WellFormed image.bytes := by
    rw [written]
    exact wellFormed_headerBytes createdAtNs few _
  have start := length_headerBytes createdAtNs few
    ((rs.map recordBytes).flatten ++ tail)
  rw [← written] at start
  have region : image.bytes.drop (recordsStart image.bytes) =
      (rs.map recordBytes).flatten ++ tail := by
    rw [← start, written, List.drop_left]
  refine ⟨wf, ?_, ?_⟩
  · intro beyond
    rw [written, readTable_headerBytes createdAtNs few]
  · intro r mapped
    have frames : ∀ f ∈ rs.map recordBytes, (records (topics.map resolved)).IsFrame f := by
      intro f hf
      obtain ⟨x, hx, rfl⟩ := List.mem_map.mp hf
      exact isFrame_recordBytes distinct (fits x hx)
    have each : ∀ x ∈ rs, (frameRecord ∘ recordBytes) x = x := by
      intro x hx
      obtain ⟨-, -, -, -, length⟩ := fits x hx
      exact frameRecord_recordBytes length
    rw [delivered_parse mapped, region, Framing.frames_flatten_append frames, List.map_append,
      List.map_map, List.map_congr_left each, List.map_id']

/-- With no record in the tail it hands over these records and nothing else. -/
theorem written_format (createdAtNs : UInt64) {topics : List TopicInfo}
    (few : topics.length < 2 ^ 32) (distinct : (topics.map TopicInfo.topicId).Nodup)
    {rs : List Record} (fits : ∀ r ∈ rs, Fits topics r) {tail : List UInt8}
    (rest : (records (topics.map resolved)).frames tail = []) {image : FileImage}
    (written : image.bytes =
      headerBytes createdAtNs topics ++ ((rs.map recordBytes).flatten ++ tail)) :
    WellFormed image.bytes ∧ (∀ beyond, readTable beyond image.bytes = topics.map resolved) ∧
      ∀ r, Mapped r image.bytes →
        (parse (topics.map resolved) (recordsStart image.bytes)
          (image.bytes.drop (recordsStart image.bytes))).map (delivered r) = rs := by
  have format := written_format_append createdAtNs few distinct fits written
  rwa [rest, List.map_nil, List.append_nil] at format

theorem replays_written_append (createdAtNs : UInt64) {topics : List TopicInfo}
    (few : topics.length < 2 ^ 32) (distinct : (topics.map TopicInfo.topicId).Nodup)
    {rs : List Record} (fits : ∀ r ∈ rs, Fits topics r) {tail : List UInt8} {image : FileImage}
    (written : image.bytes =
      headerBytes createdAtNs topics ++ ((rs.map recordBytes).flatten ++ tail))
    (beyond : Nat → List UInt8) (now : UInt64) :
    Replays image beyond now (topics.map resolved)
      (rs ++ ((records (topics.map resolved)).frames tail).map frameRecord) := by
  obtain ⟨wf, table, played⟩ := written_format_append createdAtNs few distinct fits written
  obtain ⟨ok, r, ⟨⟩, opened, accepted, answer⟩ := open_then_run beyond now wf.nonempty none ()
  obtain rfl : ok = true := congrArg Prod.fst (answer wf)
  obtain ⟨-, mapped, topics_read, stop, t, ran, -, callbacks⟩ := accepted rfl
  rw [table beyond] at topics_read
  refine ⟨r, opened, topics_read, stop, t, ran, ?_⟩
  rw [callbacks, topics_read]
  exact played r mapped

theorem replays_written (createdAtNs : UInt64) {topics : List TopicInfo}
    (few : topics.length < 2 ^ 32) (distinct : (topics.map TopicInfo.topicId).Nodup)
    {rs : List Record} (fits : ∀ r ∈ rs, Fits topics r) {tail : List UInt8}
    (rest : (records (topics.map resolved)).frames tail = []) {image : FileImage}
    (written : image.bytes =
      headerBytes createdAtNs topics ++ ((rs.map recordBytes).flatten ++ tail))
    (beyond : Nat → List UInt8) (now : UInt64) :
    Replays image beyond now (topics.map resolved) rs := by
  have replays := replays_written_append createdAtNs few distinct fits written beyond now
  rwa [rest, List.map_nil, List.append_nil] at replays

/-! The writer. -/

/-- A popped record of a topic of the table, as the recorder pushes them. -/
def Conforms (topics : List TopicInfo) (rec : PoppedRecord) : Prop :=
  (∃ t ∈ topics, t.topicId = rec.topicId ∧ rec.payloadLen = t.wireSize) ∧
    rec.payloadLen.toNat ≤ kMaxPayloadBytes

theorem Conforms.fits {topics : List TopicInfo} {rec : PoppedRecord}
    (conforms : Conforms topics rec) : Fits topics rec.record := by
  obtain ⟨⟨t, mem, id, size⟩, small⟩ := conforms
  refine ⟨t, mem, id, size.symm, ?_⟩
  change (rec.payload.toList.take rec.payloadLen.toNat).length = rec.payloadLen.toNat
  rw [List.length_take, Vector.length_toList, Nat.min_eq_left small]

/-- The file a session leaves, however write() split the data, is read back as it was recorded. -/
theorem round_trip (host : Host) (succeed : host.io.Succeed) (topics : List TopicInfo)
    (few : topics.length < 2 ^ 32) (distinct : (topics.map TopicInfo.topicId).Nodup)
    (recs : List PoppedRecord) (conform : ∀ rec ∈ recs, Conforms topics rec)
    (fd now : Int) (opened : 0 ≤ fd) (o : Output) (image : FileImage)
    (written : image.bytes =
      (writeRecords host (o.openFile host topics fd now).2 recs).disk.file)
    (beyond : Nat → List UInt8) (replayNow : UInt64) :
    Replays image beyond replayNow (topics.map resolved) (recs.map PoppedRecord.record) := by
  obtain ⟨fd_ok, header⟩ := openFile_file (openFile_ok succeed topics opened now o)
  rw [writeRecords_file succeed recs fd_ok, header] at written
  have fits : ∀ r ∈ recs.map PoppedRecord.record, Fits topics r := by
    intro r hr
    obtain ⟨rec, hrec, rfl⟩ := List.mem_map.mp hr
    exact (conform rec hrec).fits
  refine replays_written host.createdAtNs few distinct fits Framing.frames_nil ?_ beyond replayNow
  · rw [written, List.append_nil, List.map_map]
    rfl

/-- A kernel that takes one byte at a time. -/
def byteByByte : Host where
  io := ⟨fun _ _ => some 1, fun _ len n some answer => by
    obtain rfl : 1 = n := Option.some.inj answer
    exact ⟨Nat.one_pos, some⟩⟩
  createdAtNs := 0
  stack := fun _ _ => 0xAA
  beyond := []

theorem byteByByte_succeed : byteByByte.io.Succeed := fun _ _ _ => by simp [byteByByte]

/-- Two topics, the second with an overlong name, and a record of each. -/
def twoTopics : List TopicInfo := [⟨4, 2, [0x6A]⟩, ⟨5, 0, List.replicate 40 0x6D⟩]

def twoRecords : List PoppedRecord :=
  [⟨4, 7, 1, 2, Vector.replicate kMaxPayloadBytes 9⟩,
    ⟨5, 3, 2, 0, Vector.replicate kMaxPayloadBytes 8⟩]

theorem twoRecords_file :
    (writeRecords byteByByte (Output.openFile byteByByte twoTopics 3 0 {}).2 twoRecords).disk.file =
      headerBytes 0 twoTopics ++ (twoRecords.map (fun rec => recordBytes rec.record)).flatten := by
  obtain ⟨opened, header⟩ :=
    openFile_file (openFile_ok byteByByte_succeed twoTopics (show (0 : Int) ≤ 3 by decide) 0 {})
  rw [writeRecords_file byteByByte_succeed twoRecords opened, header]
  rfl

theorem round_trip_byte_by_byte :
    ∃ image : FileImage, ∀ beyond now,
      Replays image beyond now (twoTopics.map resolved) (twoRecords.map PoppedRecord.record) := by
  refine ⟨⟨(writeRecords byteByByte (Output.openFile byteByByte twoTopics 3 0 {}).2
    twoRecords).disk.file, ?_⟩, ?_⟩
  · rw [twoRecords_file]
    decide +kernel
  · intro beyond now
    exact round_trip byteByByte byteByByte_succeed twoTopics (by decide) (by decide) twoRecords
      (by simp [twoRecords, twoTopics, Conforms, kMaxPayloadBytes]) 3 0 (by decide) {} _ rfl
      beyond now

end ChronoCap.RoundTrip

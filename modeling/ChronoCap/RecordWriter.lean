/- module: ChronoCap/RecordWriter
   source: src/core/record_writer.cpp, include/chrono_cap/record_writer.hpp
   digest: What the writer thread owns: the file, write() and its short counts, the header and
           topic table, one record, and the periodic fsync. -/

import ChronoCap.Ring.MpscRingBuffer
import Mathlib.Data.List.Nodup
import Mathlib.Data.List.Perm.Subperm

set_option autoImplicit false
set_option relaxedAutoImplicit false

namespace ChronoCap

open ChronoCap.Foundation.ByteStore
open ChronoCap.WireFormat
open ChronoCap.Ring

/-- What each write() of a session answers, by the number of the call and the bytes it is asked to
write: how many it appends, at least one, or `none` for -1. -/
structure WriteCalls where
  result : Nat → Nat → Option Nat
  appends : ∀ k len n, 0 < len → result k len = some n → 0 < n ∧ n ≤ len

def WriteCalls.Succeed (io : WriteCalls) : Prop := ∀ k len, 0 < len → io.result k len ≠ none

/-- The file of a session: what was appended, how much of it was fsync'ed, and the number of
write() calls made so far. -/
structure Disk where
  file : List UInt8 := []
  synced : Nat := 0
  calls : Nat := 0
  deriving DecidableEq, Repr

/-- What the writer gets from outside: the kernel, the clock at Open, and the memory it does not
control (the old contents of a local buffer, the bytes behind a local array). -/
structure Host where
  io : WriteCalls
  createdAtNs : UInt64
  stack : Nat → Nat → UInt8
  beyond : List UInt8

structure TopicInfo where
  topicId : UInt16 := 0
  wireSize : UInt32 := 0
  /-- the characters of the `std::string` -/
  name : List UInt8 := []
  deriving DecidableEq, Repr

/-- The members of RecordWriter that only Open, Close and the writer thread touch. -/
structure Output where
  binFd : Int := -1
  pendingSinceFlush : UInt32 := 0
  lastFlush : Int := 0
  disk : Disk := {}
  deriving DecidableEq, Repr

def writeAll (io : WriteCalls) (d : Disk) (p : List UInt8) : Bool × Disk :=
  if _more : 0 < p.length then
    match _answer : io.result d.calls p.length with
    | none => (false, { d with calls := d.calls + 1 })
    | some n =>
        writeAll io { d with file := d.file ++ p.take n, calls := d.calls + 1 } (p.drop n)
  else (true, d)
termination_by p.length
decreasing_by
  have := io.appends _ _ _ _more _answer
  rw [List.length_drop]
  omega

/-- `snprintf(buf, size, "%s", s.c_str())`: what it stores into the buffer. -/
def snprintf (size : Nat) (s : List UInt8) : List UInt8 := (cString s [0]).take (size - 1) ++ [0]

theorem length_snprintf_le (s : List UInt8) : (snprintf 32 s).length ≤ 32 := by
  simp only [snprintf, List.length_append, List.length_take, List.length_singleton]
  omega

def TopicInfo.meta (t : TopicInfo) : TopicMetaEntry where
  topicId := t.topicId
  structSize := t.wireSize
  name := ⟨(poke (List.replicate 32 0) 0 (snprintf 32 t.name)).toArray, by
    have fits := length_snprintf_le t.name
    rw [List.size_toArray, length_poke (by simpa using fits), List.length_replicate]⟩

def writeTopics (host : Host) : List TopicInfo → Disk → Bool × Disk
  | [], d => (true, d)
  | t :: ts, d =>
      match writeAll host.io d
        (t.meta.serialize host.beyond (uninit (host.stack d.calls) kTopicMetaWireSize)) with
      | (false, d) => (false, d)
      | (true, d) => writeTopics host ts d

def fileHeader (createdAtNs : UInt64) (topics : List TopicInfo) : FileHeader where
  topicCount := UInt32.ofNat topics.length
  createdAtNs := createdAtNs

def writeFileHeaderAndMetadata (host : Host) (topics : List TopicInfo) (d : Disk) : Bool × Disk :=
  match writeAll host.io d ((fileHeader host.createdAtNs topics).serialize
    (uninit (host.stack d.calls) kFileHeaderWireSize)) with
  | (false, d) => (false, d)
  | (true, d) => writeTopics host topics d

def recordHeader (rec : PoppedRecord) : RecordHeader := ⟨rec.topicId, rec.stampNs, rec.seq⟩

/-- The payload array is read up to `payload_len`, which the ring keeps within the array. -/
def writeRecord (host : Host) (o : Output) (rec : PoppedRecord) : Bool × Output :=
  if o.binFd < 0 then (false, o)
  else
    match writeAll host.io o.disk
      ((recordHeader rec).serialize (uninit (host.stack o.disk.calls) kRecordHeaderWireSize)) with
    | (false, d) => (false, { o with disk := d })
    | (true, d) =>
        match writeAll host.io d (rec.payload.toList.take rec.payloadLen.toNat) with
        | (false, d) => (false, { o with disk := d })
        | (true, d) =>
            (true, { o with disk := d, pendingSinceFlush := o.pendingSinceFlush + 1 })

/-- The part of Open before the writer thread starts; `fd` is what ::open answers for the
truncated file. -/
def Output.openFile (host : Host) (topics : List TopicInfo) (fd now : Int) (o : Output) :
    Bool × Output :=
  if fd < 0 then (false, { o with binFd := fd })
  else
    match writeFileHeaderAndMetadata host topics { calls := o.disk.calls } with
    | (false, d) => (false, { o with binFd := fd, disk := d })
    | (true, d) => (true, { o with binFd := fd, disk := d, lastFlush := now })

/-- The writer thread goes on to the next record whatever WriteRecord answered. -/
def writeRecords (host : Host) (o : Output) (recs : List PoppedRecord) : Output :=
  recs.foldl (fun o rec => (writeRecord host o rec).2) o

def Output.fsync (o : Output) : Output :=
  { o with disk := { o.disk with synced := o.disk.file.length } }

def Output.maybeFlush (flushInterval now : Int) (o : Output) : Output :=
  if o.pendingSinceFlush = 0 then o
  else if now - o.lastFlush < flushInterval then o
  else
    let o := if 0 ≤ o.binFd then o.fsync else o
    { o with pendingSinceFlush := 0, lastFlush := now }

section WriteAll

variable {io : WriteCalls} {d : Disk} {p : List UInt8}

@[simp] theorem writeAll_nil (io : WriteCalls) (d : Disk) : writeAll io d [] = (true, d) := by
  rw [writeAll, dif_neg (by simp)]

/-- A first call that fails leaves the file as it was. -/
theorem writeAll_of_none (more : 0 < p.length) (failed : io.result d.calls p.length = none) :
    writeAll io d p = (false, { d with calls := d.calls + 1 }) := by
  rw [writeAll, dif_pos more]
  split
  · rfl
  · rename_i n some
    rw [failed] at some
    contradiction

theorem writeAll_of_some {n : Nat} (more : 0 < p.length)
    (answer : io.result d.calls p.length = some n) :
    writeAll io d p =
      writeAll io { d with file := d.file ++ p.take n, calls := d.calls + 1 } (p.drop n) := by
  rw [writeAll, dif_pos more]
  split
  · rename_i none
    rw [answer] at none
    contradiction
  · rename_i m some
    obtain rfl : n = m := Option.some.inj (answer.symm.trans some)
    rfl

/-- A first call that takes everything. -/
theorem writeAll_of_whole (more : 0 < p.length)
    (answer : io.result d.calls p.length = some p.length) :
    writeAll io d p = (true, { d with file := d.file ++ p, calls := d.calls + 1 }) := by
  rw [writeAll_of_some more answer, List.take_length, List.drop_length, writeAll_nil]

/-- Whatever the counts, a prefix is appended, all of it exactly if no call failed. -/
theorem writeAll_file (io : WriteCalls) (d : Disk) (p : List UInt8) :
    ∃ k ≤ p.length, (writeAll io d p).2.file = d.file ++ p.take k ∧
      ((writeAll io d p).1 = true ↔ k = p.length) := by
  induction d, p using writeAll.induct io with
  | case1 d p more failed =>
      refine ⟨0, Nat.zero_le _, ?_⟩
      rw [writeAll_of_none more failed]
      simp only [List.take_zero, List.append_nil, Bool.false_eq_true, false_iff, true_and]
      omega
  | case2 d p more n answer ih =>
      obtain ⟨pos, le⟩ := io.appends _ _ _ more answer
      obtain ⟨k, hk, file, ok⟩ := ih
      rw [List.length_drop] at hk ok
      refine ⟨n + k, by omega, ?_, ?_⟩
      · rw [writeAll_of_some more answer, file, List.append_assoc, ← List.take_add]
      · rw [writeAll_of_some more answer, ok]
        omega
  | case3 d p done =>
      obtain rfl : p = [] := List.length_eq_zero_iff.mp (by omega)
      exact ⟨0, Nat.le_refl _, by simp⟩

theorem writeAll_ok (succeed : io.Succeed) (d : Disk) (p : List UInt8) :
    (writeAll io d p).1 = true := by
  induction d, p using writeAll.induct io with
  | case1 d p more failed => exact absurd failed (succeed _ _ more)
  | case2 d p more n answer ih => rwa [writeAll_of_some more answer]
  | case3 d p done => rw [writeAll, dif_neg done]

/-- Short counts do not show in the file. -/
theorem writeAll_file_of_ok (ok : (writeAll io d p).1 = true) :
    (writeAll io d p).2.file = d.file ++ p := by
  obtain ⟨k, -, file, whole⟩ := writeAll_file io d p
  obtain rfl := whole.mp ok
  rw [file, List.take_length]

end WriteAll

/-! What ends up in the file: the header and table, and the encoding of one record. -/

/-- The name as the file keeps it: cut at its first NUL and to 31 characters. -/
def TopicInfo.fileName (t : TopicInfo) : List UInt8 := (t.name.takeWhile (· ≠ 0)).take 31

theorem TopicInfo.text_meta (t : TopicInfo) : t.meta.text = t.fileName := by
  have clean : 0 ∉ t.fileName := fun h =>
    not_mem_takeWhile_ne _ (List.mem_of_mem_take h)
  have printed : snprintf 32 t.name = t.fileName ++ [0] := by
    have stop : cString t.name [0] = t.name.takeWhile (· ≠ 0) := by
      by_cases nul : 0 ∈ t.name
      · exact cString_of_nul [0] nul
      · rw [cString_of_no_nul [0] nul]
        have whole : t.name.takeWhile (· ≠ 0) = t.name := by
          rw [List.takeWhile_eq_self_iff]
          exact fun b hb => decide_eq_true (fun hb0 => nul (hb0 ▸ hb))
        rw [whole]
        simp
    rw [snprintf, stop]
    rfl
  have name : t.meta.name.toList = t.fileName ++ 0 ::
      (List.replicate 32 0).drop (snprintf 32 t.name).length := by
    change poke (List.replicate 32 0) 0 (snprintf 32 t.name) = _
    rw [poke_zero, printed, List.append_assoc]
    rfl
  rw [TopicMetaEntry.text, name]
  have read := cString_terminated clean
    ((List.replicate 32 0).drop (snprintf 32 t.name).length) []
  rw [cString, List.append_nil] at read
  rw [read, TopicInfo.fileName, List.take_take, Nat.min_self]

def tableBytes (topics : List TopicInfo) : List UInt8 :=
  (topics.map (fun t => t.meta.bytes)).flatten

/-- Distinct 16-bit ids leave room for the count in the file header. -/
theorem few_of_distinct {topics : List TopicInfo}
    (distinct : (topics.map TopicInfo.topicId).Nodup) : topics.length < 2 ^ 32 := by
  have values : ((topics.map TopicInfo.topicId).map UInt16.toNat).Nodup :=
    distinct.map (fun a b same => UInt16.toNat_inj.mp same)
  have below : (topics.map TopicInfo.topicId).map UInt16.toNat ⊆ List.range (2 ^ 16) := by
    intro n hn
    obtain ⟨id, -, rfl⟩ := List.mem_map.mp hn
    exact List.mem_range.mpr id.toNat_lt
  have length := (values.subperm below).length_le
  rw [List.length_map, List.length_map, List.length_range] at length
  omega

/-- What WriteFileHeaderAndMetadata appends if no write() fails. -/
def headerBytes (createdAtNs : UInt64) (topics : List TopicInfo) : List UInt8 :=
  (fileHeader createdAtNs topics).bytes ++ tableBytes topics

@[simp] theorem tableBytes_cons (t : TopicInfo) (ts : List TopicInfo) :
    tableBytes (t :: ts) = t.meta.bytes ++ tableBytes ts := rfl

theorem length_tableBytes (topics : List TopicInfo) :
    (tableBytes topics).length = kTopicMetaWireSize * topics.length := by
  induction topics with
  | nil => rfl
  | cons t ts ih =>
      rw [tableBytes_cons, List.length_append, TopicMetaEntry.length_bytes, ih, List.length_cons,
        Nat.mul_succ, Nat.add_comm]

private theorem serialize_uninit (t : TopicMetaEntry) (beyond : List UInt8) (stack : Nat → UInt8) :
    t.serialize beyond (uninit stack kTopicMetaWireSize) = t.bytes := by
  rw [TopicMetaEntry.serialize_eq, List.drop_of_length_le (by simp), List.append_nil]

theorem writeTopics_file {host : Host} {topics : List TopicInfo} {d : Disk}
    (ok : (writeTopics host topics d).1 = true) :
    (writeTopics host topics d).2.file = d.file ++ tableBytes topics := by
  induction topics generalizing d with
  | nil => simp [writeTopics, tableBytes]
  | cons t ts ih =>
      unfold writeTopics at ok ⊢
      rw [serialize_uninit] at ok ⊢
      have entry := @writeAll_file_of_ok host.io d t.meta.bytes
      split at ok
      · contradiction
      · rename_i d' written
        rw [written] at entry
        rw [ih ok, entry rfl, tableBytes_cons, List.append_assoc]

theorem writeFileHeaderAndMetadata_file {host : Host} {topics : List TopicInfo} {d : Disk}
    (ok : (writeFileHeaderAndMetadata host topics d).1 = true) :
    (writeFileHeaderAndMetadata host topics d).2.file =
      d.file ++ headerBytes host.createdAtNs topics := by
  unfold writeFileHeaderAndMetadata at ok ⊢
  rw [FileHeader.serialize_eq, List.drop_of_length_le (by simp), List.append_nil] at ok ⊢
  have header := @writeAll_file_of_ok host.io d (fileHeader host.createdAtNs topics).bytes
  split at ok
  · contradiction
  · rename_i d' written
    rw [written] at header
    rw [writeTopics_file ok, header rfl, headerBytes, List.append_assoc]

theorem writeFileHeaderAndMetadata_ok {host : Host} (succeed : host.io.Succeed)
    (topics : List TopicInfo) (d : Disk) :
    (writeFileHeaderAndMetadata host topics d).1 = true := by
  have table : ∀ d, (writeTopics host topics d).1 = true := by
    induction topics with
    | nil => exact fun _ => rfl
    | cons t ts ih =>
        intro d
        unfold writeTopics
        split
        · rename_i d' failed
          have := writeAll_ok succeed d
            (t.meta.serialize host.beyond (uninit (host.stack d.calls) kTopicMetaWireSize))
          rw [failed] at this
          exact this
        · exact ih _
  unfold writeFileHeaderAndMetadata
  split
  · rename_i d' failed
    have := writeAll_ok succeed d ((fileHeader host.createdAtNs topics).serialize
      (uninit (host.stack d.calls) kFileHeaderWireSize))
    rw [failed] at this
    exact this
  · exact table _

/-- The encoding of one record. -/
def recordBytes (r : Record) : List UInt8 :=
  (RecordHeader.mk r.topicId r.stampNs r.seq).bytes ++ r.bytes

/-- A record write appends a prefix of the encoding, all of it exactly if it returns true. -/
theorem writeRecord_file {host : Host} {o : Output} (opened : 0 ≤ o.binFd) (rec : PoppedRecord) :
    (writeRecord host o rec).2.binFd = o.binFd ∧
      ∃ k ≤ (recordBytes rec.record).length,
        (writeRecord host o rec).2.disk.file = o.disk.file ++ (recordBytes rec.record).take k ∧
          ((writeRecord host o rec).1 = true ↔ k = (recordBytes rec.record).length) := by
  have whole : recordBytes rec.record =
      (recordHeader rec).bytes ++ rec.payload.toList.take rec.payloadLen.toNat := rfl
  obtain ⟨k, hk, file, ok⟩ := writeAll_file host.io o.disk (recordHeader rec).bytes
  unfold writeRecord
  rw [if_neg (by omega), RecordHeader.serialize_eq, List.drop_of_length_le (by simp),
    List.append_nil, whole]
  split
  · rename_i d failed
    rw [failed] at file ok
    simp only [Bool.false_eq_true, false_iff] at ok
    refine ⟨rfl, k, by rw [List.length_append]; omega, ?_, ?_⟩
    · rw [List.take_append_of_le_length hk]
      exact file
    · simp only [Bool.false_eq_true, List.length_append, false_iff]
      omega
  · rename_i d written
    rw [written] at file ok
    obtain rfl := ok.mp rfl
    rw [List.take_length] at file
    obtain ⟨j, hj, file', ok'⟩ := writeAll_file host.io d
      (rec.payload.toList.take rec.payloadLen.toNat)
    have appended : (d.file ++ (rec.payload.toList.take rec.payloadLen.toNat).take j) =
        o.disk.file ++
          ((recordHeader rec).bytes ++ rec.payload.toList.take rec.payloadLen.toNat).take
            ((recordHeader rec).bytes.length + j) := by
      rw [file, List.append_assoc, List.take_length_add_append]
    split
    · rename_i d' failed
      rw [failed] at file' ok'
      simp only [Bool.false_eq_true, false_iff] at ok'
      refine ⟨rfl, (recordHeader rec).bytes.length + j, by rw [List.length_append]; omega, ?_, ?_⟩
      · exact file'.trans appended
      · simp only [Bool.false_eq_true, List.length_append, false_iff]
        omega
    · rename_i d' done
      rw [done] at file' ok'
      obtain rfl := ok'.mp rfl
      refine ⟨rfl, (recordHeader rec).bytes.length + _, by rw [List.length_append], ?_, ?_⟩
      · exact file'.trans appended
      · simp

theorem openFile_file {host : Host} {topics : List TopicInfo} {fd now : Int} {o : Output}
    (ok : (o.openFile host topics fd now).1 = true) :
    0 ≤ (o.openFile host topics fd now).2.binFd ∧
      (o.openFile host topics fd now).2.disk.file = headerBytes host.createdAtNs topics := by
  unfold Output.openFile at ok ⊢
  split
  · rename_i bad
    rw [if_pos bad] at ok
    contradiction
  · rename_i good
    rw [if_neg good] at ok
    have header := @writeFileHeaderAndMetadata_file host topics { calls := o.disk.calls }
    split at ok
    · contradiction
    · rename_i d written
      rw [written] at header
      exact ⟨by simpa using good, header rfl⟩

theorem openFile_ok {host : Host} (succeed : host.io.Succeed) (topics : List TopicInfo)
    {fd : Int} (opened : 0 ≤ fd) (now : Int) (o : Output) :
    (o.openFile host topics fd now).1 = true := by
  unfold Output.openFile
  rw [if_neg (by omega)]
  have ok := writeFileHeaderAndMetadata_ok succeed topics { calls := o.disk.calls }
  split
  · rename_i d failed
    rw [failed] at ok
    exact ok
  · rfl

theorem writeRecord_ok {host : Host} (succeed : host.io.Succeed) {o : Output}
    (opened : 0 ≤ o.binFd) (rec : PoppedRecord) :
    (writeRecord host o rec).1 = true := by
  unfold writeRecord
  rw [if_neg (by omega)]
  split
  · rename_i d failed
    have := writeAll_ok succeed o.disk ((recordHeader rec).serialize
      (uninit (host.stack o.disk.calls) kRecordHeaderWireSize))
    rw [failed] at this
    exact this
  · rename_i d written
    split
    · rename_i d' failed
      have := writeAll_ok succeed d (rec.payload.toList.take rec.payloadLen.toNat)
      rw [failed] at this
      exact this
    · rfl

/-- Each WriteRecord returns true. -/
def AllWritten (host : Host) : Output → List PoppedRecord → Prop
  | _, [] => True
  | o, rec :: recs =>
      (writeRecord host o rec).1 = true ∧ AllWritten host (writeRecord host o rec).2 recs

theorem allWritten_of_succeed {host : Host} (succeed : host.io.Succeed) (recs : List PoppedRecord)
    {o : Output} (opened : 0 ≤ o.binFd) : AllWritten host o recs := by
  induction recs generalizing o with
  | nil => trivial
  | cons rec recs ih =>
      obtain ⟨fd, -⟩ := @writeRecord_file host o opened rec
      exact ⟨writeRecord_ok succeed opened rec, ih (by omega)⟩

/-- Records that are written are appended one after the other. -/
theorem writeRecords_file_of_written {host : Host} {recs : List PoppedRecord} {o : Output}
    (opened : 0 ≤ o.binFd) (all : AllWritten host o recs) :
    (writeRecords host o recs).disk.file =
      o.disk.file ++ (recs.map (fun rec => recordBytes rec.record)).flatten := by
  induction recs generalizing o with
  | nil => simp [writeRecords]
  | cons rec recs ih =>
      obtain ⟨written, all⟩ := all
      obtain ⟨fd, k, -, file, ok⟩ := @writeRecord_file host o opened rec
      obtain rfl := ok.mp written
      rw [List.take_length] at file
      have rest := ih (o := (writeRecord host o rec).2) (by omega) all
      rw [file, List.append_assoc] at rest
      exact rest

theorem writeRecords_file {host : Host} (succeed : host.io.Succeed) (recs : List PoppedRecord)
    {o : Output} (opened : 0 ≤ o.binFd) :
    (writeRecords host o recs).disk.file =
      o.disk.file ++ (recs.map (fun rec => recordBytes rec.record)).flatten :=
  writeRecords_file_of_written opened (allWritten_of_succeed succeed recs opened)

@[simp] theorem maybeFlush_binFd (flushInterval now : Int) (o : Output) :
    (o.maybeFlush flushInterval now).binFd = o.binFd := by
  unfold Output.maybeFlush Output.fsync
  split
  · rfl
  · split
    · rfl
    · split <;> rfl

@[simp] theorem maybeFlush_file (flushInterval now : Int) (o : Output) :
    (o.maybeFlush flushInterval now).disk.file = o.disk.file := by
  unfold Output.maybeFlush Output.fsync
  split
  · rfl
  · split
    · rfl
    · split <;> rfl

/-! What the periodic flush goes by: the bytes synced and the count of what is pending. -/

@[simp] theorem writeAll_synced (io : WriteCalls) (d : Disk) (p : List UInt8) :
    (writeAll io d p).2.synced = d.synced := by
  induction d, p using writeAll.induct io with
  | case1 d p more failed => rw [writeAll_of_none more failed]
  | case2 d p more n answer ih => rw [writeAll_of_some more answer, ih]
  | case3 d p done => rw [writeAll, dif_neg done]

theorem writeTopics_synced (host : Host) (topics : List TopicInfo) (d : Disk) :
    (writeTopics host topics d).2.synced = d.synced := by
  induction topics generalizing d with
  | nil => rfl
  | cons t ts ih =>
      have entry := writeAll_synced host.io d
        (t.meta.serialize host.beyond (uninit (host.stack d.calls) kTopicMetaWireSize))
      unfold writeTopics
      split
      · rename_i d' failed
        rwa [failed] at entry
      · rename_i d' written
        rw [written] at entry
        rw [ih, entry]

theorem writeFileHeaderAndMetadata_synced (host : Host) (topics : List TopicInfo) (d : Disk) :
    (writeFileHeaderAndMetadata host topics d).2.synced = d.synced := by
  have header := writeAll_synced host.io d ((fileHeader host.createdAtNs topics).serialize
    (uninit (host.stack d.calls) kFileHeaderWireSize))
  unfold writeFileHeaderAndMetadata
  split
  · rename_i d' failed
    rwa [failed] at header
  · rename_i d' written
    rw [written] at header
    rw [writeTopics_synced, header]

/-- Open leaves the count of an earlier session, and nothing of the new file is synced. -/
theorem openFile_pending (host : Host) (topics : List TopicInfo) (fd now : Int) (o : Output) :
    (o.openFile host topics fd now).2.pendingSinceFlush = o.pendingSinceFlush ∧
      ((o.openFile host topics fd now).1 = true →
        (o.openFile host topics fd now).2.disk.synced = 0 ∧
          (o.openFile host topics fd now).2.lastFlush = now) := by
  have fresh := writeFileHeaderAndMetadata_synced host topics { calls := o.disk.calls }
  unfold Output.openFile
  split
  · exact ⟨rfl, fun bad => absurd bad Bool.false_ne_true⟩
  · split
    · exact ⟨rfl, fun bad => absurd bad Bool.false_ne_true⟩
    · rename_i d written
      rw [written] at fresh
      exact ⟨rfl, fun _ => ⟨fresh, rfl⟩⟩

/-- WriteRecord syncs nothing, and counts what it has written. -/
theorem writeRecord_cases (host : Host) (o : Output) (rec : PoppedRecord) :
    ∃ d : Disk, d.synced = o.disk.synced ∧
      (writeRecord host o rec = (false, { o with disk := d }) ∨
        writeRecord host o rec =
          (true, { o with disk := d, pendingSinceFlush := o.pendingSinceFlush + 1 })) := by
  have header := writeAll_synced host.io o.disk
    ((recordHeader rec).serialize (uninit (host.stack o.disk.calls) kRecordHeaderWireSize))
  unfold writeRecord
  split
  · exact ⟨o.disk, rfl, .inl rfl⟩
  · split
    · rename_i d failed
      rw [failed] at header
      exact ⟨d, header, .inl rfl⟩
    · rename_i d written
      rw [written] at header
      have payload := writeAll_synced host.io d (rec.payload.toList.take rec.payloadLen.toNat)
      split
      · rename_i d' failed
        rw [failed] at payload
        exact ⟨d', payload.trans header, .inl rfl⟩
      · rename_i d' done
        rw [done] at payload
        exact ⟨d', payload.trans header, .inr rfl⟩

/-- MaybeFlush gets past its two tests. -/
def Output.Due (flushInterval now : Int) (o : Output) : Prop :=
  o.pendingSinceFlush ≠ 0 ∧ flushInterval ≤ now - o.lastFlush

instance (flushInterval now : Int) (o : Output) : Decidable (o.Due flushInterval now) :=
  inferInstanceAs (Decidable (o.pendingSinceFlush ≠ 0 ∧ flushInterval ≤ now - o.lastFlush))

theorem maybeFlush_of_due {flushInterval now : Int} {o : Output} (opened : 0 ≤ o.binFd)
    (due : o.Due flushInterval now) :
    o.maybeFlush flushInterval now = { o.fsync with pendingSinceFlush := 0, lastFlush := now } := by
  unfold Output.maybeFlush
  rw [if_neg due.1, if_neg (by have := due.2; omega)]
  simp only [if_pos opened]

theorem maybeFlush_of_not_due {flushInterval now : Int} {o : Output}
    (early : ¬ o.Due flushInterval now) : o.maybeFlush flushInterval now = o := by
  unfold Output.maybeFlush
  split
  · rfl
  · rename_i pending
    rw [if_pos]
    by_contra late
    exact early ⟨pending, by omega⟩

end ChronoCap

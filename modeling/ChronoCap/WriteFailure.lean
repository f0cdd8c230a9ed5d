/- module: ChronoCap/WriteFailure
   source: src/core/record_writer.cpp
   digest: A failed write() can leave part of a record in the file. Nothing is garbled as long as
           nothing is appended behind it; the writer thread appends behind it. -/

import ChronoCap.Foundation.Machine
import ChronoCap.RoundTrip

set_option autoImplicit false
set_option relaxedAutoImplicit false

namespace ChronoCap.WriteFailure

open ChronoCap.Foundation
open ChronoCap.WireFormat
open ChronoCap.Ring (Record PoppedRecord)
open ChronoCap.RecordGrammar
open ChronoCap.RoundTrip

/-- The writer's output, and whether a WriteRecord has failed with part of its record written. -/
structure Progress where
  out : Output
  torn : Bool

def machine (host : Host) : Machine Progress PoppedRecord where
  Enabled _ _ := True
  next s rec :=
    let answer := writeRecord host s.out rec
    ⟨answer.2, s.torn || (!answer.1 && answer.2.disk.file ≠ s.out.disk.file)⟩

/-- Behind a torn record the next record does not get a single byte into the file: its first
write() fails as well. -/
def Untorn (host : Host) (s : Progress) (_ : PoppedRecord) : Prop :=
  s.torn = true → host.io.result s.out.disk.calls kRecordHeaderWireSize = none

variable {host : Host} {createdAtNs : UInt64} {topics : List TopicInfo}

/-- The file holds the records that were written whole, and at most one torn one, at its end. -/
structure Recorded (createdAtNs : UInt64) (topics : List TopicInfo) (recs : List PoppedRecord)
    (s : Progress) (rs : List Record) (tail : List UInt8) : Prop where
  opened : 0 ≤ s.out.binFd
  file : s.out.disk.file =
    headerBytes createdAtNs topics ++ ((rs.map recordBytes).flatten ++ tail)
  sublist : rs.Sublist (recs.map PoppedRecord.record)
  whole : s.torn = false → tail = []
  torn : tail = [] ∨ ∃ rec ∈ recs, ∃ k < (recordBytes rec.record).length,
    tail = (recordBytes rec.record).take k

theorem writeRecord_of_none {o : Output} {rec : PoppedRecord}
    (failed : host.io.result o.disk.calls kRecordHeaderWireSize = none) :
    (writeRecord host o rec).2.binFd = o.binFd ∧
      (writeRecord host o rec).2.disk.file = o.disk.file := by
  unfold writeRecord
  split
  · exact ⟨rfl, rfl⟩
  · rw [RecordHeader.serialize_eq, List.drop_of_length_le (by simp), List.append_nil,
      writeAll_of_none (by simp [kRecordHeaderWireSize]) (by simpa using failed)]
    exact ⟨rfl, rfl⟩

/-- One more record, in full, in part, or not at all. -/
theorem Recorded.step {recs : List PoppedRecord} {s : Progress} {rs : List Record}
    {tail : List UInt8} (inv : Recorded createdAtNs topics recs s rs tail) (rec : PoppedRecord)
    (untorn : Untorn host s rec) :
    ∃ rs' tail', Recorded createdAtNs topics (recs ++ [rec]) ((machine host).next s rec) rs' tail'
    := by
  have earlier : (tail = [] ∨ ∃ rec' ∈ recs ++ [rec], ∃ k < (recordBytes rec'.record).length,
      tail = (recordBytes rec'.record).take k) := by
    rcases inv.torn with empty | ⟨rec', mem, k, short, eq⟩
    · exact .inl empty
    · exact .inr ⟨rec', List.mem_append_left _ mem, k, short, eq⟩
  have skipped : rs.Sublist ((recs ++ [rec]).map PoppedRecord.record) := by
    rw [List.map_append]
    exact inv.sublist.trans (List.sublist_append_left _ _)
  by_cases torn : s.torn = true
  · -- a torn record is the last thing the file gets
    obtain ⟨fd, file⟩ := @writeRecord_of_none host s.out rec (untorn torn)
    refine ⟨rs, tail, ?_, file.trans inv.file, skipped, ?_, earlier⟩
    · change 0 ≤ (writeRecord host s.out rec).2.binFd
      rw [fd]
      exact inv.opened
    · intro now
      simp [machine, torn] at now
  · have clean : s.torn = false := by simpa using torn
    obtain rfl := inv.whole clean
    obtain ⟨fd, k, hk, file, ok⟩ := @writeRecord_file host s.out inv.opened rec
    have opened : 0 ≤ ((machine host).next s rec).out.binFd := by
      change 0 ≤ (writeRecord host s.out rec).2.binFd
      rw [fd]
      exact inv.opened
    have start := inv.file
    rw [List.append_nil] at start
    by_cases done : (writeRecord host s.out rec).1 = true
    · obtain rfl := ok.mp done
      refine ⟨rs ++ [rec.record], [], opened, ?_, ?_, fun _ => rfl, .inl rfl⟩
      · refine file.trans ?_
        rw [start, List.take_length]
        simp
      · rw [List.map_append]
        exact List.Sublist.append inv.sublist (List.Sublist.refl _)
    · have short : k < (recordBytes rec.record).length := by
        rcases Nat.lt_or_ge k (recordBytes rec.record).length with lt | ge
        · exact lt
        · exact absurd (ok.mpr (Nat.le_antisymm hk ge)) done
      refine ⟨rs, (recordBytes rec.record).take k, opened, ?_, skipped, ?_,
        .inr ⟨rec, by simp, k, short, rfl⟩⟩
      · refine file.trans ?_
        rw [start, List.append_assoc]
      · intro still
        have failed : (writeRecord host s.out rec).1 = false := by simpa using done
        have same : (writeRecord host s.out rec).2.disk.file = s.out.disk.file := by
          simpa [machine, clean, failed] using still
        rw [file] at same
        exact List.append_right_eq_self.mp same

theorem recorded_of_run {o : Output} (opened : 0 ≤ o.binFd)
    (header : o.disk.file = headerBytes createdAtNs topics) {recs : List PoppedRecord}
    {s : Progress} (run : (machine host).Run (Untorn host) ⟨o, false⟩ recs s) :
    ∃ rs tail, Recorded createdAtNs topics recs s rs tail := by
  induction run with
  | nil =>
      exact ⟨[], [], opened, by simpa using header, List.Sublist.refl _, fun _ => rfl, .inl rfl⟩
  | snoc _ _ untorn ih =>
      obtain ⟨rs, tail, inv⟩ := ih
      exact inv.step _ untorn

theorem writeRecords_snoc (host : Host) (o : Output) (recs : List PoppedRecord)
    (rec : PoppedRecord) :
    writeRecords host o (recs ++ [rec]) = (writeRecord host (writeRecords host o recs) rec).2 :=
  List.foldl_append

theorem out_of_run {o : Output} {recs : List PoppedRecord} {s : Progress}
    (run : (machine host).Run (Untorn host) ⟨o, false⟩ recs s) :
    s.out = writeRecords host o recs := by
  induction run with
  | nil => rfl
  | snoc _ _ _ ih =>
      rw [writeRecords_snoc, ← ih]
      rfl

/-- However write() fails: if nothing is appended behind a torn record, what is replayed is a
subsequence of what was popped. -/
theorem replays_sublist_of_untorn (host : Host) (topics : List TopicInfo)
    (few : topics.length < 2 ^ 32) (distinct : (topics.map TopicInfo.topicId).Nodup)
    (fd now : Int) (o : Output) (table : (o.openFile host topics fd now).1 = true)
    (recs : List PoppedRecord) (conform : ∀ rec ∈ recs, Conforms topics rec) (s : Progress)
    (run : (machine host).Run (Untorn host) ⟨(o.openFile host topics fd now).2, false⟩ recs s)
    (image : FileImage)
    (written : image.bytes =
      (writeRecords host (o.openFile host topics fd now).2 recs).disk.file)
    (beyond : Nat → List UInt8) (replayNow : UInt64) :
    ∃ rs, rs.Sublist (recs.map PoppedRecord.record) ∧
      Replays image beyond replayNow (topics.map resolved) rs := by
  obtain ⟨opened, header⟩ := openFile_file table
  obtain ⟨rs, tail, inv⟩ := recorded_of_run opened header run
  have fits : ∀ r ∈ recs.map PoppedRecord.record, Fits topics r := by
    intro r hr
    obtain ⟨rec, hrec, rfl⟩ := List.mem_map.mp hr
    exact (conform rec hrec).fits
  have nothing : (records (topics.map resolved)).frames tail = [] := by
    rcases inv.torn with rfl | ⟨rec, mem, k, short, rfl⟩
    · exact Framing.frames_nil
    · exact Framing.frames_torn (isFrame_recordBytes distinct (conform rec mem).fits) short
  refine ⟨rs, inv.sublist, replays_written host.createdAtNs few distinct
    (fun r hr => fits r (inv.sublist.subset hr)) nothing ?_ beyond replayNow⟩
  rw [written, ← out_of_run run, inv.file]

/-! A record torn after two bytes, and the next one written behind it. -/

/-- The write() calls number 2 and 3 append two bytes and fail; the others take everything. -/
def tearing : Host where
  io := ⟨fun k len => if k = 2 then some (min 2 len) else if k = 3 then none else some len, by
    intro k len n more answer
    split at answer
    · obtain rfl := Option.some.inj answer
      omega
    · split at answer
      · contradiction
      · obtain rfl := Option.some.inj answer
        omega⟩
  createdAtNs := 0
  stack := fun _ _ => 0
  beyond := []

/-- One topic whose records have no payload. -/
def tick : List TopicInfo := [⟨1, 0, [0x74]⟩]

def ticks : List PoppedRecord := [{ topicId := 1 }, { topicId := 1 }]

theorem openFile_tearing :
    Output.openFile tearing tick 3 0 {} =
      (true, { binFd := 3, disk := { file := headerBytes 0 tick, calls := 2 } }) := by
  have entry : writeTopics tearing tick ⟨(fileHeader 0 tick).bytes, 0, 1⟩ =
      (true, ⟨(fileHeader 0 tick).bytes ++ tableBytes tick, 0, 2⟩) := by
    unfold tick writeTopics
    rw [TopicMetaEntry.serialize_eq, List.drop_of_length_le (by simp), List.append_nil,
      writeAll_of_whole (by simp [kTopicMetaWireSize]) (by simp [tearing])]
    simp [writeTopics, tableBytes]
  unfold Output.openFile writeFileHeaderAndMetadata
  rw [if_neg (by decide), FileHeader.serialize_eq, List.drop_of_length_le (by simp),
    List.append_nil, writeAll_of_whole (by simp [kFileHeaderWireSize]) (by simp [tearing])]
  simp only [List.nil_append]
  rw [show (0 : Nat) + 1 = 1 from rfl, show tearing.createdAtNs = 0 from rfl, entry]
  rfl

/-- The first record stops after two bytes. -/
theorem writeRecord_torn :
    writeRecord tearing { binFd := 3, disk := { file := headerBytes 0 tick, calls := 2 } }
        { topicId := 1 } =
      (false, { binFd := 3, disk := { file := headerBytes 0 tick ++ [1, 0], calls := 4 } }) := by
  have first : writeAll tearing.io { file := headerBytes 0 tick, calls := 2 }
      (recordHeader { topicId := 1 }).bytes =
        (false, { file := headerBytes 0 tick ++ [1, 0], calls := 4 }) := by
    rw [writeAll_of_some (n := 2) (by simp [kRecordHeaderWireSize])
        (by simp [tearing, kRecordHeaderWireSize]),
      writeAll_of_none (by simp [kRecordHeaderWireSize]) (by simp [tearing])]
    rfl
  unfold writeRecord
  rw [if_neg (by decide), RecordHeader.serialize_eq, List.drop_of_length_le (by simp),
    List.append_nil, first]

/-- The second record follows right behind. -/
theorem writeRecord_behind :
    (writeRecord tearing
        { binFd := 3, disk := { file := headerBytes 0 tick ++ [1, 0], calls := 4 } }
          { topicId := 1 }).2.disk.file =
      headerBytes 0 tick ++ [1, 0] ++ (recordHeader { topicId := 1 }).bytes := by
  unfold writeRecord
  rw [if_neg (by decide), RecordHeader.serialize_eq, List.drop_of_length_le (by simp),
    List.append_nil, writeAll_of_whole (by simp [kRecordHeaderWireSize]) (by simp [tearing])]
  dsimp only
  rw [show (List.take ({ topicId := 1 } : PoppedRecord).payloadLen.toNat
    ({ topicId := 1 } : PoppedRecord).payload.toList) = [] from rfl, writeAll_nil]

def tornFile : List UInt8 :=
  (writeRecords tearing (Output.openFile tearing tick 3 0 {}).2 ticks).disk.file

theorem tornFile_eq :
    tornFile = headerBytes 0 tick ++ (([⟨1, 1, 0, 0, []⟩].map recordBytes).flatten ++ [0, 0]) := by
  rw [tornFile, openFile_tearing, ticks, writeRecords, List.foldl_cons, List.foldl_cons,
    List.foldl_nil, writeRecord_torn, writeRecord_behind, List.append_assoc]
  congr 1

/-- As long as the session ends at the torn record, what was popped before it is replayed. -/
theorem replays_sublist_torn_last :
    ∃ image : FileImage, ∀ beyond now, ∃ rs,
      rs.Sublist ([{ topicId := 1 }].map PoppedRecord.record) ∧
        Replays image beyond now (tick.map resolved) rs := by
  have table : (Output.openFile tearing tick 3 0 {}).1 = true := by rw [openFile_tearing]
  have file : (writeRecords tearing (Output.openFile tearing tick 3 0 {}).2
      [{ topicId := 1 }]).disk.file = headerBytes 0 tick ++ [1, 0] := by
    rw [openFile_tearing, writeRecords, List.foldl_cons, List.foldl_nil, writeRecord_torn]
  refine ⟨⟨(writeRecords tearing (Output.openFile tearing tick 3 0 {}).2
    [{ topicId := 1 }]).disk.file, ?_⟩, ?_⟩
  · rw [file]
    decide
  · intro beyond now
    exact replays_sublist_of_untorn tearing tick (by decide) (by decide) 3 0 {} table
      [{ topicId := 1 }] (by simp [tick, Conforms]) _
      (Machine.Run.single trivial (fun torn => by simp at torn)) _ rfl beyond now

/-- With a record behind the torn one, a record that nobody pushed is replayed. -/
theorem torn_fabricates :
    (Output.openFile tearing tick 3 0 {}).1 = true ∧ (∀ rec ∈ ticks, Conforms tick rec) ∧
      ∃ image : FileImage,
        image.bytes = (writeRecords tearing (Output.openFile tearing tick 3 0 {}).2
          ticks).disk.file ∧
        ∀ beyond now, ¬ ∃ rs, rs.Sublist (ticks.map PoppedRecord.record) ∧
          Replays image beyond now (tick.map resolved) rs := by
  have size : tornFile.length < 2 ^ 63 := by
    rw [tornFile_eq]
    decide
  refine ⟨by rw [openFile_tearing], by simp [ticks, tick, Conforms], ⟨tornFile, size⟩, rfl, ?_⟩
  rintro beyond now ⟨rs, sublist, replays⟩
  have fits : ∀ r ∈ [(⟨1, 1, 0, 0, []⟩ : Record)], Fits tick r := by
    simp [Fits, tick]
  have rest : (records (tick.map resolved)).frames [0, 0] = [] :=
    Framing.frames_of_none (by decide)
  have fabricated : Replays ⟨tornFile, size⟩ beyond now (tick.map resolved) [⟨1, 1, 0, 0, []⟩] :=
    replays_written 0 (by decide) (by decide) fits rest tornFile_eq beyond now
  obtain rfl := replays.unique fabricated
  exact absurd sublist (by decide)

end ChronoCap.WriteFailure

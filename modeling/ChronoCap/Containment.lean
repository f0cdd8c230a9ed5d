/- module: ChronoCap/Containment
   source: src/core/record_writer.cpp, src/core/record_reader.cpp
   digest: Pushes that do not conform to the table: records carry no length, so the replay is
           right up to the first of them, and ends there if its topic is unknown. -/

import ChronoCap.Ring.PopOrder
import ChronoCap.RoundTrip

set_option autoImplicit false
set_option relaxedAutoImplicit false

namespace ChronoCap.Containment

open ChronoCap.Foundation
open ChronoCap.WireFormat
open ChronoCap.Ring
open ChronoCap.RecordReader
open ChronoCap.RecordGrammar
open ChronoCap.FileGrammar
open ChronoCap.RoundTrip

def Registered (topics : List TopicInfo) (r : Record) : Prop := ∃ t ∈ topics, t.topicId = r.topicId

/-- Its topic is in the table, with its length. -/
def Conforming (topics : List TopicInfo) (r : Record) : Prop :=
  ∃ t ∈ topics, t.topicId = r.topicId ∧ t.wireSize = r.payloadLen

instance (topics : List TopicInfo) : DecidablePred (Registered topics) :=
  fun r => inferInstanceAs (Decidable (∃ t ∈ topics, t.topicId = r.topicId))

instance (topics : List TopicInfo) : DecidablePred (Conforming topics) :=
  fun r => inferInstanceAs
    (Decidable (∃ t ∈ topics, t.topicId = r.topicId ∧ t.wireSize = r.payloadLen))

/-- The records before the first that does not conform. -/
def before (topics : List TopicInfo) (rs : List Record) : List Record :=
  rs.takeWhile (fun r => Conforming topics r)

/-- That one, and all behind it. -/
def behind (topics : List TopicInfo) (rs : List Record) : List Record :=
  rs.dropWhile (fun r => Conforming topics r)

/-- Every conforming record is replayed, in order and unaltered, whatever else was pushed. -/
def Contained (topics : List TopicInfo) (rs : List Record) (image : FileImage) : Prop :=
  ∀ beyond now, ∃ played, Replays image beyond now (topics.map resolved) played ∧
    (rs.filter (fun r => Conforming topics r)).Sublist played

/-- What is replayed of a sequence of pushes: those before the first that does not conform, and
nothing else if that one's topic is unknown, or there is none. If its topic is known and anything
is replayed behind, this begins with its own header. -/
def ReplaysUpTo (topics : List TopicInfo) (rs : List Record) (image : FileImage) : Prop :=
  ∀ beyond now, ∃ rest, Replays image beyond now (topics.map resolved) (before topics rs ++ rest) ∧
    ((∀ r ∈ (behind topics rs).head?, ¬ Registered topics r) → rest = []) ∧
    ∀ r ∈ (behind topics rs).head?, ∀ x ∈ rest.head?,
      x.topicId = r.topicId ∧ x.stampNs = r.stampNs ∧ x.seq = r.seq

variable {topics : List TopicInfo}

theorem lastEntry_of_unregistered {r : Record} (unknown : ¬ Registered topics r) :
    lastEntry (topics.map resolved) r.topicId = none := by
  cases found : lastEntry (topics.map resolved) r.topicId with
  | none => rfl
  | some entry =>
      obtain ⟨mem, id⟩ := lastEntry_mem found
      obtain ⟨t, ht, rfl⟩ := List.mem_map.mp mem
      exact absurd ⟨t, ht, id⟩ unknown

/-- A record of an unknown topic ends the replay. -/
theorem frames_of_unregistered {r : Record} (unknown : ¬ Registered topics r) (rest : List UInt8) :
    (records (topics.map resolved)).frames (recordBytes r ++ rest) = [] := by
  apply Framing.frames_of_none
  change recordSize (topics.map resolved) (recordBytes r ++ rest) = none
  unfold recordSize
  split
  · rfl
  · rw [recordBytes, List.append_assoc, (recordFields _ _).1, lastEntry_of_unregistered unknown]
    rfl

/-- What is found at the head of a record's bytes has the record's own header. -/
theorem frameRecord_head {r : Record} {rest f : List UInt8}
    (found : f ∈ ((records (topics.map resolved)).frames (recordBytes r ++ rest)).head?) :
    (frameRecord f).topicId = r.topicId ∧ (frameRecord f).stampNs = r.stampNs ∧
      (frameRecord f).seq = r.seq := by
  cases size : (records (topics.map resolved)).size (recordBytes r ++ rest) with
  | none => simp [Framing.frames_of_none size] at found
  | some n =>
      have header : kRecordHeaderWireSize ≤ n :=
        (records (topics.map resolved)).header_le _ n size
      simp only [kRecordHeaderWireSize] at header
      by_cases fits : n ≤ (recordBytes r ++ rest).length
      · rw [Framing.frames_of_le size fits, List.head?_cons] at found
        obtain rfl := Option.some.inj found
        obtain ⟨id, stamp, seq⟩ := recordFields ⟨r.topicId, r.stampNs, r.seq⟩ (r.bytes ++ rest)
        rw [← List.append_assoc] at id stamp seq
        refine ⟨?_, ?_, ?_⟩
        · exact (u16At_take _ (by omega)).trans id
        · exact (u64At_take _ (by omega)).trans stamp
        · exact (u64At_take _ (by omega)).trans seq
      · rw [Framing.frames_of_cut size (by omega)] at found
        simp at found

/-- The file of a sequence of pushes is replayed up to the first that does not conform. -/
theorem replaysUpTo_of_written (createdAtNs : UInt64)
    (distinct : (topics.map TopicInfo.topicId).Nodup) {pushes : List PushArgs} {image : FileImage}
    (written : image.bytes = headerBytes createdAtNs topics ++
      ((pushes.map PushArgs.record).map recordBytes).flatten) :
    ReplaysUpTo topics (pushes.map PushArgs.record) image := by
  intro beyond now
  have fits : ∀ r ∈ before topics (pushes.map PushArgs.record), Fits topics r := by
    intro r hr
    obtain ⟨a, -, rfl⟩ := List.mem_map.mp ((List.takeWhile_sublist _).subset hr)
    have conforming := List.mem_takeWhile_imp (p := fun r => Conforming topics r) hr
    obtain ⟨t, mem, id, size⟩ := of_decide_eq_true conforming
    refine ⟨t, mem, id, size, ?_⟩
    change (a.data.take a.len.toNat).length = a.len.toNat
    rw [List.length_take, Nat.min_eq_left a.readable]
  have split : image.bytes = headerBytes createdAtNs topics ++
      (((before topics (pushes.map PushArgs.record)).map recordBytes).flatten ++
        ((behind topics (pushes.map PushArgs.record)).map recordBytes).flatten) := by
    rw [written, ← List.flatten_append, ← List.map_append, before, behind,
      List.takeWhile_append_dropWhile]
  refine ⟨_, replays_written_append createdAtNs (few_of_distinct distinct) distinct fits split
    beyond now, ?_, ?_⟩
  · intro unknown
    cases tail : behind topics (pushes.map PushArgs.record) with
    | nil => simp
    | cons r rs =>
        have stop := unknown r (by simp [tail])
        rw [List.map_cons, List.flatten_cons, frames_of_unregistered stop, List.map_nil]
  · intro r hr x hx
    cases tail : behind topics (pushes.map PushArgs.record) with
    | nil => simp [tail] at hr
    | cons first rs =>
        rw [tail] at hr hx
        obtain rfl : first = r := by simpa using hr
        rw [List.map_cons, List.flatten_cons, List.head?_map] at hx
        obtain ⟨f, found, rfl⟩ := Option.map_eq_some_iff.mp hx
        exact frameRecord_head found

/-- A ring whose accepted pushes have all been popped, in order, into a session that was opened
with the table and wrote each of them without an error, and the file it left. -/
structure Recorded {cap : Capacity} (t : Ledger cap) (host : Host) (topics : List TopicInfo)
    (fd now : Int) (o : Output) (image : FileImage) : Prop where
  inOrder : t.popped.map Prod.fst = List.range t.accepted.length
  opened : (o.openFile host topics fd now).1 = true
  written : AllWritten host (o.openFile host topics fd now).2 (t.popped.map Prod.snd)
  file : image.bytes =
    (writeRecords host (o.openFile host topics fd now).2 (t.popped.map Prod.snd)).disk.file

theorem Recorded.bytes {cap : Capacity} {t : Ledger cap} (inv : t.Conserved) {host : Host}
    {fd now : Int} {o : Output} {image : FileImage}
    (recorded : Recorded t host topics fd now o image) :
    image.bytes = headerBytes host.createdAtNs topics ++
      ((t.accepted.map PushArgs.record).map recordBytes).flatten := by
  obtain ⟨fd_ok, header⟩ := openFile_file recorded.opened
  have length : t.popped.length = t.accepted.length := by
    simpa using congrArg List.length recorded.inOrder
  have records := inv.popped_records (by rw [recorded.inOrder, length])
  rw [length, List.take_of_length_le (by simp)] at records
  rw [recorded.file, writeRecords_file_of_written fd_ok recorded.written, header, ← records,
    List.map_map, List.map_map]
  rfl

/-- Whatever is pushed: the file is replayed up to the first push that does not conform. -/
theorem replaysUpTo_nonconforming (cap : Capacity) (ops : List Op) (host : Host)
    (topics : List TopicInfo) (distinct : (topics.map TopicInfo.topicId).Nodup) (fd now : Int)
    (o : Output) (image : FileImage)
    (recorded : Recorded (Ledger.after ops : Ledger cap) host topics fd now o image) :
    ReplaysUpTo topics ((Ledger.after ops : Ledger cap).accepted.map PushArgs.record) image :=
  replaysUpTo_of_written host.createdAtNs distinct
    (recorded.bytes (Ledger.conserved_of_run (Ledger.run_after ops)))

/-- A push of an empty payload. -/
def blankPush (topicId : UInt16) (stampNs : UInt64) : PushArgs := { stamped stampNs with topicId }

/-- Two conforming pushes, and one of an unknown topic between them. -/
def mixed : List Op :=
  [.push (blankPush 5 1), .push (blankPush 9 2), .pop {}, .pop {}, .push (blankPush 5 3), .pop {}]

def mixedPushes : List Record := [⟨5, 1, 0, 0, []⟩, ⟨9, 2, 0, 0, []⟩, ⟨5, 3, 0, 0, []⟩]

theorem accepted_mixed :
    (Ledger.after mixed : Ledger pair).accepted.map PushArgs.record = mixedPushes := by decide

def mixedImage : FileImage where
  bytes := headerBytes 0 twoTopics ++ (mixedPushes.map recordBytes).flatten
  size_lt := by decide +kernel

theorem recorded_mixed :
    Recorded (Ledger.after mixed : Ledger pair) byteByByte twoTopics 3 0 {} mixedImage := by
  have table := openFile_ok byteByByte_succeed twoTopics (show (0 : Int) ≤ 3 by decide) 0 {}
  obtain ⟨fd_ok, header⟩ := openFile_file table
  have written := allWritten_of_succeed byteByByte_succeed
    ((Ledger.after mixed : Ledger pair).popped.map Prod.snd) fd_ok
  refine ⟨by decide, table, written, ?_⟩
  rw [writeRecords_file_of_written fd_ok written, header]
  have popped : ((Ledger.after mixed : Ledger pair).popped.map Prod.snd).map
      (fun rec => recordBytes rec.record) = mixedPushes.map recordBytes := by decide
  rw [popped]
  rfl

theorem mixed_replaysUpTo : ReplaysUpTo twoTopics
    ((Ledger.after mixed : Ledger pair).accepted.map PushArgs.record) mixedImage :=
  replaysUpTo_nonconforming pair mixed byteByByte twoTopics (by decide) 3 0 {} mixedImage
    recorded_mixed

/-- The last push conforms, and is not replayed. -/
theorem mixed_not_contained :
    Recorded (Ledger.after mixed : Ledger pair) byteByByte twoTopics 3 0 {} mixedImage ∧
      ¬ Contained twoTopics ((Ledger.after mixed : Ledger pair).accepted.map PushArgs.record)
        mixedImage := by
  refine ⟨recorded_mixed, ?_⟩
  intro contained
  have conserved := Ledger.conserved_of_run (@Ledger.run_after pair mixed)
  have distinct : (twoTopics.map TopicInfo.topicId).Nodup := by decide
  obtain ⟨rest, upTo, ends, -⟩ := replaysUpTo_of_written 0 distinct
    (recorded_mixed.bytes conserved) (fun _ => []) 0
  obtain ⟨played, replays, sublist⟩ := contained (fun _ => []) 0
  have nothing : rest = [] := by
    apply ends
    rw [accepted_mixed]
    decide
  rw [nothing, accepted_mixed] at upTo
  obtain rfl := replays.unique upTo
  rw [accepted_mixed] at sublist
  exact absurd sublist.length_le (by decide)

end ChronoCap.Containment

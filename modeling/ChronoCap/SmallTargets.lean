/- module: ChronoCap/SmallTargets
   source: src/core/record_reader.cpp
   digest: The offset sums of the reader where a size_t has 32 bits: they compare with the file size
           as the true sums do exactly for the files whose sums all stay below 2^32. -/

import ChronoCap.FileGrammar
import ChronoCap.ReaderSafety

set_option autoImplicit false
set_option relaxedAutoImplicit false

namespace ChronoCap.SmallTargets

open ChronoCap.Foundation
open ChronoCap.WireFormat
open ChronoCap.RecordReader
open ChronoCap.ReaderSafety
open ChronoCap.FileGrammar (entryOffset)

/-! What the code relies on, at an offset of either loop. -/

/-- At an offset of a record loop both sums compare as they should. -/
structure Exact (F : List UInt8) (r : RecordReader) (off : Nat) : Prop where
  header : sizeAdd 32 off kRecordHeaderWireSize ≤ r.fileSize ↔
    off + kRecordHeaderWireSize ≤ F.length
  payload : ∀ hdr topic, sizeAdd 32 off kRecordHeaderWireSize ≤ r.fileSize →
    RecordHeader.deserialize (r.memory off) = some hdr → r.byId hdr.topicId = some topic →
      (sizeAdd 32 (sizeAdd 32 off kRecordHeaderWireSize) topic.wireSize.toNat > r.fileSize ↔
        off + kRecordHeaderWireSize + topic.wireSize.toNat > F.length)

/-- The sums are exact; what runs past the end is rejected; what is accepted leads on, within the
file. -/
structure GoodRound (F : List UInt8) (r : RecordReader) (round : RunState → Stop ⊕ RunState)
    (s : RunState) : Prop where
  exact : Exact F r s.offset
  rejects : ∀ hdr topic, RecordHeader.deserialize (r.memory s.offset) = some hdr →
    r.byId hdr.topicId = some topic →
    s.offset + kRecordHeaderWireSize + topic.wireSize.toNat > F.length → ∀ t, round s ≠ .inr t
  advances : ∀ t, round s = .inr t → s.offset < t.offset ∧ t.offset ≤ F.length

/-- A record loop from the start of the records on. -/
structure GoodLoop (F : List UInt8) (r : RecordReader) (round : RunState → Stop ⊕ RunState)
    (result : Option (Stop × RunState)) : Prop where
  visited : ∀ s, Loop.Visits round { offset := r.recordsStartOffset } s → GoodRound F r round s
  ends : ∃ stop t, result = some (stop, t)

/-- The table loop, for the count that the header declares. -/
structure GoodTable (F : List UInt8) (r : RecordReader) (beyond : Nat → List UInt8)
    (topicCount : UInt32) : Prop where
  visited : ∀ s, Loop.Visits (tableStep 32 beyond topicCount) { reader := r } s →
    s.i < topicCount → (sizeAdd 32 s.offset kTopicMetaWireSize > s.reader.fileSize ↔
      s.offset + kTopicMetaWireSize > F.length)
  advances : ∀ s t, Loop.Visits (tableStep 32 beyond topicCount) { reader := r } s →
    tableStep 32 beyond topicCount s = .inr t → s.offset < t.offset
  ends : ∃ answer final, Loop.iterate (tableStep 32 beyond topicCount) (topicCount.toNat + 1)
    { reader := r } = some (answer, final)

/-! The condition, on the file and the table. -/

/-- Where the records of the file begin, and the last of them ends, by exact arithmetic. -/
inductive Boundary (F : List UInt8) (r : RecordReader) : Nat → Prop where
  | start : Boundary F r r.recordsStartOffset
  | next {off : Nat} {topic : ResolvedTopic} (before : Boundary F r off)
      (header : off + kRecordHeaderWireSize ≤ F.length)
      (known : r.byId (u16At (F.drop off) 0) = some topic)
      (whole : off + kRecordHeaderWireSize + topic.wireSize.toNat ≤ F.length) :
      Boundary F r (off + kRecordHeaderWireSize + topic.wireSize.toNat)

/-- Both sums at an offset stay below `2 ^ 32`. -/
structure Small (F : List UInt8) (r : RecordReader) (off : Nat) : Prop where
  header : off + kRecordHeaderWireSize < 2 ^ 32
  payload : off + kRecordHeaderWireSize ≤ F.length →
    ∀ topic, r.byId (u16At (F.drop off) 0) = some topic →
      off + kRecordHeaderWireSize + topic.wireSize.toNat < 2 ^ 32

def SmallTable (F : List UInt8) (topicCount : UInt32) : Prop :=
  ∀ i < topicCount.toNat, entryOffset i ≤ F.length → entryOffset i + kTopicMetaWireSize < 2 ^ 32

variable {r : RecordReader} {F : List UInt8}

/-! The record loops. -/

/-- A wrapped sum is too small to be refused. -/
theorem exact_iff_small (sees : Sees r F) (size : F.length < 2 ^ 32) {off : Nat}
    (inside : off ≤ F.length) : Exact F r off ↔ Small F r off := by
  have bound : ∀ topic : ResolvedTopic, topic.wireSize.toNat < 2 ^ 32 := fun topic =>
    topic.wireSize.toNat_lt
  constructor
  · intro exact
    have header := exact.header
    rw [sees.fileSize] at header
    simp only [sizeAdd, kRecordHeaderWireSize] at header
    have small : off + kRecordHeaderWireSize < 2 ^ 32 := by
      simp only [kRecordHeaderWireSize]
      omega
    refine ⟨small, ?_⟩
    intro room topic known
    have sum : sizeAdd 32 off kRecordHeaderWireSize = off + kRecordHeaderWireSize :=
      Nat.mod_eq_of_lt small
    have payload := exact.payload
      ⟨u16At (F.drop off) 0, u64At (F.drop off) 2, u64At (F.drop off) 10⟩ topic
      (by rw [sum, sees.fileSize]; exact room)
      (by rw [sees.memory, RecordHeader.deserialize_of_le (by rw [List.length_drop]; omega)]) known
    rw [sum, sees.fileSize] at payload
    have := bound topic
    simp only [sizeAdd] at payload
    omega
  · intro small
    have sum : sizeAdd 32 off kRecordHeaderWireSize = off + kRecordHeaderWireSize :=
      Nat.mod_eq_of_lt small.header
    refine ⟨by rw [sum, sees.fileSize], ?_⟩
    intro hdr topic room read known
    rw [sum, sees.fileSize] at room
    rw [sees.memory, RecordHeader.deserialize_of_le (by rw [List.length_drop]; omega)] at read
    cases read
    have total : sizeAdd 32 (off + kRecordHeaderWireSize) topic.wireSize.toNat =
        off + kRecordHeaderWireSize + topic.wireSize.toNat :=
      Nat.mod_eq_of_lt (small.payload room topic known)
    rw [sum, total, sees.fileSize]

/-- Without a wrapped sum a record is accepted just where the file has a whole one. -/
theorem recordAt_of_small (sees : Sees r F) {off : Nat} (small : Small F r off) :
    (∀ c, recordAt 32 r off = .inr c → ∃ topic, off + kRecordHeaderWireSize ≤ F.length ∧
      r.byId (u16At (F.drop off) 0) = some topic ∧
      off + kRecordHeaderWireSize + topic.wireSize.toNat ≤ F.length ∧
      sizeAdd 32 c.payloadOffset c.payloadLen.toNat =
        off + kRecordHeaderWireSize + topic.wireSize.toNat) ∧
    ∀ topic, off + kRecordHeaderWireSize ≤ F.length →
      r.byId (u16At (F.drop off) 0) = some topic →
      off + kRecordHeaderWireSize + topic.wireSize.toNat ≤ F.length →
        ∃ c, recordAt 32 r off = .inr c ∧ sizeAdd 32 c.payloadOffset c.payloadLen.toNat =
          off + kRecordHeaderWireSize + topic.wireSize.toNat := by
  have sum : sizeAdd 32 off kRecordHeaderWireSize = off + kRecordHeaderWireSize :=
    Nat.mod_eq_of_lt small.header
  have total : off + kRecordHeaderWireSize ≤ F.length → ∀ topic,
      r.byId (u16At (F.drop off) 0) = some topic →
        sizeAdd 32 (off + kRecordHeaderWireSize) topic.wireSize.toNat =
          off + kRecordHeaderWireSize + topic.wireSize.toNat := by
    intro room topic known
    exact Nat.mod_eq_of_lt (small.payload room topic known)
  have read : off + kRecordHeaderWireSize ≤ F.length → RecordHeader.deserialize (r.memory off) =
      some ⟨u16At (F.drop off) 0, u64At (F.drop off) 2, u64At (F.drop off) 10⟩ := by
    intro room
    rw [sees.memory, RecordHeader.deserialize_of_le (by rw [List.length_drop]; omega)]
  constructor
  · intro c found
    obtain ⟨hdr, topic, room, decoded, known, whole, rfl⟩ := recordAt_eq_inr.mp found
    rw [sum, sees.fileSize] at room
    rw [read room] at decoded
    cases decoded
    rw [sum, total room topic known, sees.fileSize] at whole
    refine ⟨topic, room, known, whole, ?_⟩
    rw [sum, total room topic known]
  · intro topic room known whole
    refine ⟨⟨u16At (F.drop off) 0, u64At (F.drop off) 2, u64At (F.drop off) 10,
      sizeAdd 32 off kRecordHeaderWireSize, topic.wireSize⟩, ?_, ?_⟩
    · apply recordAt_eq_inr.mpr
      refine ⟨_, topic, ?_, read room, known, ?_, rfl⟩
      · rw [sum, sees.fileSize]
        exact room
      · rw [sum, total room topic known, sees.fileSize]
        exact whole
    · rw [sum, total room topic known]

theorem Boundary.inside (start : r.recordsStartOffset ≤ F.length) {off : Nat}
    (boundary : Boundary F r off) : off ≤ F.length := by
  cases boundary with
  | start => exact start
  | next _ _ _ whole => exact whole

section Walk

variable {now : UInt64} {withTiming : Bool}

theorem offset_walkStep {s t : RunState} {c : Callback}
    (played : t = (if withTiming then s.pace now c else s).play 32 c) :
    t.offset = sizeAdd 32 c.payloadOffset c.payloadLen.toNat := by
  rw [played]
  rfl

theorem goodRound_of_small (sees : Sees r F) (size : F.length < 2 ^ 32) {s : RunState}
    (inside : s.offset ≤ F.length) (small : Small F r s.offset) :
    GoodRound F r (walkStep 32 now withTiming r) s where
  exact := (exact_iff_small sees size inside).mpr small
  rejects hdr topic read known outside t step := by
    obtain ⟨c, found, -⟩ := walkStep_inr step
    obtain ⟨hdr', topic', room, read', known', whole, -⟩ := recordAt_eq_inr.mp found
    obtain rfl := Option.some.inj (read.symm.trans read')
    obtain rfl := Option.some.inj (known.symm.trans known')
    have exact := (exact_iff_small sees size inside).mpr small
    exact Nat.not_lt_of_le whole ((exact.payload hdr topic room read known).mpr outside)
  advances t step := by
    obtain ⟨c, found, played⟩ := walkStep_inr step
    obtain ⟨topic, -, -, whole, next⟩ := (recordAt_of_small sees small).1 c found
    rw [offset_walkStep played, next]
    simp only [kRecordHeaderWireSize] at whole ⊢
    omega

/-- Without a wrapped sum the loop gets to the boundaries of the file only. -/
theorem boundary_of_visits (sees : Sees r F) (all : ∀ off, Boundary F r off → Small F r off)
    {s : RunState} (visits : Loop.Visits (walkStep 32 now withTiming r)
      { offset := r.recordsStartOffset } s) : Boundary F r s.offset := by
  refine @Loop.Visits.invariant _ _ _ _ _ (fun s => Boundary F r s.offset) visits .start ?_
  intro s t boundary step
  obtain ⟨c, found, played⟩ := walkStep_inr step
  obtain ⟨topic, room, known, whole, next⟩ := (recordAt_of_small sees (all _ boundary)).1 c found
  rw [offset_walkStep played, next]
  exact boundary.next room known whole

/-- As long as the sums are exact, the loop gets to all of them. -/
theorem visits_of_boundary (sees : Sees r F) (size : F.length < 2 ^ 32)
    (start : r.recordsStartOffset ≤ F.length)
    (exact : ∀ s, Loop.Visits (walkStep 32 now withTiming r) { offset := r.recordsStartOffset } s →
      Exact F r s.offset) {off : Nat} (boundary : Boundary F r off) :
    ∃ s, Loop.Visits (walkStep 32 now withTiming r) { offset := r.recordsStartOffset } s ∧
      s.offset = off := by
  induction boundary with
  | start => exact ⟨_, .start, rfl⟩
  | next before room known whole ih =>
      obtain ⟨s, visits, rfl⟩ := ih
      have small := (exact_iff_small sees size (before.inside start)).mp (exact s visits)
      obtain ⟨c, found, next⟩ := (recordAt_of_small sees small).2 _ room known whole
      refine ⟨_, visits.again (by rw [walkStep_eq, found]; rfl), ?_⟩
      exact next

theorem goodLoop_iff (sees : Sees r F) (size : F.length < 2 ^ 32)
    (start : r.recordsStartOffset ≤ F.length) :
    GoodLoop F r (walkStep 32 now withTiming r) (walk 32 now withTiming r) ↔
      ∀ off, Boundary F r off → Small F r off := by
  constructor
  · intro good off boundary
    obtain ⟨s, visits, rfl⟩ := visits_of_boundary sees size start
      (fun s visits => (good.visited s visits).exact) boundary
    exact (exact_iff_small sees size (boundary.inside start)).mp (good.visited s visits).exact
  · intro all
    have round : ∀ s, Boundary F r s.offset → GoodRound F r (walkStep 32 now withTiming r) s :=
      fun s boundary => goodRound_of_small sees size (boundary.inside start) (all _ boundary)
    refine ⟨fun s visits => round s (boundary_of_visits sees all visits), ?_⟩
    have lower : ∀ s t : RunState, Boundary F r s.offset →
        walkStep 32 now withTiming r s = .inr t →
          Boundary F r t.offset ∧ F.length - t.offset < F.length - s.offset := by
      intro s t boundary step
      obtain ⟨c, found, played⟩ := walkStep_inr step
      obtain ⟨topic, room, known, whole, next⟩ :=
        (recordAt_of_small sees (all _ boundary)).1 c found
      obtain ⟨forward, there⟩ := (round s boundary).advances t step
      rw [offset_walkStep played, next] at forward there ⊢
      exact ⟨boundary.next room known whole, by omega⟩
    obtain ⟨stop, t, ended⟩ := Loop.iterate_ends (fun s : RunState => F.length - s.offset) lower
      (r.fileSize + 1) (s := { offset := r.recordsStartOffset }) .start
      (by rw [sees.fileSize]; omega)
    exact ⟨stop, t, ended⟩

end Walk

/-! The table loop. -/

/-- The loop is at an entry of the table, which begins in the file unless it is the first. -/
structure AtEntry (F : List UInt8) (s : TableState) : Prop where
  sees : Sees s.reader F
  offset : s.offset = entryOffset s.i.toNat
  inside : s.i.toNat = 0 ∨ s.offset ≤ F.length

section Table

variable {beyond : Nat → List UInt8} {topicCount : UInt32} {s t : TableState}

theorem more_of_step (step : tableStep 32 beyond topicCount s = .inr t) : s.i < topicCount := by
  by_contra done
  rw [tableStep, if_neg done] at step
  contradiction

theorem entryOffset_succ (i : Nat) : entryOffset (i + 1) = entryOffset i + kTopicMetaWireSize := by
  rw [entryOffset, entryOffset, Nat.mul_succ, Nat.add_assoc]

/-- The sum at an entry is small where the table says so. -/
theorem AtEntry.small (here : AtEntry F s) (small : SmallTable F topicCount)
    (more : s.i < topicCount) : s.offset + kTopicMetaWireSize < 2 ^ 32 := by
  have below : s.i.toNat < topicCount.toNat := UInt32.lt_iff_toNat_lt.mp more
  rw [here.offset]
  rcases here.inside with first | inside
  · rw [first]
    decide
  · exact small _ below (here.offset ▸ inside)

theorem AtEntry.next (here : AtEntry F s) (small : s.offset + kTopicMetaWireSize < 2 ^ 32)
    (step : tableStep 32 beyond topicCount s = .inr t) :
    AtEntry F t ∧ t.i.toNat = s.i.toNat + 1 ∧ s.offset < t.offset := by
  have more := more_of_step step
  have sum : sizeAdd 32 s.offset kTopicMetaWireSize = s.offset + kTopicMetaWireSize :=
    Nat.mod_eq_of_lt small
  have succ := toNat_succ_of_lt more
  rw [tableStep, if_pos more, sum, here.sees.fileSize] at step
  split at step
  · contradiction
  · rename_i room
    split at step
    · contradiction
    · cases step
      refine ⟨⟨here.sees.addTopic _, ?_, .inr (Nat.le_of_not_lt room)⟩, succ, ?_⟩
      · rw [succ, entryOffset_succ, here.offset]
      · exact Nat.lt_add_of_pos_right (by decide)

theorem AtEntry.goesOn (beyond : Nat → List UInt8) (here : AtEntry F s) (more : s.i < topicCount)
    (size : F.length < 2 ^ 32) (room : s.offset + kTopicMetaWireSize ≤ F.length) :
    ∃ t, tableStep 32 beyond topicCount s = .inr t := by
  have sum : sizeAdd 32 s.offset kTopicMetaWireSize = s.offset + kTopicMetaWireSize :=
    Nat.mod_eq_of_lt (by omega)
  have long : kTopicMetaWireSize ≤ (F.drop s.offset).length := by
    rw [List.length_drop]
    omega
  obtain ⟨entry, decoded, -⟩ := TopicMetaEntry.deserialize_of_le long
  rw [tableStep, if_pos more, sum, here.sees.fileSize, if_neg (Nat.not_lt_of_le room),
    here.sees.memory, decoded]
  exact ⟨_, rfl⟩

theorem atEntry_start (sees : Sees r F) : AtEntry F { reader := r } :=
  ⟨sees, rfl, .inl rfl⟩

theorem atEntry_of_visits (sees : Sees r F) (small : SmallTable F topicCount)
    (visits : Loop.Visits (tableStep 32 beyond topicCount) { reader := r } s) : AtEntry F s := by
  apply visits.invariant (atEntry_start sees)
  intro s t here step
  exact (here.next (here.small small (more_of_step step)) step).1

/-- The loop gets to every entry that begins in the file. -/
theorem visits_entry (beyond : Nat → List UInt8) (sees : Sees r F) (size : F.length < 2 ^ 32)
    (i : Nat) (below : i < topicCount.toNat) (inside : entryOffset i ≤ F.length) :
    ∃ s, Loop.Visits (tableStep 32 beyond topicCount) { reader := r } s ∧ AtEntry F s ∧
      s.i.toNat = i := by
  induction i with
  | zero => exact ⟨_, .start, atEntry_start sees, rfl⟩
  | succ i ih =>
      rw [entryOffset_succ] at inside
      obtain ⟨s, visits, here, index⟩ := ih (by omega) (by omega)
      have more : s.i < topicCount := by
        rw [UInt32.lt_iff_toNat_lt]
        omega
      have room : s.offset + kTopicMetaWireSize ≤ F.length := by
        rw [here.offset, index]
        exact inside
      obtain ⟨t, step⟩ := here.goesOn beyond more size room
      obtain ⟨there, next, -⟩ := here.next (by omega) step
      exact ⟨t, visits.again step, there, by omega⟩

theorem goodTable_iff (sees : Sees r F) (size : F.length < 2 ^ 32) :
    GoodTable F r beyond topicCount ↔ SmallTable F topicCount := by
  constructor
  · intro good i below inside
    obtain ⟨s, visits, here, rfl⟩ := visits_entry beyond sees size i below inside
    have exact := good.visited s visits (UInt32.lt_iff_toNat_lt.mpr below)
    rw [here.sees.fileSize, here.offset] at exact
    simp only [sizeAdd, kTopicMetaWireSize] at exact ⊢
    omega
  · intro small
    refine ⟨?_, ?_, ?_⟩
    · intro s visits more
      have here := atEntry_of_visits sees small visits
      have sum : sizeAdd 32 s.offset kTopicMetaWireSize = s.offset + kTopicMetaWireSize :=
        Nat.mod_eq_of_lt (here.small small more)
      rw [sum, here.sees.fileSize]
    · intro s t visits step
      have here := atEntry_of_visits sees small visits
      exact (here.next (here.small small (more_of_step step)) step).2.2
    · obtain ⟨final, ended⟩ := parseEntries_eq_iterate 32 beyond topicCount topicCount.toNat
        { reader := r } (Nat.zero_add _)
      exact ⟨_, final, ended⟩

end Table

/-- All three loops of a reader, for a table of `topicCount` entries. -/
structure GoodReader (F : List UInt8) (r : RecordReader) (beyond : Nat → List UInt8)
    (topicCount : UInt32) : Prop where
  table : GoodTable F r beyond topicCount
  run : ∀ now, GoodLoop F r (runStep 32 now r) (run 32 now r)
  walk : ∀ now withTiming,
    GoodLoop F r (walkStep 32 now withTiming r) (walk 32 now withTiming r)

/-- A reader of 32 bits that a successful Open has left sees its file. -/
theorem sees_of_small_open {σ : Type*} {beyond : Nat → List UInt8} {calls : OpenCalls}
    {hook : Option (σ → ResolvedTopic → Bool × σ)} {r₀ : RecordReader} {s s' : σ} {F : FileImage}
    (found : calls.file = some F) (size : F.bytes.length < 2 ^ 32)
    (opened : RecordReader.open 32 beyond calls hook r₀ s = some (true, r, s')) :
    Sees r F.bytes ∧ r.recordsStartOffset ≤ F.bytes.length := by
  obtain ⟨F', found', base, fileSize, start⟩ := open_true opened
  obtain rfl := Option.some.inj (found.symm.trans found')
  rw [Nat.mod_eq_of_lt size] at fileSize
  rw [fileSize, List.take_length] at base
  rw [fileSize] at start
  exact ⟨⟨fun off => by rw [RecordReader.memory, base, Option.getD_some], fileSize, F.size_lt⟩,
    start⟩

/-- The 32-bit sums are exact in every state that the loops get to, with all that follows from it,
just for the files and tables whose sums stay below `2 ^ 32`. -/
theorem goodReader_iff (F : List UInt8) (r : RecordReader) (sees : Sees r F)
    (size : F.length < 2 ^ 32) (start : r.recordsStartOffset ≤ F.length)
    (beyond : Nat → List UInt8) (topicCount : UInt32) :
    GoodReader F r beyond topicCount ↔
      SmallTable F topicCount ∧ ∀ off, Boundary F r off → Small F r off := by
  constructor
  · intro good
    exact ⟨(goodTable_iff sees size).mp good.table,
      (goodLoop_iff sees size start).mp (good.walk 0 false)⟩
  · rintro ⟨table, records⟩
    have walk := fun now withTiming =>
      (@goodLoop_iff r F now withTiming sees size start).mpr records
    refine ⟨(goodTable_iff sees size).mpr table, ?_, walk⟩
    intro now
    have timed := walk now true
    rwa [walkStep_timed, walk_timed] at timed

/-- A topic whose records are `2 ^ 32` bytes long with their headers, and one such header. -/
def hugeTopic : FileImage where
  bytes := (FileHeader.mk kFormatVersion 1 0).bytes ++ encodeU16 4 ++ encodeU32 0xFFFFFFEE ++
    List.replicate 32 0 ++ (RecordHeader.mk 4 0 0).bytes
  size_lt := by
    simp [kFileHeaderWireSize, kRecordHeaderWireSize]

/-- What Open makes of it. -/
def hugeReader : RecordReader where
  base := some hugeTopic.bytes
  fileSize := 88
  recordsStartOffset := 70
  topics := [⟨4, 0xFFFFFFEE, []⟩]
  byId := Function.update (fun _ => none) 4 (some ⟨4, 0xFFFFFFEE, []⟩)

theorem open_hugeTopic :
    RecordReader.open 32 (fun _ => []) { file := some hugeTopic } none {} () =
      some (true, hugeReader, ()) := by
  rfl

theorem recordAt_huge : recordAt 32 hugeReader 70 = .inr ⟨4, 0, 0, 88, 0xFFFFFFEE⟩ := by
  rfl

theorem sees_huge : Sees hugeReader hugeTopic.bytes :=
  (sees_of_small_open rfl (by decide) open_hugeTopic).1

/-- The equivalence for that reader. -/
theorem goodReader_iff_huge :
    GoodReader hugeTopic.bytes hugeReader (fun _ => []) 1 ↔
      SmallTable hugeTopic.bytes 1 ∧
        ∀ off, Boundary hugeTopic.bytes hugeReader off → Small hugeTopic.bytes hugeReader off :=
  goodReader_iff hugeTopic.bytes hugeReader sees_huge (by decide) (by decide) (fun _ => []) 1

/-- A round at the record plays it, beyond the end of the file, and stays where it is. -/
theorem runStep_huge (now : UInt64) {s : RunState} (here : s.offset = 70) :
    ∃ t, runStep 32 now hugeReader s = .inr t ∧ t.offset = 70 := by
  rw [runStep_eq, here, recordAt_huge]
  exact ⟨_, rfl, rfl⟩

/-- Run accepts the record that is not there, and never ends. -/
theorem huge_never_ends :
    hugeTopic.bytes.length = 88 ∧
      RecordReader.open 32 (fun _ => []) { file := some hugeTopic } none {} () =
        some (true, hugeReader, ()) ∧
      recordAt 32 hugeReader 70 = .inr ⟨4, 0, 0, 88, 0xFFFFFFEE⟩ ∧
      (∀ now fuel, runLoop 32 now hugeReader fuel { offset := 70 } = none) ∧
      ¬ GoodReader hugeTopic.bytes hugeReader (fun _ => []) 1 := by
  have forever : ∀ now fuel s, s.offset = 70 → runLoop 32 now hugeReader fuel s = none := by
    intro now fuel
    induction fuel with
    | zero => exact fun _ _ => rfl
    | succ fuel ih =>
        intro s here
        obtain ⟨t, step, there⟩ := runStep_huge now here
        rw [runLoop, step]
        exact ih t there
  refine ⟨by decide, open_hugeTopic, recordAt_huge, fun now fuel => forever now fuel _ rfl, ?_⟩
  intro good
  obtain ⟨stop, t, ended⟩ := (good.run 0).ends
  rw [run, show hugeReader.recordsStartOffset = 70 from rfl, forever _ _ _ rfl] at ended
  contradiction

end ChronoCap.SmallTargets

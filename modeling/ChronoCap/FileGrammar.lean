/- module: ChronoCap/FileGrammar
   source: src/core/record_reader.cpp
   digest: Open accepts exactly the files with a complete header and table, and Run plays them by
           the grammar; the topic names come out right if each is terminated in its field. -/

import ChronoCap.RecordGrammar

set_option autoImplicit false
set_option relaxedAutoImplicit false

namespace ChronoCap.FileGrammar

open ChronoCap.Foundation
open ChronoCap.Foundation.ByteStore
open ChronoCap.WireFormat
open ChronoCap.RecordReader
open ChronoCap.RecordGrammar

/-! The format of a file: header, table, record region. -/

def entryCount (F : List UInt8) : Nat := (u32At F 12).toNat

def entryOffset (i : Nat) : Nat := kFileHeaderWireSize + kTopicMetaWireSize * i

def nameField (F : List UInt8) (i : Nat) : List UInt8 := (F.drop (entryOffset i + 6)).take 32

/-- The decoding of a table entry; its name ends at the first NUL of its field, if any. -/
def tableEntry (F : List UInt8) (i : Nat) : ResolvedTopic where
  topicId := u16At F (entryOffset i)
  wireSize := u32At F (entryOffset i + 2)
  name := (nameField F i).takeWhile (· ≠ 0)

def table (F : List UInt8) : List ResolvedTopic := (List.range (entryCount F)).map (tableEntry F)

def recordsStart (F : List UInt8) : Nat := entryOffset (entryCount F)

structure WellFormed (F : List UInt8) : Prop where
  header : kFileHeaderWireSize ≤ F.length
  magic : F.take 8 = kMagic
  version : u32At F 8 = kFormatVersion
  table : recordsStart F ≤ F.length

theorem WellFormed.nonempty {F : List UInt8} (wf : WellFormed F) : F ≠ [] := by
  rintro rfl
  exact absurd wf.header (by decide)

/-- Every name ends within its 32 bytes. -/
def NamesTerminated (F : List UInt8) : Prop := ∀ i < entryCount F, 0 ∈ nameField F i

instance (F : List UInt8) : Decidable (NamesTerminated F) :=
  inferInstanceAs (Decidable (∀ i < entryCount F, 0 ∈ nameField F i))

/-! The table as the parser reads it, which scans each name past its field if need be. -/

def readEntry (beyond : Nat → List UInt8) (F : List UInt8) (i : Nat) : ResolvedTopic :=
  { tableEntry F i with name := cString (nameField F i) (beyond i) }

def readTable (beyond : Nat → List UInt8) (F : List UInt8) : List ResolvedTopic :=
  (List.range (entryCount F)).map (readEntry beyond F)

theorem readEntry_of_terminated (beyond : Nat → List UInt8) {F : List UInt8} {i : Nat}
    (nul : 0 ∈ nameField F i) : readEntry beyond F i = tableEntry F i := by
  rw [readEntry, cString_of_nul _ nul]
  rfl

theorem readTable_of_terminated (beyond : Nat → List UInt8) {F : List UInt8}
    (nul : NamesTerminated F) : readTable beyond F = table F := by
  apply List.map_congr_left
  intro i hi
  exact readEntry_of_terminated beyond (nul i (List.mem_range.mp hi))

/-- A name without NUL takes up the byte behind its field, whatever that is. -/
theorem name_overread {F : List UInt8} {i : Nat} (unterminated : 0 ∉ nameField F i) (b : UInt8)
    (nonzero : b ≠ 0) :
    (readEntry (fun _ => [b]) F i).name = (nameField F i) ++ [b] := by
  change cString (nameField F i) [b] = _
  rw [cString_of_no_nul _ unterminated]
  simp [nonzero]

/-- The parser finds the table of the format, whatever lies behind its local buffer, exactly if
every name is terminated. -/
theorem readTable_eq_table_iff (F : List UInt8) :
    (∀ beyond, readTable beyond F = table F) ↔ NamesTerminated F := by
  constructor
  · intro same i hi
    by_contra unterminated
    have entry : readEntry (fun _ => [1]) F i = tableEntry F i :=
      List.map_inj_left.mp (same (fun _ => [1])) i (List.mem_range.mpr hi)
    have length := congrArg (fun t => t.name.length) entry
    have shorter :=
      (List.takeWhile_prefix (fun b => b ≠ (0 : UInt8)) (l := nameField F i)).length_le
    simp only [name_overread unterminated 1 (by decide), List.length_append,
      List.length_singleton] at length
    change (nameField F i).length + 1 = ((nameField F i).takeWhile (· ≠ 0)).length at length
    omega
  · intro nul beyond
    exact readTable_of_terminated beyond nul

/-- Sizes do not depend on names: the records are framed alike. -/
theorem records_readTable (beyond : Nat → List UInt8) (F : List UInt8) (start : Nat)
    (region : List UInt8) :
    parse (readTable beyond F) start region = parse (table F) start region := by
  have entry : ∀ id, (lastEntry (readTable beyond F) id).map ResolvedTopic.wireSize =
      (lastEntry (table F) id).map ResolvedTopic.wireSize := by
    intro id
    unfold lastEntry readTable table
    rw [List.filter_map, List.filter_map, List.getLast?_map, List.getLast?_map, Option.map_map,
      Option.map_map]
    rfl
  have size : recordSize (readTable beyond F) = recordSize (table F) := by
    funext bs
    unfold recordSize
    split
    · rfl
    · have same := congrArg (Option.map (fun n => kRecordHeaderWireSize + UInt32.toNat n))
        (entry (u16At bs 0))
      rwa [Option.map_map, Option.map_map] at same
  have framing : records (readTable beyond F) = records (table F) := by
    unfold records
    simp only [size]
  rw [parse, parse, framing]

/-! The table loop. -/

theorem lastEntry_append (topics : List ResolvedTopic) (t : ResolvedTopic) :
    Function.update (lastEntry topics) t.topicId (some t) = lastEntry (topics ++ [t]) := by
  funext id
  rw [Function.update_apply, lastEntry, lastEntry, List.filter_append]
  by_cases same : id = t.topicId
  · simp [same]
  · simp [same, Ne.symm same]

theorem Mapped.addTopic {r : RecordReader} {F : List UInt8} (mapped : Mapped r F)
    (t : ResolvedTopic) : Mapped (r.addTopic t) F where
  base := mapped.base
  fileSize := mapped.fileSize
  size_lt := mapped.size_lt
  byId := by
    change Function.update r.byId t.topicId (some t) = lastEntry (r.topics ++ [t])
    rw [mapped.byId, lastEntry_append]

theorem u16At_drop (F : List UInt8) (off k : Nat) : u16At (F.drop off) k = u16At F (off + k) := by
  rw [u16At, u16At, List.drop_drop]

theorem u32At_drop (F : List UInt8) (off k : Nat) : u32At (F.drop off) k = u32At F (off + k) := by
  rw [u32At, u32At, List.drop_drop]

theorem parseEntries_spec (beyond : Nat → List UInt8) {F : List UInt8} (n : Nat) {i : Nat}
    {r : RecordReader} (mapped : Mapped r F) (inside : entryOffset i ≤ F.length) :
    ∃ ok t, parseEntries 64 beyond n i (entryOffset i) r = some (ok, t) ∧
      (ok = true ↔ entryOffset (i + n) ≤ F.length) ∧
      (ok = true → Mapped t F ∧ t.recordsStartOffset = entryOffset (i + n) ∧
        t.topics = r.topics ++ (List.range' i n).map (readEntry beyond F)) := by
  induction n generalizing i r with
  | zero =>
      refine ⟨true, _, rfl, by simpa using inside, ?_⟩
      intro _
      exact ⟨⟨mapped.base, mapped.fileSize, mapped.size_lt, mapped.byId⟩, rfl, by simp⟩
  | succ n ih =>
      have next : entryOffset i + kTopicMetaWireSize = entryOffset (i + 1) := by
        simp only [entryOffset, kTopicMetaWireSize]
        omega
      have sum : sizeAdd 64 (entryOffset i) kTopicMetaWireSize = entryOffset (i + 1) := by
        rw [sizeAdd_of_lt, next]
        have := mapped.size_lt
        simp only [kTopicMetaWireSize]
        omega
      rw [parseEntries, sum, mapped.fileSize, mapped.memory]
      by_cases cut : entryOffset (i + 1) > F.length
      · refine ⟨false, r, if_pos cut, ?_, by simp⟩
        simp only [Bool.false_eq_true, false_iff, entryOffset] at cut ⊢
        have := Nat.le_mul_of_pos_right kTopicMetaWireSize (show 0 < n + 1 by omega)
        rw [Nat.mul_add] at cut ⊢
        omega
      · have long : kTopicMetaWireSize ≤ (F.drop (entryOffset i)).length := by
          rw [List.length_drop]
          omega
        obtain ⟨d, decoded, id, size, name⟩ := TopicMetaEntry.deserialize_of_le long
        have entry : resolve (beyond i) d = readEntry beyond F i := by
          rw [u16At_drop] at id
          rw [u32At_drop] at size
          rw [List.drop_drop] at name
          simp only [resolve, readEntry, tableEntry, nameField, id, size, name]
          rfl
        rw [if_neg cut, decoded]
        obtain ⟨ok, t, loop, accepts, result⟩ :=
          ih (Mapped.addTopic mapped (readEntry beyond F i)) (Nat.le_of_not_lt cut)
        refine ⟨ok, t, ?_, ?_, ?_⟩
        · change parseEntries 64 beyond n (i + 1) (entryOffset (i + 1))
            (r.addTopic (resolve (beyond i) d)) = _
          rw [entry]
          exact loop
        · rw [accepts, Nat.add_assoc, Nat.add_comm 1 n]
        · intro hok
          obtain ⟨mapped, start, topics⟩ := result hok
          refine ⟨mapped, by rw [start, Nat.add_assoc, Nat.add_comm 1 n], ?_⟩
          rw [topics, List.range'_succ, List.map_cons]
          simp [RecordReader.addTopic]

/-- Parsing a mapped file accepts what is well formed, and then its table has been appended. -/
theorem parseHeaderAndMetadata_spec (beyond : Nat → List UInt8) {F : List UInt8}
    {r : RecordReader} (mapped : Mapped r F) :
    ∃ ok t, parseHeaderAndMetadata 64 beyond r = some (ok, t) ∧ (ok = true ↔ WellFormed F) ∧
      (ok = true → Mapped t F ∧ t.recordsStartOffset = recordsStart F ∧
        t.topics = r.topics ++ readTable beyond F) := by
  unfold parseHeaderAndMetadata
  rw [mapped.fileSize, mapped.memory, List.drop_zero]
  split
  · rename_i small
    exact ⟨false, r, rfl, by simpa using fun wf => absurd wf.header (by omega), by simp⟩
  · rename_i large
    rw [FileHeader.deserialize_of_le (by omega)]
    by_cases magic : F.take 8 = kMagic
    · rw [if_pos magic]
      dsimp only
      by_cases version : u32At F 8 = kFormatVersion
      · rw [if_neg (by simpa using version)]
        obtain ⟨ok, t, loop, accepts, result⟩ := parseEntries_spec beyond
          (u32At F 12).toNat mapped (i := 0) (by simp only [entryOffset]; omega)
        rw [Nat.zero_add] at accepts result
        refine ⟨ok, t, loop, ?_, ?_⟩
        · rw [accepts]
          exact ⟨fun h => ⟨by omega, magic, version, h⟩, WellFormed.table⟩
        · intro hok
          obtain ⟨mapped, start, topics⟩ := result hok
          refine ⟨mapped, start, ?_⟩
          rw [topics, ← List.range_eq_range']
          rfl
      · rw [if_pos version]
        exact ⟨false, r, rfl, by simpa using fun wf => absurd wf.version version, by simp⟩
    · rw [if_neg magic]
      exact ⟨false, r, rfl, by simpa using fun wf => absurd wf.magic magic, by simp⟩

/-- A fresh reader opens a file: without a hook it accepts what is well formed, and with one it
asks about the entries in order; either way it then has the file mapped. -/
theorem open_spec {σ : Type*} (beyond : Nat → List UInt8) {F : FileImage} (nonempty : F.bytes ≠ [])
    (hook : Option (σ → ResolvedTopic → Bool × σ)) (s : σ) :
    ∃ ok r s', RecordReader.open 64 beyond { file := some F } hook {} s = some (ok, r, s') ∧
      (ok = true → WellFormed F.bytes ∧ Mapped r F.bytes ∧
        r.recordsStartOffset = recordsStart F.bytes ∧ r.topics = readTable beyond F.bytes) ∧
      (WellFormed F.bytes → (ok, s') = match hook with
        | none => (true, s)
        | some hook => askHook hook (readTable beyond F.bytes) s) := by
  have some_bytes : F.bytes.length ≠ 0 := by simpa using nonempty
  unfold RecordReader.open
  simp only [F.size_mod, List.take_length, Bool.true_eq_false, some_bytes, or_self, if_false]
  have mapped : Mapped
      { ({ } : RecordReader) with fileSize := F.bytes.length, base := some F.bytes } F.bytes :=
    ⟨rfl, rfl, F.size_lt, rfl⟩
  obtain ⟨ok, t, parsed, accepts, result⟩ := parseHeaderAndMetadata_spec beyond mapped
  rw [parsed]
  cases ok with
  | false =>
      refine ⟨false, t, s, rfl, by simp, ?_⟩
      intro wf
      exact absurd (accepts.mpr wf) (by decide)
  | true =>
      obtain ⟨mapped, start, topics⟩ := result rfl
      replace topics : t.topics = readTable beyond F.bytes := topics
      have wf := accepts.mp rfl
      cases hook with
      | none => exact ⟨true, t, s, rfl, fun _ => ⟨wf, mapped, start, topics⟩, fun _ => rfl⟩
      | some hook =>
          refine ⟨_, t, _, rfl, fun _ => ⟨wf, mapped, start, topics⟩, ?_⟩
          intro _
          rw [topics]

/-- A mapping of no bytes is refused. -/
theorem open_empty {σ : Type*} (beyond : Nat → List UInt8) {F : FileImage} (empty : F.bytes = [])
    (hook : Option (σ → ResolvedTopic → Bool × σ)) (s : σ) :
    ∃ r, RecordReader.open 64 beyond { file := some F } hook {} s = some (false, r, s) := by
  obtain ⟨bytes, _⟩ := F
  change bytes = [] at empty
  subst empty
  exact ⟨_, rfl⟩

/-- What Run does with the reader that Open leaves behind: it plays the file by the grammar. -/
theorem open_then_run {σ : Type*} (beyond : Nat → List UInt8) (now : UInt64) {F : FileImage}
    (nonempty : F.bytes ≠ []) (hook : Option (σ → ResolvedTopic → Bool × σ)) (s : σ) :
    ∃ ok r s', RecordReader.open 64 beyond { file := some F } hook {} s = some (ok, r, s') ∧
      (ok = true → WellFormed F.bytes ∧ Mapped r F.bytes ∧ r.topics = readTable beyond F.bytes ∧
        ∃ stop t, run 64 now r = some (stop, t) ∧ stop ≠ .fault ∧
          t.callbacks = parse r.topics (recordsStart F.bytes)
            (F.bytes.drop (recordsStart F.bytes))) ∧
      (WellFormed F.bytes → (ok, s') = match hook with
        | none => (true, s)
        | some hook => askHook hook (readTable beyond F.bytes) s) := by
  obtain ⟨ok, r, s', opened, accepted, answer⟩ := open_spec beyond nonempty hook s
  refine ⟨ok, r, s', opened, ?_, answer⟩
  intro hok
  obtain ⟨wf, mapped, start, topics⟩ := accepted hok
  have inside : r.recordsStartOffset ≤ F.bytes.length := by
    rw [start]
    exact wf.table
  obtain ⟨stop, t, ran, ok, callbacks⟩ := run_spec mapped now inside
  rw [start] at callbacks
  exact ⟨wf, mapped, topics, stop, t, ran, ok, callbacks⟩

/-- Without a hook, Open accepts exactly the well-formed files, and Run plays them. -/
theorem open_run_spec (beyond : Nat → List UInt8) (now : UInt64) {F : FileImage}
    (nonempty : F.bytes ≠ []) :
    ∃ ok r, RecordReader.open 64 beyond { file := some F } none {} () = some (ok, r, ()) ∧
      (ok = true ↔ WellFormed F.bytes) ∧
      (ok = true → Mapped r F.bytes ∧ r.topics = readTable beyond F.bytes ∧
        ∃ stop t, run 64 now r = some (stop, t) ∧ stop ≠ .fault ∧
          t.callbacks = parse (table F.bytes) (recordsStart F.bytes)
            (F.bytes.drop (recordsStart F.bytes))) := by
  obtain ⟨ok, r, ⟨⟩, opened, accepted, answer⟩ := open_then_run beyond now nonempty none ()
  refine ⟨ok, r, opened, ⟨fun h => (accepted h).1, fun wf => congrArg Prod.fst (answer wf)⟩, ?_⟩
  intro hok
  obtain ⟨-, mapped, topics, stop, t, ran, ok, callbacks⟩ := accepted hok
  rw [topics, records_readTable] at callbacks
  exact ⟨mapped, topics, stop, t, ran, ok, callbacks⟩

/-- What a fresh reader should make of a file: it accepts it if it is well formed, and then holds
its table and plays its records. -/
def ReadsFormat (F : FileImage) (beyond : Nat → List UInt8) (now : UInt64) : Prop :=
  ∃ ok r, RecordReader.open 64 beyond { file := some F } none {} () = some (ok, r, ()) ∧
    (ok = true ↔ WellFormed F.bytes) ∧
    (ok = true → r.topics = table F.bytes ∧
      ∃ stop t, run 64 now r = some (stop, t) ∧
        t.callbacks = parse (table F.bytes) (recordsStart F.bytes)
          (F.bytes.drop (recordsStart F.bytes)))

theorem ReadsFormat.readTable_eq {F : FileImage} {beyond : Nat → List UInt8} {now : UInt64}
    (reads : ReadsFormat F beyond now) (nonempty : F.bytes ≠ []) (wf : WellFormed F.bytes) :
    readTable beyond F.bytes = table F.bytes := by
  obtain ⟨ok, r, opened, accepts, result⟩ := reads
  obtain ⟨ok', r', opened', -, result'⟩ := open_run_spec beyond now nonempty
  rw [opened] at opened'
  obtain ⟨rfl, rfl⟩ : ok = ok' ∧ r = r' := by simpa using opened'
  have hok := accepts.mpr wf
  rw [← (result' hok).2.1, (result hok).1]

/-- The reader makes of a file what the format says, whatever lies behind its local buffers,
exactly if a well-formed file terminates each name within its field. -/
theorem readsFormat_iff (F : FileImage) (nonempty : F.bytes ≠ []) :
    (∀ beyond now, ReadsFormat F beyond now) ↔
      (WellFormed F.bytes → NamesTerminated F.bytes) := by
  constructor
  · intro reads wf
    rw [← readTable_eq_table_iff]
    intro beyond
    exact (reads beyond 0).readTable_eq nonempty wf
  · intro terminated beyond now
    obtain ⟨ok, r, opened, accepts, result⟩ := open_run_spec beyond now nonempty
    refine ⟨ok, r, opened, accepts, ?_⟩
    intro hok
    obtain ⟨-, topics, stop, t, ran, -, callbacks⟩ := result hok
    refine ⟨?_, stop, t, ran, callbacks⟩
    rw [topics]
    exact readTable_of_terminated beyond (terminated (accepts.mp hok))

/-- A file with one topic and no records, whose name field is 31 letters and the byte `last`. -/
def oneTopicFile (last : UInt8) : FileImage where
  bytes := (FileHeader.mk kFormatVersion 1 0).bytes ++ encodeU16 4 ++ encodeU32 22 ++
    List.replicate 31 0x41 ++ [last]
  size_lt := by
    simp [kFileHeaderWireSize]

/-- With a NUL there the file is read as the format says. -/
theorem readsFormat_terminated :
    WellFormed (oneTopicFile 0).bytes ∧ ∀ beyond now, ReadsFormat (oneTopicFile 0) beyond now :=
  ⟨⟨by decide, by decide, by decide, by decide⟩,
    (readsFormat_iff (oneTopicFile 0) (by decide)).mpr (fun _ => by decide)⟩

theorem wellFormed_oneTopicFile : WellFormed (oneTopicFile 0x41).bytes :=
  ⟨by decide, by decide, by decide, by decide⟩

/-- With 32 letters the name runs on into whatever follows the local buffer. -/
theorem not_readsFormat_unterminated :
    ¬ ∀ beyond now, ReadsFormat (oneTopicFile 0x41) beyond now := by
  intro reads
  have same := (reads (fun _ => [0x42]) 0).readTable_eq (by decide) wellFormed_oneTopicFile
  exact absurd same (by decide)

end ChronoCap.FileGrammar

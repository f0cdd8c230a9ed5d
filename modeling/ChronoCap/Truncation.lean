/- module: ChronoCap/Truncation
   source: src/core/record_reader.cpp, readme.md
   digest: A recording cut short in its record region replays the records that are still whole,
           and only those. -/

import ChronoCap.FileGrammar

set_option autoImplicit false
set_option relaxedAutoImplicit false

namespace ChronoCap.Truncation

open ChronoCap.Foundation
open ChronoCap.Foundation.ByteStore
open ChronoCap.WireFormat
open ChronoCap.RecordReader
open ChronoCap.RecordGrammar
open ChronoCap.FileGrammar

/-- What a crash leaves of a file: its first `n` bytes. -/
def cut (F : FileImage) (n : Nat) : FileImage where
  bytes := F.bytes.take n
  size_lt := by
    have := F.size_lt
    rw [List.length_take]
    omega

/-- A fresh reader opens the file, without a hook. -/
def Accepted (F : FileImage) : Prop :=
  ∃ beyond r, RecordReader.open 64 beyond { file := some F } none {} () = some (true, r, ())

theorem accepted_iff (F : FileImage) : Accepted F ↔ WellFormed F.bytes := by
  constructor
  · rintro ⟨beyond, r, opened⟩
    have nonempty : F.bytes ≠ [] := by
      intro empty
      simp [RecordReader.open, empty] at opened
    obtain ⟨ok, r', opened', accepts, -⟩ := open_run_spec beyond 0 nonempty
    rw [opened] at opened'
    obtain ⟨rfl, -⟩ : true = ok ∧ r = r' := by simpa using opened'
    exact accepts.mp rfl
  · intro wf
    obtain ⟨ok, r, opened, accepts, -⟩ := open_run_spec (fun _ => []) 0 wf.nonempty
    rw [accepts.mpr wf] at opened
    exact ⟨_, r, opened⟩

section Header

variable {F : List UInt8} {n : Nat}

theorem entryCount_take (h : kFileHeaderWireSize ≤ n) : entryCount (F.take n) = entryCount F := by
  rw [entryCount, u32At_take F (Nat.le_trans (by decide) h), entryCount]

theorem recordsStart_take (h : kFileHeaderWireSize ≤ n) :
    recordsStart (F.take n) = recordsStart F := by
  rw [recordsStart, entryCount_take h, recordsStart]

theorem header_le_recordsStart (F : List UInt8) : kFileHeaderWireSize ≤ recordsStart F :=
  Nat.le_add_right _ _

theorem entry_le_recordsStart {i : Nat} (hi : i < entryCount F) :
    entryOffset i + kTopicMetaWireSize ≤ recordsStart F := by
  have := Nat.mul_le_mul_left kTopicMetaWireSize hi
  rw [Nat.mul_succ] at this
  simp only [recordsStart, entryOffset]
  omega

/-- A cut behind the table leaves every entry as it was. -/
theorem readTable_take (beyond : Nat → List UInt8) (h : recordsStart F ≤ n) :
    readTable beyond (F.take n) = readTable beyond F := by
  have header := header_le_recordsStart F
  rw [readTable, entryCount_take (by omega)]
  apply List.map_congr_left
  intro i hi
  have entry := entry_le_recordsStart (List.mem_range.mp hi)
  simp only [kTopicMetaWireSize] at entry
  have field : nameField (F.take n) i = nameField F i := by
    rw [nameField, List.drop_take, List.take_take, Nat.min_eq_left (by omega), nameField]
  simp only [readEntry, tableEntry, field, u16At_take F (show entryOffset i + 2 ≤ n by omega),
    u32At_take F (show entryOffset i + 2 + 4 ≤ n by omega)]

theorem wellFormed_take (wf : WellFormed F) (h : recordsStart F ≤ n) : WellFormed (F.take n) := by
  have header := header_le_recordsStart F
  have inside := wf.table
  have eight : 8 ≤ n := Nat.le_trans (by decide) (Nat.le_trans header h)
  refine ⟨?_, ?_, ?_, ?_⟩
  · rw [List.length_take]
    omega
  · rw [List.take_take, Nat.min_eq_left eight]
    exact wf.magic
  · rw [u32At_take F (Nat.le_trans (by decide) (Nat.le_trans header h))]
    exact wf.version
  · rw [recordsStart_take (by omega), List.length_take]
    omega

end Header

/-- A callback ends where its frame does. -/
theorem callback_end {topics : List ResolvedTopic} {x : Nat × List UInt8}
    (frame : (records topics).IsFrame x.2) :
    (frameCallback x).payloadOffset + (frameCallback x).payloadLen.toNat = x.1 + x.2.length := by
  have header := frame.header_le
  change kRecordHeaderWireSize ≤ x.2.length at header
  have size : recordSize topics x.2 = some x.2.length := frame
  rw [recordSize, if_neg (by omega)] at size
  obtain ⟨t, -, length⟩ := Option.map_eq_some_iff.mp size
  have := t.wireSize.toNat_lt
  simp only [frameCallback, UInt32.toNat_ofNat']
  omega

/-- Cutting the record region keeps the callbacks that end within it. -/
theorem parse_take (topics : List ResolvedTopic) (start k : Nat) (region : List UInt8) :
    parse topics start (region.take k) = (parse topics start region).filter
      (fun c => c.payloadOffset + c.payloadLen.toNat ≤ start + k) := by
  rw [parse, Framing.frames_take, Framing.located_upTo, parse, List.filter_map]
  congr 1
  apply List.filter_congr
  intro x hx
  obtain ⟨frame, -⟩ := Framing.located_frames hx
  simp only [Function.comp_apply, callback_end frame]

theorem parse_take_prefix (topics : List ResolvedTopic) (start k : Nat) (region : List UInt8) :
    parse topics start (region.take k) <+: parse topics start region := by
  rw [parse, Framing.frames_take, parse]
  exact (Framing.located_prefix_upTo start k _).map frameCallback

/-- The law for one cut: the shorter file opens with the same topics, and replays the records of
the longer one that end before the cut. -/
def CutsCleanly (F : FileImage) : Prop :=
  ∀ n, recordsStart F.bytes ≤ n → n ≤ F.bytes.length → ∀ beyond beyond' now now',
    ∃ r r', RecordReader.open 64 beyond { file := some F } none {} () = some (true, r, ()) ∧
      RecordReader.open 64 beyond' { file := some (cut F n) } none {} () = some (true, r', ()) ∧
      r'.topics = r.topics ∧
      ∃ stop t stop' t', run 64 now r = some (stop, t) ∧ run 64 now' r' = some (stop', t') ∧
        t'.callbacks = t.callbacks.filter
          (fun c => c.payloadOffset + c.payloadLen.toNat ≤ n) ∧
        t'.callbacks <+: t.callbacks ∧
        ∀ c ∈ t'.callbacks, r'.payload c = r.payload c

/-- Apart from the names, the law holds of every file that opens. -/
theorem cut_spec {F : FileImage} (wf : WellFormed F.bytes) {n : Nat}
    (behind : recordsStart F.bytes ≤ n) (beyond beyond' : Nat → List UInt8) (now now' : UInt64) :
    ∃ r r', RecordReader.open 64 beyond { file := some F } none {} () = some (true, r, ()) ∧
      RecordReader.open 64 beyond' { file := some (cut F n) } none {} () = some (true, r', ()) ∧
      r.topics = readTable beyond F.bytes ∧ r'.topics = readTable beyond' F.bytes ∧
      ∃ stop t stop' t', run 64 now r = some (stop, t) ∧ run 64 now' r' = some (stop', t') ∧
        t'.callbacks = t.callbacks.filter
          (fun c => c.payloadOffset + c.payloadLen.toNat ≤ n) ∧
        t'.callbacks <+: t.callbacks ∧
        ∀ c ∈ t'.callbacks, r'.payload c = r.payload c := by
  have header := header_le_recordsStart F.bytes
  have wf' : WellFormed (cut F n).bytes := wellFormed_take wf behind
  obtain ⟨ok, r, opened, accepts, result⟩ := open_run_spec beyond now wf.nonempty
  obtain ⟨ok', r', opened', accepts', result'⟩ := open_run_spec beyond' now' wf'.nonempty
  obtain rfl := accepts.mpr wf
  obtain rfl := accepts'.mpr wf'
  obtain ⟨mapped, topics, stop, t, ran, -, callbacks⟩ := result rfl
  obtain ⟨mapped', topics', stop', t', ran', -, callbacks'⟩ := result' rfl
  have region : (cut F n).bytes.drop (recordsStart (cut F n).bytes) =
      (F.bytes.drop (recordsStart F.bytes)).take (n - recordsStart F.bytes) := by
    change (F.bytes.take n).drop (recordsStart (F.bytes.take n)) = _
    rw [recordsStart_take (by omega), List.drop_take]
  have same_table : ∀ start region, parse (table (cut F n).bytes) start region =
      parse (table F.bytes) start region := by
    intro start region
    rw [← records_readTable beyond, ← records_readTable beyond]
    exact congrArg (fun ts => parse ts start region) (readTable_take beyond behind)
  have start : recordsStart (cut F n).bytes = recordsStart F.bytes :=
    recordsStart_take (by omega)
  rw [region, same_table, start] at callbacks'
  refine ⟨r, r', opened, opened', topics, ?_, stop, t, stop', t', ran, ran', ?_, ?_, ?_⟩
  · rw [topics']
    exact readTable_take beyond' behind
  · rw [callbacks', callbacks, parse_take, Nat.add_sub_cancel' behind]
  · rw [callbacks', callbacks]
    exact parse_take_prefix _ _ _ _
  · intro c hc
    rw [callbacks', parse_take, Nat.add_sub_cancel' behind] at hc
    have ends := of_decide_eq_true (List.mem_filter.mp hc).2
    rw [payload, payload, mapped'.memory, mapped.memory]
    change ((F.bytes.take n).drop _).take _ = _
    rw [List.drop_take, List.take_take, Nat.min_eq_left (by omega)]

/-- Two fresh readers can disagree on a name that no NUL ends. -/
theorem CutsCleanly.terminated {F : FileImage} (clean : CutsCleanly F) (wf : WellFormed F.bytes) :
    NamesTerminated F.bytes := by
  intro i hi
  by_contra unterminated
  obtain ⟨r, r', opened, opened', same, -⟩ :=
    clean F.bytes.length wf.table (Nat.le_refl _) (fun _ => [1]) (fun _ => [2]) 0 0
  obtain ⟨s, s', reopened, reopened', topics, topics', -⟩ :=
    cut_spec wf wf.table (fun _ => [1]) (fun _ => [2]) 0 0
  rw [opened] at reopened
  rw [opened'] at reopened'
  obtain rfl : r = s := by simpa using reopened
  obtain rfl : r' = s' := by simpa using reopened'
  rw [topics, topics'] at same
  have entry := List.map_inj_left.mp same i (List.mem_range.mpr hi)
  have name := congrArg ResolvedTopic.name entry
  rw [name_overread unterminated 2 (by decide), name_overread unterminated 1 (by decide)] at name
  exact absurd (List.append_cancel_left name) (by decide)

/-- The law holds of a file that opens, whatever lies behind the local buffers of the two readers,
exactly if each name is terminated within its field. -/
theorem cutsCleanly_iff (F : FileImage) (accepted : Accepted F) :
    CutsCleanly F ↔ NamesTerminated F.bytes := by
  have wf := (accepted_iff F).mp accepted
  constructor
  · intro clean
    exact clean.terminated wf
  · intro terminated n behind _ beyond beyond' now now'
    obtain ⟨r, r', opened, opened', topics, topics', replay⟩ :=
      cut_spec wf behind beyond beyond' now now'
    refine ⟨r, r', opened, opened', ?_, replay⟩
    rw [topics, topics', readTable_of_terminated beyond' terminated,
      readTable_of_terminated beyond terminated]

/-- A file whose only name is terminated can be cut anywhere behind its table. -/
theorem cutsCleanly_terminated : CutsCleanly (oneTopicFile 0) :=
  (cutsCleanly_iff (oneTopicFile 0)
    ((accepted_iff _).mpr ⟨by decide, by decide, by decide, by decide⟩)).mpr (by decide)

/-- One whose name fills its field has not even the same topics when it is opened again. -/
theorem not_cutsCleanly_unterminated : ¬ CutsCleanly (oneTopicFile 0x41) := by
  intro clean
  exact absurd (clean.terminated wellFormed_oneTopicFile) (by decide)

end ChronoCap.Truncation

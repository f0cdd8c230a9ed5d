/- module: ChronoCap/ReaderSafety
   source: src/core/record_reader.cpp
   digest: The table loop and the record loops of Run and Walk end on every file, without a wrapped
           sum or a read outside the mapping. -/

import ChronoCap.RecordGrammar

set_option autoImplicit false
set_option relaxedAutoImplicit false

namespace ChronoCap.ReaderSafety

open ChronoCap.Foundation
open ChronoCap.WireFormat
open ChronoCap.RecordReader
open ChronoCap.RecordGrammar

/-- The reader sees the bytes of a file, whatever table it has. -/
structure Sees (r : RecordReader) (F : List UInt8) : Prop where
  memory : ∀ off, r.memory off = F.drop off
  fileSize : r.fileSize = F.length
  size_lt : F.length < 2 ^ 63

variable {r : RecordReader} {F : List UInt8}

theorem Sees.addTopic (sees : Sees r F) (t : ResolvedTopic) : Sees (r.addTopic t) F :=
  ⟨sees.memory, sees.fileSize, sees.size_lt⟩

theorem sees_mapped {F : List UInt8} (size_lt : F.length < 2 ^ 63) :
    Sees { base := some F, fileSize := F.length } F :=
  ⟨fun _ => rfl, rfl, size_lt⟩

theorem sees_empty : Sees {} [] :=
  ⟨fun _ => rfl, rfl, by simp⟩

/-! The record loops. -/

theorem runLoop_eq_iterate (bits : Nat) (now : UInt64) (r : RecordReader) (fuel : Nat)
    (s : RunState) : runLoop bits now r fuel s = Loop.iterate (runStep bits now r) fuel s := by
  induction fuel generalizing s with
  | zero => rfl
  | succ fuel ih =>
      rw [runLoop, Loop.iterate]
      cases runStep bits now r s with
      | inl stop => rfl
      | inr t => exact ih t

theorem walk_timed (bits : Nat) (now : UInt64) (r : RecordReader) :
    walk bits now true r = run bits now r := by
  rw [walk, run, walkStep_timed, runLoop_eq_iterate]

/-- What a round of a record loop may do at a state: no sum wraps, a header is read only where the
file has one, and the payload handed on lies in the file, as does the next offset. -/
structure SafeRound (F : List UInt8) (r : RecordReader) (round : RunState → Stop ⊕ RunState)
    (s : RunState) : Prop where
  headerSum : sizeAdd 64 s.offset kRecordHeaderWireSize = s.offset + kRecordHeaderWireSize
  payloadSum : ∀ id topic, r.byId id = some topic →
    sizeAdd 64 (s.offset + kRecordHeaderWireSize) topic.wireSize.toNat =
      s.offset + kRecordHeaderWireSize + topic.wireSize.toNat
  header : sizeAdd 64 s.offset kRecordHeaderWireSize ≤ r.fileSize →
    s.offset + kRecordHeaderWireSize ≤ F.length
  noFault : round s ≠ .inl .fault
  advance : ∀ t, round s = .inr t → ∃ c, t.callbacks = s.callbacks ++ [c] ∧
    s.offset + kRecordHeaderWireSize = c.payloadOffset ∧
    c.payloadOffset + c.payloadLen.toNat = t.offset ∧
    s.offset + kRecordHeaderWireSize ≤ t.offset ∧ t.offset ≤ F.length

/-- A record loop is safe wherever it gets to, ends, and has then handed on bytes of the file
only. -/
structure WalkSafe (F : List UInt8) (r : RecordReader) (round : RunState → Stop ⊕ RunState)
    (result : Option (Stop × RunState)) : Prop where
  visited : ∀ s, Loop.Visits round { offset := r.recordsStartOffset } s → SafeRound F r round s
  ends : ∃ stop t, result = some (stop, t) ∧ stop ≠ .fault ∧
    ∀ c ∈ t.callbacks, c.payloadOffset + c.payloadLen.toNat ≤ F.length

theorem safeRound_walkStep (sees : Sees r F) (now : UInt64) (withTiming : Bool) {s : RunState}
    (inside : s.offset ≤ F.length) : SafeRound F r (walkStep 64 now withTiming r) s := by
  have bound := sees.size_lt
  have head : sizeAdd 64 s.offset kRecordHeaderWireSize = s.offset + kRecordHeaderWireSize :=
    sizeAdd_of_lt (by simp only [kRecordHeaderWireSize]; omega)
  have tail : ∀ size : UInt32, sizeAdd 64 (s.offset + kRecordHeaderWireSize) size.toNat =
      s.offset + kRecordHeaderWireSize + size.toNat := by
    intro size
    have small := size.toNat_lt
    exact sizeAdd_of_lt (by simp only [kRecordHeaderWireSize]; omega)
  have read : s.offset + kRecordHeaderWireSize ≤ F.length →
      RecordHeader.deserialize (r.memory s.offset) ≠ none := by
    intro room
    rw [sees.memory, RecordHeader.deserialize_of_le (by rw [List.length_drop]; omega)]
    exact Option.some_ne_none _
  refine ⟨head, fun _ topic _ => tail topic.wireSize, ?_, ?_, ?_⟩
  · rw [head, sees.fileSize]
    exact id
  · intro fault
    rw [walkStep_eq] at fault
    cases found : recordAt 64 r s.offset with
    | inr c =>
        rw [found] at fault
        cases fault
    | inl stop =>
        rw [found] at fault
        obtain rfl := Sum.inl.inj fault
        obtain ⟨room, none⟩ := recordAt_eq_fault.mp found
        rw [head, sees.fileSize] at room
        exact read room none
  · intro t step
    obtain ⟨c, found, rfl⟩ := walkStep_inr step
    refine ⟨c, ?_⟩
    obtain ⟨hdr, topic, -, -, -, whole, rfl⟩ := recordAt_eq_inr.mp found
    rw [head, tail, sees.fileSize] at whole
    refine ⟨?_, head.symm, ?_, ?_, ?_⟩
    · rw [RunState.callbacks_play]
      cases withTiming with
      | false => rfl
      | true => exact congrArg (· ++ _) (s.pace_keeps now _).2.2
    · simp only [RunState.play, head, tail]
    · simp only [RunState.play, head, tail]
      exact Nat.le_add_right _ _
    · simp only [RunState.play, head, tail]
      exact whole

/-- Each round goes on by a header at least, so that the loop ends within the file. -/
theorem walkSafe (sees : Sees r F) (inside : r.recordsStartOffset ≤ F.length) (now : UInt64)
    (withTiming : Bool) :
    WalkSafe F r (walkStep 64 now withTiming r) (walk 64 now withTiming r) := by
  let Inv (s : RunState) : Prop := s.offset ≤ F.length ∧
    ∀ c ∈ s.callbacks, c.payloadOffset + c.payloadLen.toNat ≤ F.length
  have start : Inv { offset := r.recordsStartOffset } := ⟨inside, by simp [RunState.callbacks]⟩
  have round : ∀ s t, Inv s → walkStep 64 now withTiming r s = .inr t →
      Inv t ∧ s.offset < t.offset := by
    rintro s t ⟨here, played⟩ step
    obtain ⟨c, callbacks, -, within, forward, there⟩ :=
      (safeRound_walkStep sees now withTiming here).advance t step
    refine ⟨⟨there, ?_⟩, ?_⟩
    · intro d hd
      rw [callbacks] at hd
      rcases List.mem_append.mp hd with old | new
      · exact played d old
      · obtain rfl := List.mem_singleton.mp new
        omega
    · simp only [kRecordHeaderWireSize] at forward
      omega
  have reached : ∀ s, Loop.Visits (walkStep 64 now withTiming r)
      { offset := r.recordsStartOffset } s → Inv s := by
    intro s visits
    exact visits.invariant start (fun t u inv step => (round t u inv step).1)
  refine ⟨?_, ?_⟩
  · intro s visits
    exact safeRound_walkStep sees now withTiming (reached s visits).1
  · have lower : ∀ s t, Inv s → walkStep 64 now withTiming r s = .inr t →
        Inv t ∧ F.length - t.offset < F.length - s.offset := by
      intro s t inv step
      obtain ⟨next, forward⟩ := round s t inv step
      have there := next.1
      exact ⟨next, by omega⟩
    obtain ⟨stop, t, ended⟩ := Loop.iterate_ends (fun s => F.length - s.offset) lower
      (r.fileSize + 1) start (by rw [sees.fileSize]; omega)
    obtain ⟨visits, last⟩ := Loop.visits_of_iterate ended
    obtain ⟨here, played⟩ := reached t visits
    refine ⟨stop, t, ended, ?_, played⟩
    rintro rfl
    exact (safeRound_walkStep sees now withTiming here).noFault last

theorem runSafe (sees : Sees r F) (inside : r.recordsStartOffset ≤ F.length) (now : UInt64) :
    WalkSafe F r (runStep 64 now r) (run 64 now r) := by
  have safe := walkSafe sees inside now true
  rwa [walkStep_timed, walk_timed] at safe

/-! The table loop. -/

/-- The table loop before one of its rounds, with the 32-bit counter of the source. -/
structure TableState where
  i : UInt32 := 0
  offset : Nat := kFileHeaderWireSize
  reader : RecordReader

/-- One round of the table loop; it ends with what the parser answers. -/
def tableStep (bits : Nat) (beyond : Nat → List UInt8) (topicCount : UInt32) (s : TableState) :
    Option (Bool × RecordReader) ⊕ TableState :=
  if s.i < topicCount then
    if sizeAdd bits s.offset kTopicMetaWireSize > s.reader.fileSize then
      .inl (some (false, s.reader))
    else
      match TopicMetaEntry.deserialize (s.reader.memory s.offset) with
      | none => .inl none
      | some entry =>
          .inr ⟨s.i + 1, sizeAdd bits s.offset kTopicMetaWireSize,
            s.reader.addTopic (resolve (beyond s.i.toNat) entry)⟩
  else .inl (some (true, { s.reader with recordsStartOffset := s.offset }))

theorem toNat_succ_of_lt {i n : UInt32} (lt : i < n) : (i + 1).toNat = i.toNat + 1 := by
  have lt : i.toNat < n.toNat := UInt32.lt_iff_toNat_lt.mp lt
  have bound := n.toNat_lt
  rw [UInt32.toNat_add]
  exact Nat.mod_eq_of_lt (by simp; omega)

/-- The parser's table loop is this loop. -/
theorem parseEntries_eq_iterate (bits : Nat) (beyond : Nat → List UInt8) (topicCount : UInt32)
    (n : Nat) (s : TableState) (left : s.i.toNat + n = topicCount.toNat) :
    ∃ final, Loop.iterate (tableStep bits beyond topicCount) (n + 1) s =
      some (parseEntries bits beyond n s.i.toNat s.offset s.reader, final) := by
  induction n generalizing s with
  | zero =>
      have done : ¬ s.i < topicCount := by
        rw [UInt32.lt_iff_toNat_lt]
        omega
      exact ⟨s, by rw [Loop.iterate, tableStep, if_neg done, parseEntries]⟩
  | succ n ih =>
      have more : s.i < topicCount := by
        rw [UInt32.lt_iff_toNat_lt]
        omega
      have next := toNat_succ_of_lt more
      rw [Loop.iterate, tableStep, if_pos more, parseEntries]
      by_cases cut : sizeAdd bits s.offset kTopicMetaWireSize > s.reader.fileSize
      · exact ⟨s, by rw [if_pos cut, if_pos cut]⟩
      · rw [if_neg cut, if_neg cut]
        cases TopicMetaEntry.deserialize (s.reader.memory s.offset) with
        | none => exact ⟨s, rfl⟩
        | some entry =>
            obtain ⟨final, rest⟩ := ih ⟨s.i + 1, sizeAdd bits s.offset kTopicMetaWireSize,
              s.reader.addTopic (resolve (beyond s.i.toNat) entry)⟩ (by simp only [next]; omega)
            simp only [next] at rest
            exact ⟨final, rest⟩

/-- The table loop goes from entry to entry of the file. -/
structure InTable (F : List UInt8) (s : TableState) : Prop where
  sees : Sees s.reader F
  start : s.reader.recordsStartOffset ≤ F.length
  inside : s.offset ≤ F.length

/-- What a round of the table loop may do at a state. -/
structure SafeEntry (F : List UInt8) (beyond : Nat → List UInt8) (topicCount : UInt32)
    (s : TableState) : Prop where
  sum : sizeAdd 64 s.offset kTopicMetaWireSize = s.offset + kTopicMetaWireSize
  entry : s.i < topicCount → sizeAdd 64 s.offset kTopicMetaWireSize ≤ s.reader.fileSize →
    s.offset + kTopicMetaWireSize ≤ F.length
  noFault : tableStep 64 beyond topicCount s ≠ .inl none
  advance : ∀ t, tableStep 64 beyond topicCount s = .inr t →
    t.i.toNat = s.i.toNat + 1 ∧ t.offset = s.offset + kTopicMetaWireSize

variable {beyond : Nat → List UInt8} {topicCount : UInt32} {s : TableState}

theorem InTable.sum (inv : InTable F s) :
    sizeAdd 64 s.offset kTopicMetaWireSize = s.offset + kTopicMetaWireSize := by
  have bound := inv.sees.size_lt
  have inside := inv.inside
  exact sizeAdd_of_lt (by simp only [kTopicMetaWireSize]; omega)

theorem InTable.next (inv : InTable F s) {t : TableState}
    (step : tableStep 64 beyond topicCount s = .inr t) :
    InTable F t ∧ t.i.toNat = s.i.toNat + 1 ∧ t.offset = s.offset + kTopicMetaWireSize ∧
      s.i < topicCount := by
  unfold tableStep at step
  rw [inv.sum, inv.sees.fileSize] at step
  split at step
  · rename_i more
    split at step
    · contradiction
    · rename_i room
      split at step
      · contradiction
      · cases step
        exact ⟨⟨inv.sees.addTopic _, inv.start, Nat.le_of_not_lt room⟩, toNat_succ_of_lt more, rfl,
          more⟩
  · contradiction

theorem InTable.last (inv : InTable F s) {answer : Option (Bool × RecordReader)}
    (step : tableStep 64 beyond topicCount s = .inl answer) :
    ∃ ok r, answer = some (ok, r) ∧ Sees r F ∧ r.recordsStartOffset ≤ F.length := by
  unfold tableStep at step
  rw [inv.sum, inv.sees.fileSize, inv.sees.memory] at step
  split at step
  · split at step
    · cases step
      exact ⟨false, s.reader, rfl, inv.sees, inv.start⟩
    · rename_i room
      have long : kTopicMetaWireSize ≤ (F.drop s.offset).length := by
        rw [List.length_drop]
        omega
      obtain ⟨entry, decoded, -⟩ := TopicMetaEntry.deserialize_of_le long
      rw [decoded] at step
      cases step
  · cases step
    exact ⟨true, _, rfl, ⟨inv.sees.memory, inv.sees.fileSize, inv.sees.size_lt⟩, inv.inside⟩

theorem InTable.safeEntry (inv : InTable F s) : SafeEntry F beyond topicCount s where
  sum := inv.sum
  entry _ room := by rwa [inv.sum, inv.sees.fileSize] at room
  noFault fault := by
    obtain ⟨ok, r, answer, -⟩ := inv.last fault
    cases answer
  advance t step := ⟨(inv.next step).2.1, (inv.next step).2.2.1⟩

theorem InTable.visited (inv : InTable F s) {t : TableState}
    (visits : Loop.Visits (tableStep 64 beyond topicCount) s t) : InTable F t :=
  visits.invariant inv (fun _ _ here step => (here.next step).1)

/-- The table loop ends with an answer, which is the parser's. -/
theorem InTable.ends (inv : InTable F s) (left : s.i.toNat ≤ topicCount.toNat) :
    ∃ ok r final, Loop.iterate (tableStep 64 beyond topicCount)
        (topicCount.toNat - s.i.toNat + 1) s = some (some (ok, r), final) ∧
      parseEntries 64 beyond (topicCount.toNat - s.i.toNat) s.i.toNat s.offset s.reader =
        some (ok, r) ∧ Sees r F ∧ r.recordsStartOffset ≤ F.length := by
  obtain ⟨final, ended⟩ := parseEntries_eq_iterate 64 beyond topicCount
    (topicCount.toNat - s.i.toNat) s (by omega)
  obtain ⟨visits, last⟩ := Loop.visits_of_iterate ended
  obtain ⟨ok, r, answer, sees, start⟩ := (inv.visited visits).last last
  rw [answer] at ended
  exact ⟨ok, r, final, ended, answer, sees, start⟩

/-- The parser on a mapped file: it hands whole headers and entries to Deserialize, and its loop
ends, for every count that the header may declare. -/
structure TableSafe (F : List UInt8) (beyond : Nat → List UInt8) (r : RecordReader) : Prop where
  header : kFileHeaderWireSize ≤ r.fileSize →
    kFileHeaderWireSize ≤ F.length ∧ FileHeader.deserialize (r.memory 0) ≠ none
  visited : kFileHeaderWireSize ≤ r.fileSize → ∀ topicCount s,
    Loop.Visits (tableStep 64 beyond topicCount) { reader := r } s →
      SafeEntry F beyond topicCount s
  loopEnds : kFileHeaderWireSize ≤ r.fileSize → ∀ topicCount, ∃ answer final,
    Loop.iterate (tableStep 64 beyond topicCount) (topicCount.toNat + 1) { reader := r } =
        some (some answer, final) ∧
      parseEntries 64 beyond topicCount.toNat 0 kFileHeaderWireSize r = some answer
  ends : ∃ ok t, parseHeaderAndMetadata 64 beyond r = some (ok, t)

theorem Sees.inTable (sees : Sees r F) (start : r.recordsStartOffset ≤ F.length)
    (large : kFileHeaderWireSize ≤ F.length) : InTable F { reader := r } :=
  ⟨sees, start, large⟩

theorem parseHeaderAndMetadata_sees (sees : Sees r F) (start : r.recordsStartOffset ≤ F.length)
    (beyond : Nat → List UInt8) :
    ∃ ok t, parseHeaderAndMetadata 64 beyond r = some (ok, t) ∧ Sees t F ∧
      t.recordsStartOffset ≤ F.length := by
  unfold parseHeaderAndMetadata
  rw [sees.fileSize, sees.memory, List.drop_zero]
  split
  · exact ⟨false, r, rfl, sees, start⟩
  · rename_i large
    rw [FileHeader.deserialize_of_le (by omega)]
    by_cases magic : F.take 8 = kMagic
    · rw [if_pos magic]
      dsimp only
      split
      · exact ⟨false, r, rfl, sees, start⟩
      · have inv := sees.inTable start (Nat.le_of_not_lt large)
        obtain ⟨ok, t, -, -, parsed, sees, start⟩ :=
          @InTable.ends F beyond (u32At F 12) _ inv (Nat.zero_le _)
        exact ⟨ok, t, parsed, sees, start⟩
    · rw [if_neg magic]
      exact ⟨false, r, rfl, sees, start⟩

theorem tableSafe (sees : Sees r F) (start : r.recordsStartOffset ≤ F.length)
    (beyond : Nat → List UInt8) : TableSafe F beyond r where
  header large := by
    rw [sees.fileSize] at large
    rw [sees.memory, List.drop_zero, FileHeader.deserialize_of_le (by omega)]
    refine ⟨large, ?_⟩
    split <;> simp
  visited large topicCount s visits := by
    rw [sees.fileSize] at large
    exact ((sees.inTable start large).visited visits).safeEntry
  loopEnds large topicCount := by
    rw [sees.fileSize] at large
    obtain ⟨ok, t, final, ended, parsed, -⟩ :=
      @InTable.ends F beyond topicCount _ (sees.inTable start large) (Nat.zero_le _)
    exact ⟨(ok, t), final, ended, parsed⟩
  ends := by
    obtain ⟨ok, t, parsed, -⟩ := parseHeaderAndMetadata_sees sees start beyond
    exact ⟨ok, t, parsed⟩

/-! A successful Open of any reader, at any width of `size_t`. -/

theorem parseEntries_true {bits : Nat} (n : Nat) {i offset : Nat} {r t : RecordReader}
    (parsed : parseEntries bits beyond n i offset r = some (true, t)) :
    t.base = r.base ∧ t.fileSize = r.fileSize ∧
      (offset ≤ r.fileSize → t.recordsStartOffset ≤ t.fileSize) := by
  induction n generalizing i offset r with
  | zero =>
      cases parsed
      exact ⟨rfl, rfl, id⟩
  | succ n ih =>
      rw [parseEntries] at parsed
      split at parsed
      · cases parsed
      · rename_i room
        obtain ⟨entry, -, parsed⟩ := Option.bind_eq_some_iff.mp parsed
        obtain ⟨base, fileSize, start⟩ := ih parsed
        exact ⟨base, fileSize, fun _ => start (Nat.le_of_not_lt room)⟩

theorem parseHeaderAndMetadata_true {bits : Nat} {r t : RecordReader}
    (parsed : parseHeaderAndMetadata bits beyond r = some (true, t)) :
    t.base = r.base ∧ t.fileSize = r.fileSize ∧ t.recordsStartOffset ≤ t.fileSize := by
  unfold parseHeaderAndMetadata at parsed
  split at parsed
  · cases parsed
  · rename_i large
    split at parsed
    · cases parsed
    · cases parsed
    · split at parsed
      · cases parsed
      · obtain ⟨base, fileSize, start⟩ := parseEntries_true _ parsed
        exact ⟨base, fileSize, start (Nat.le_of_not_lt large)⟩

/-- A successful Open leaves the mapping of the file it found, with the records inside. -/
theorem open_true {σ : Type*} {bits : Nat} {calls : OpenCalls}
    {hook : Option (σ → ResolvedTopic → Bool × σ)} {r₀ r : RecordReader} {s s' : σ}
    (opened : RecordReader.open bits beyond calls hook r₀ s = some (true, r, s')) :
    ∃ F, calls.file = some F ∧ r.base = some (F.bytes.take r.fileSize) ∧
      r.fileSize = F.bytes.length % 2 ^ bits ∧ r.recordsStartOffset ≤ r.fileSize := by
  unfold RecordReader.open at opened
  split at opened
  · cases opened
  · rename_i F found
    refine ⟨F, found, ?_⟩
    dsimp only at opened
    split at opened
    · cases opened
    · split at opened
      · cases opened
      · split at opened
        · cases opened
        · cases opened
        · rename_i t parsed
          obtain ⟨base, fileSize, start⟩ := parseHeaderAndMetadata_true parsed
          have same : t = r := by
            split at opened <;>
              exact (Prod.mk.inj (Prod.mk.inj (Option.some.inj opened)).2).1
          subst same
          rw [fileSize] at start ⊢
          exact ⟨base, rfl, start⟩

theorem sees_of_open {σ : Type*} {calls : OpenCalls}
    {hook : Option (σ → ResolvedTopic → Bool × σ)} {r₀ r : RecordReader} {s s' : σ}
    (opened : RecordReader.open 64 beyond calls hook r₀ s = some (true, r, s')) :
    ∃ F, Sees r F ∧ r.recordsStartOffset ≤ F.length := by
  obtain ⟨F, -, base, fileSize, start⟩ := open_true opened
  rw [F.size_mod] at fileSize
  rw [fileSize, List.take_length] at base
  rw [fileSize] at start
  exact ⟨F.bytes, ⟨fun off => by rw [RecordReader.memory, base, Option.getD_some], fileSize,
    F.size_lt⟩, start⟩

/-! The whole reader. -/

/-- Open on a fresh reader, whatever it answers, leaves a reader that sees the file. -/
theorem open_sees {σ : Type*} (F : FileImage) (beyond : Nat → List UInt8)
    (hook : Option (σ → ResolvedTopic → Bool × σ)) (s : σ) :
    ∃ ok r s', RecordReader.open 64 beyond { file := some F } hook {} s = some (ok, r, s') ∧
      Sees r F.bytes ∧ r.recordsStartOffset ≤ F.bytes.length := by
  unfold RecordReader.open
  simp only [F.size_mod, List.take_length, Bool.true_eq_false, if_false, false_or]
  split
  · rename_i empty
    have nil : F.bytes = [] := List.length_eq_zero_iff.mp empty
    refine ⟨false, _, s, rfl, ?_, Nat.zero_le _⟩
    rw [nil]
    exact sees_empty
  · obtain ⟨ok, t, parsed, sees, start⟩ :=
      parseHeaderAndMetadata_sees (sees_mapped F.size_lt) (Nat.zero_le _) beyond
    rw [parsed]
    cases ok with
    | false => exact ⟨false, t, s, rfl, sees, start⟩
    | true =>
        cases hook with
        | none => exact ⟨true, t, s, rfl, sees, start⟩
        | some hook => exact ⟨_, t, _, rfl, sees, start⟩

/-- The three loops of a fresh reader on any file: each is safe in every state it gets to, and
ends; Run and Walk also behind an Open that has failed. -/
theorem walks_safe {σ : Type*} (F : FileImage) (beyond : Nat → List UInt8)
    (hook : Option (σ → ResolvedTopic → Bool × σ)) (s : σ) (now : UInt64) :
    TableSafe F.bytes beyond { base := some F.bytes, fileSize := F.bytes.length } ∧
      ∃ ok r s', RecordReader.open 64 beyond { file := some F } hook {} s = some (ok, r, s') ∧
        WalkSafe F.bytes r (runStep 64 now r) (run 64 now r) ∧
        ∀ withTiming,
          WalkSafe F.bytes r (walkStep 64 now withTiming r) (walk 64 now withTiming r) := by
  obtain ⟨ok, r, s', opened, sees, start⟩ := open_sees F beyond hook s
  exact ⟨tableSafe (sees_mapped F.size_lt) (Nat.zero_le _) beyond, ok, r, s', opened,
    runSafe sees start now, fun withTiming => walkSafe sees start now withTiming⟩

end ChronoCap.ReaderSafety

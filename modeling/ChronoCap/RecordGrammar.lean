/- module: ChronoCap/RecordGrammar
   source: src/core/record_reader.cpp
   digest: The .bin format as a grammar: table, records framed by their topic's size; and the
           record loop of Run computes what the grammar says. -/

import ChronoCap.Foundation.Framing
import ChronoCap.RecordReader
import ChronoCap.Ring.MpscRingBuffer

set_option autoImplicit false
set_option relaxedAutoImplicit false

namespace ChronoCap.RecordGrammar

open ChronoCap.Foundation
open ChronoCap.WireFormat
open ChronoCap.RecordReader
open ChronoCap.Ring (Record)

/-! The record region: frames of a header and as many payload bytes as the table says. -/

/-- The last entry of a table with the given id. -/
def lastEntry (topics : List ResolvedTopic) (id : UInt16) : Option ResolvedTopic :=
  (topics.filter (fun t => t.topicId = id)).getLast?

def recordSize (topics : List ResolvedTopic) (bs : List UInt8) : Option Nat :=
  if bs.length < kRecordHeaderWireSize then none
  else (lastEntry topics (u16At bs 0)).map (fun t => kRecordHeaderWireSize + t.wireSize.toNat)

def records (topics : List ResolvedTopic) : Framing UInt8 where
  header := kRecordHeaderWireSize
  size := recordSize topics
  header_pos := by decide
  header_le bs n h := by
    unfold recordSize at h
    split at h
    · contradiction
    · obtain ⟨t, -, rfl⟩ := Option.map_eq_some_iff.mp h
      exact Nat.le_add_right _ _
  short bs h := if_pos h
  size_take bs m h := by
    have id : u16At (bs.take m) 0 = u16At bs 0 := u16At_take bs (Nat.le_trans (by decide) h)
    have short : (bs.take m).length < kRecordHeaderWireSize ↔
        bs.length < kRecordHeaderWireSize := by
      rw [List.length_take]
      omega
    simp only [recordSize, id, short]

/-- The callback for a frame found at an offset of the file. -/
def frameCallback (x : Nat × List UInt8) : Callback where
  topicId := u16At x.2 0
  stampNs := u64At x.2 2
  seq := u64At x.2 10
  payloadOffset := x.1 + kRecordHeaderWireSize
  payloadLen := UInt32.ofNat (x.2.length - kRecordHeaderWireSize)

/-- The record a frame carries. -/
def frameRecord (f : List UInt8) : Record where
  topicId := u16At f 0
  stampNs := u64At f 2
  seq := u64At f 10
  payloadLen := UInt32.ofNat (f.length - kRecordHeaderWireSize)
  bytes := f.drop kRecordHeaderWireSize

/-- The reference parser of a record region that begins at offset `start` of its file. -/
def parse (topics : List ResolvedTopic) (start : Nat) (region : List UInt8) : List Callback :=
  (Framing.located start ((records topics).frames region)).map frameCallback

/-- A found entry is one of the table, for the id that was looked up. -/
theorem lastEntry_mem {topics : List ResolvedTopic} {id : UInt16} {t : ResolvedTopic}
    (found : lastEntry topics id = some t) : t ∈ topics ∧ t.topicId = id := by
  have mem := List.mem_filter.mp (List.mem_of_getLast? found)
  exact ⟨mem.1, of_decide_eq_true mem.2⟩

/-- A frame is as long as the last entry for its id says. -/
theorem entry_of_isFrame {topics : List ResolvedTopic} {f : List UInt8}
    (isFrame : (records topics).IsFrame f) :
    ∃ t, lastEntry topics (u16At f 0) = some t ∧
      f.length = kRecordHeaderWireSize + t.wireSize.toNat := by
  have header : kRecordHeaderWireSize ≤ f.length := isFrame.header_le
  have size : recordSize topics f = some f.length := isFrame
  rw [recordSize, if_neg (by omega)] at size
  obtain ⟨t, entry, length⟩ := Option.map_eq_some_iff.mp size
  exact ⟨t, entry, length.symm⟩

/-- A callback of the grammar has the size its topic has in the table, and its payload lies in the
file. -/
theorem mem_parse {topics : List ResolvedTopic} {F : List UInt8} {start : Nat}
    (inside : start ≤ F.length) {c : Callback} (mem : c ∈ parse topics start (F.drop start)) :
    ∃ t ∈ topics, t.topicId = c.topicId ∧ c.payloadLen = t.wireSize ∧
      c.payloadOffset + c.payloadLen.toNat ≤ F.length := by
  obtain ⟨x, hx, rfl⟩ := List.mem_map.mp mem
  obtain ⟨isFrame, -, within, -⟩ := Framing.located_frames hx
  obtain ⟨t, entry, length⟩ := entry_of_isFrame isFrame
  obtain ⟨there, id⟩ := lastEntry_mem entry
  have len : (frameCallback x).payloadLen = t.wireSize := by
    rw [frameCallback, length, Nat.add_sub_cancel_left, UInt32.ofNat_toNat]
  refine ⟨t, there, id, len, ?_⟩
  rw [len]
  rw [List.length_drop] at within
  simp only [frameCallback]
  omega

/-- The reader has mapped the file `F`, and looks topics up in its table. -/
structure Mapped (r : RecordReader) (F : List UInt8) : Prop where
  base : r.base = some F
  fileSize : r.fileSize = F.length
  size_lt : F.length < 2 ^ 63
  byId : r.byId = lastEntry r.topics

theorem sizeAdd_of_lt {a b : Nat} (h : a + b < 2 ^ 64) : sizeAdd 64 a b = a + b :=
  Nat.mod_eq_of_lt h

variable {r : RecordReader} {F : List UInt8}

theorem Mapped.memory (mapped : Mapped r F) (off : Nat) : r.memory off = F.drop off := by
  rw [RecordReader.memory, mapped.base, Option.getD_some]

/-- The callback for a record at the head of a region, field by field. -/
theorem frameCallback_take {bs : List UInt8} {size : UInt32} (offset : Nat)
    (whole : kRecordHeaderWireSize + size.toNat ≤ bs.length) :
    frameCallback (offset, bs.take (kRecordHeaderWireSize + size.toNat)) =
      ⟨u16At bs 0, u64At bs 2, u64At bs 10, offset + kRecordHeaderWireSize, size⟩ := by
  rw [frameCallback, List.length_take, Nat.min_eq_left whole,
    u16At_take _ (by simp only [kRecordHeaderWireSize]; omega),
    u64At_take _ (by simp only [kRecordHeaderWireSize]; omega),
    u64At_take _ (by simp only [kRecordHeaderWireSize]; omega),
    Nat.add_sub_cancel_left, UInt32.ofNat_toNat]

/-- The reader finds a record where the grammar finds a frame, and the same one. -/
theorem recordAt_spec (mapped : Mapped r F) {off : Nat} (inside : off ≤ F.length) :
    (∃ stop, recordAt 64 r off = .inl stop ∧ stop ≠ .fault ∧
      (records r.topics).frames (F.drop off) = []) ∨
    ∃ f, recordAt 64 r off = .inr (frameCallback (off, f)) ∧
      (records r.topics).frames (F.drop off) =
        f :: (records r.topics).frames (F.drop (off + f.length)) ∧
      sizeAdd 64 (off + kRecordHeaderWireSize) (frameCallback (off, f)).payloadLen.toNat =
        off + f.length ∧
      kRecordHeaderWireSize ≤ f.length ∧ off + f.length ≤ F.length := by
  have bound := mapped.size_lt
  have head : sizeAdd 64 off kRecordHeaderWireSize = off + kRecordHeaderWireSize :=
    sizeAdd_of_lt (by simp only [kRecordHeaderWireSize]; omega)
  have left : (F.drop off).length = F.length - off := List.length_drop
  unfold recordAt
  simp only [head, mapped.fileSize, mapped.memory, mapped.byId]
  split
  · rename_i room
    have long : kRecordHeaderWireSize ≤ (F.drop off).length := by omega
    have size : (records r.topics).size (F.drop off) =
        (lastEntry r.topics (u16At (F.drop off) 0)).map
          (fun t => kRecordHeaderWireSize + t.wireSize.toNat) := if_neg (by omega)
    rw [RecordHeader.deserialize_of_le long]
    dsimp only
    cases entry : lastEntry r.topics (u16At (F.drop off) 0) with
    | none =>
        rw [entry] at size
        exact .inl ⟨.unknownTopic, rfl, by decide, Framing.frames_of_none size⟩
    | some topic =>
        have small := topic.wireSize.toNat_lt
        have tail : sizeAdd 64 (off + kRecordHeaderWireSize) topic.wireSize.toNat =
            off + kRecordHeaderWireSize + topic.wireSize.toNat :=
          sizeAdd_of_lt (by omega)
        rw [entry] at size
        replace size : (records r.topics).size (F.drop off) =
          some (kRecordHeaderWireSize + topic.wireSize.toNat) := size
        simp only [tail]
        split
        · exact .inl ⟨.truncated, rfl, by decide, Framing.frames_of_cut size (by omega)⟩
        · rename_i fits
          have whole : kRecordHeaderWireSize + topic.wireSize.toNat ≤ (F.drop off).length := by
            omega
          have length : ((F.drop off).take
              (kRecordHeaderWireSize + topic.wireSize.toNat)).length =
                kRecordHeaderWireSize + topic.wireSize.toNat := by
            rw [List.length_take, Nat.min_eq_left whole]
          refine .inr ⟨(F.drop off).take (kRecordHeaderWireSize + topic.wireSize.toNat), ?_, ?_, ?_,
            ?_, ?_⟩
          · rw [frameCallback_take off whole]
          · rw [Framing.frames_of_le size whole, List.drop_drop, length]
          · rw [frameCallback_take off whole, length, ← Nat.add_assoc]
            exact tail
          · rw [length]
            exact Nat.le_add_right _ _
          · rw [length]
            omega
  · rename_i full
    exact .inl ⟨.endOfFile, rfl, by decide, Framing.frames_of_none (if_pos (by omega))⟩

/-- One round of the loop ends where the grammar finds no frame, and else plays the next one. -/
theorem runStep_spec (mapped : Mapped r F) (now : UInt64) {s : RunState}
    (inside : s.offset ≤ F.length) :
    (∃ stop, runStep 64 now r s = .inl stop ∧ stop ≠ .fault ∧
      (records r.topics).frames (F.drop s.offset) = []) ∨
    ∃ t f, runStep 64 now r s = .inr t ∧
      (records r.topics).frames (F.drop s.offset) =
        f :: (records r.topics).frames (F.drop t.offset) ∧
      t.offset = s.offset + f.length ∧ s.offset < t.offset ∧ t.offset ≤ F.length ∧
      t.callbacks = s.callbacks ++ [frameCallback (s.offset, f)] := by
  rw [runStep_eq]
  rcases recordAt_spec mapped inside with
    ⟨stop, found, ok, none⟩ | ⟨f, found, frames, next, header, within⟩
  · rw [found]
    exact .inl ⟨stop, rfl, ok, none⟩
  · rw [found]
    refine .inr ⟨(s.pace now (frameCallback (s.offset, f))).play 64 (frameCallback (s.offset, f)),
      f, rfl, ?_, next, ?_, ?_, ?_⟩
    · rw [frames, ← next]
      rfl
    · refine Nat.lt_of_lt_of_eq ?_ next.symm
      simp only [kRecordHeaderWireSize] at header
      omega
    · exact next.trans_le within
    · rw [RunState.callbacks_play, (s.pace_keeps now _).2.2]

theorem runLoop_spec (mapped : Mapped r F) (now : UInt64) (fuel : Nat) {s : RunState}
    (inside : s.offset ≤ F.length) (enough : F.length - s.offset < fuel) :
    ∃ stop t, runLoop 64 now r fuel s = some (stop, t) ∧ stop ≠ .fault ∧
      t.callbacks = s.callbacks ++ parse r.topics s.offset (F.drop s.offset) := by
  induction fuel generalizing s with
  | zero => omega
  | succ fuel ih =>
      rcases runStep_spec mapped now inside with
        ⟨stop, step, ok, none⟩ | ⟨t, f, step, frames, offset, advance, within, callbacks⟩
      · refine ⟨stop, s, ?_, ok, ?_⟩
        · rw [runLoop, step]
        · rw [parse, none]
          simp [Framing.located]
      · obtain ⟨stop, u, loop, ok, rest⟩ := ih within (by omega)
        refine ⟨stop, u, ?_, ok, ?_⟩
        · rw [runLoop, step]
          exact loop
        · rw [rest, callbacks, parse, parse, frames, Framing.located, offset]
          simp

/-- Run ends, stays inside the mapping, and makes the callbacks of the reference parser. -/
theorem run_spec (mapped : Mapped r F) (now : UInt64) (inside : r.recordsStartOffset ≤ F.length) :
    ∃ stop t, run 64 now r = some (stop, t) ∧ stop ≠ .fault ∧
      t.callbacks = parse r.topics r.recordsStartOffset (F.drop r.recordsStartOffset) := by
  have enough : F.length - r.recordsStartOffset < r.fileSize + 1 := by
    rw [mapped.fileSize]
    omega
  obtain ⟨stop, t, loop, ok, callbacks⟩ :=
    runLoop_spec mapped now (r.fileSize + 1) (s := { offset := r.recordsStartOffset }) inside enough
  exact ⟨stop, t, loop, ok, callbacks⟩

end ChronoCap.RecordGrammar

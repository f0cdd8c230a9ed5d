/- module: ChronoCap/RecordReader
   source: src/core/record_reader.cpp, include/chrono_cap/record_reader.hpp
   digest: Open, the header and table parser, and the record loops of Run and Walk, over a mapped
           file. -/

import ChronoCap.Foundation.Loop
import ChronoCap.WireFormat
import Mathlib.Logic.Function.Basic

set_option autoImplicit false
set_option relaxedAutoImplicit false

namespace ChronoCap

open ChronoCap.Foundation
open ChronoCap.Foundation.ByteStore
open ChronoCap.WireFormat

/-- A regular file; its size is an `off_t`. -/
structure FileImage where
  bytes : List UInt8
  size_lt : bytes.length < 2 ^ 63

/-- `st_size` fits into a size_t of 64 bits. -/
theorem FileImage.size_mod (F : FileImage) : F.bytes.length % 2 ^ 64 = F.bytes.length := by
  have bound := F.size_lt
  exact Nat.mod_eq_of_lt (by omega)

structure ResolvedTopic where
  topicId : UInt16 := 0
  wireSize : UInt32 := 0
  name : List UInt8 := []
  deriving DecidableEq, Repr

structure RecordReader where
  base : Option (List UInt8) := none
  fileSize : Nat := 0
  recordsStartOffset : Nat := 0
  topics : List ResolvedTopic := []
  byId : UInt16 → Option ResolvedTopic := fun _ => none

/-- A sum of `std::size_t`, which has `bits` bits. -/
def sizeAdd (bits a b : Nat) : Nat := (a + b) % 2 ^ bits

namespace RecordReader

/-- The mapped bytes from `base_ + off` on. -/
def memory (r : RecordReader) (off : Nat) : List UInt8 := (r.base.getD []).drop off

/-- `std::string(entry.name)` scans for a NUL, past the end of the array if it holds none. -/
def resolve (beyond : List UInt8) (entry : TopicMetaEntry) : ResolvedTopic :=
  ⟨entry.topicId, entry.structSize, cString entry.name.toList beyond⟩

def addTopic (r : RecordReader) (t : ResolvedTopic) : RecordReader :=
  { r with topics := r.topics ++ [t], byId := Function.update r.byId t.topicId (some t) }

/-- The table loop, with `remaining` rounds to go; `none` is a read outside the mapping, and
`beyond i` what lies behind the `name` array of the local entry in round `i`. -/
def parseEntries (bits : Nat) (beyond : Nat → List UInt8) :
    (remaining i offset : Nat) → RecordReader → Option (Bool × RecordReader)
  | 0, _, offset, r => some (true, { r with recordsStartOffset := offset })
  | remaining + 1, i, offset, r =>
      if sizeAdd bits offset kTopicMetaWireSize > r.fileSize then some (false, r)
      else do
        let entry ← TopicMetaEntry.deserialize (r.memory offset)
        parseEntries bits beyond remaining (i + 1) (sizeAdd bits offset kTopicMetaWireSize)
          (r.addTopic (resolve (beyond i) entry))

def parseHeaderAndMetadata (bits : Nat) (beyond : Nat → List UInt8) (r : RecordReader) :
    Option (Bool × RecordReader) :=
  if r.fileSize < kFileHeaderWireSize then some (false, r)
  else
    match FileHeader.deserialize (r.memory 0) with
    | none => none
    | some none => some (false, r)
    | some (some header) =>
        if header.version ≠ kFormatVersion then some (false, r)
        else parseEntries bits beyond header.topicCount.toNat 0 kFileHeaderWireSize r

/-- The answers of ::open (the file found, if any), fstat and mmap. -/
structure OpenCalls where
  file : Option FileImage
  fstatOk : Bool := true
  mmapOk : Bool := true

section Open

variable {σ : Type*}

/-- The hook is asked about one topic after the other, until it refuses one. -/
def askHook (hook : σ → ResolvedTopic → Bool × σ) : List ResolvedTopic → σ → Bool × σ
  | [], s => (true, s)
  | t :: ts, s =>
      match hook s t with
      | (false, s) => (false, s)
      | (true, s) => askHook hook ts s

/-- Open, where `s` is what the hook works on. -/
def «open» (bits : Nat) (beyond : Nat → List UInt8) (calls : OpenCalls)
    (onTopic : Option (σ → ResolvedTopic → Bool × σ)) (r : RecordReader) (s : σ) :
    Option (Bool × RecordReader × σ) :=
  match calls.file with
  | none => some (false, r, s)
  | some file =>
      if calls.fstatOk = false then some (false, r, s)
      else
        let r := { r with fileSize := file.bytes.length % 2 ^ bits }
        -- a mapping of no bytes is refused as well
        if calls.mmapOk = false ∨ r.fileSize = 0 then some (false, r, s)
        else
          let r := { r with base := some (file.bytes.take r.fileSize) }
          match parseHeaderAndMetadata bits beyond r with
          | none => none
          | some (false, r) => some (false, r, s)
          | some (true, r) =>
              match onTopic with
              | none => some (true, r, s)
              | some hook =>
                  let answer := askHook hook r.topics s
                  some (answer.1, r, answer.2)

end Open

/-- The arguments of one callback; the payload pointer as an offset into the mapping. -/
structure Callback where
  topicId : UInt16
  stampNs : UInt64
  seq : UInt64
  payloadOffset : Nat
  payloadLen : UInt32
  deriving DecidableEq, Repr

inductive Event where
  | sleep (targetNs : UInt64)
  | callback (c : Callback)
  deriving DecidableEq, Repr

/-- Why a record loop ends; `fault` is a read outside the mapping. -/
inductive Stop where
  | endOfFile
  | unknownTopic
  | truncated
  | fault
  deriving DecidableEq, Repr

structure RunState where
  offset : Nat
  haveT0 : Bool := false
  t0Ns : UInt64 := 0
  replayStart : UInt64 := 0
  recordsPlayed : UInt64 := 0
  trace : List Event := []
  deriving DecidableEq, Repr

/-- The first record played fixes the origin of both clocks. -/
def RunState.start (s : RunState) (stampNs now : UInt64) : RunState :=
  if s.haveT0 then s else { s with t0Ns := stampNs, replayStart := now, haveT0 := true }

/-- One round of the loop of Run; `now` is what MonotonicNowNs answers. -/
def runStep (bits : Nat) (now : UInt64) (r : RecordReader) (s : RunState) : Stop ⊕ RunState :=
  if sizeAdd bits s.offset kRecordHeaderWireSize ≤ r.fileSize then
    match RecordHeader.deserialize (r.memory s.offset) with
    | none => .inl .fault
    | some hdr =>
        match r.byId hdr.topicId with
        | none => .inl .unknownTopic
        | some topic =>
            let payloadOffset := sizeAdd bits s.offset kRecordHeaderWireSize
            if sizeAdd bits payloadOffset topic.wireSize.toNat > r.fileSize then .inl .truncated
            else
              let s := s.start hdr.stampNs now
              let elapsedNs := if hdr.stampNs ≥ s.t0Ns then hdr.stampNs - s.t0Ns else 0
              .inr { s with
                trace := s.trace ++ [.sleep (s.replayStart + elapsedNs),
                  .callback ⟨hdr.topicId, hdr.stampNs, hdr.seq, payloadOffset, topic.wireSize⟩]
                recordsPlayed := s.recordsPlayed + 1
                offset := sizeAdd bits payloadOffset topic.wireSize.toNat }
  else .inl .endOfFile

/-- The loop for at most `fuel` rounds; `none` is a loop that has not ended by then. -/
def runLoop (bits : Nat) (now : UInt64) (r : RecordReader) :
    (fuel : Nat) → RunState → Option (Stop × RunState)
  | 0, _ => none
  | fuel + 1, s =>
      match runStep bits now r s with
      | .inl stop => some (stop, s)
      | .inr s => runLoop bits now r fuel s

def run (bits : Nat) (now : UInt64) (r : RecordReader) : Option (Stop × RunState) :=
  runLoop bits now r (r.fileSize + 1) { offset := r.recordsStartOffset }

/-- One round of the loop of Walk, which is that of Run but sleeps only with `withTiming`. -/
def walkStep (bits : Nat) (now : UInt64) (withTiming : Bool) (r : RecordReader) (s : RunState) :
    Stop ⊕ RunState :=
  if sizeAdd bits s.offset kRecordHeaderWireSize ≤ r.fileSize then
    match RecordHeader.deserialize (r.memory s.offset) with
    | none => .inl .fault
    | some hdr =>
        match r.byId hdr.topicId with
        | none => .inl .unknownTopic
        | some topic =>
            let payloadOffset := sizeAdd bits s.offset kRecordHeaderWireSize
            if sizeAdd bits payloadOffset topic.wireSize.toNat > r.fileSize then .inl .truncated
            else
              let s :=
                if withTiming then
                  let s := s.start hdr.stampNs now
                  let elapsedNs := if hdr.stampNs ≥ s.t0Ns then hdr.stampNs - s.t0Ns else 0
                  { s with trace := s.trace ++ [.sleep (s.replayStart + elapsedNs)] }
                else s
              .inr { s with
                trace := s.trace ++
                  [.callback ⟨hdr.topicId, hdr.stampNs, hdr.seq, payloadOffset, topic.wireSize⟩]
                recordsPlayed := s.recordsPlayed + 1
                offset := sizeAdd bits payloadOffset topic.wireSize.toNat }
  else .inl .endOfFile

def walk (bits : Nat) (now : UInt64) (withTiming : Bool) (r : RecordReader) :
    Option (Stop × RunState) :=
  Loop.iterate (walkStep bits now withTiming r) (r.fileSize + 1) { offset := r.recordsStartOffset }

/-- The callbacks made so far, in order. -/
def RunState.callbacks (s : RunState) : List Callback :=
  s.trace.filterMap (fun
    | .callback c => some c
    | .sleep _ => none)

/-! Both loops in terms of what they find at an offset. -/

/-- The record at an offset, as it is handed to the callback, or why a loop ends there. -/
def recordAt (bits : Nat) (r : RecordReader) (offset : Nat) : Stop ⊕ Callback :=
  if sizeAdd bits offset kRecordHeaderWireSize ≤ r.fileSize then
    match RecordHeader.deserialize (r.memory offset) with
    | none => .inl .fault
    | some hdr =>
        match r.byId hdr.topicId with
        | none => .inl .unknownTopic
        | some topic =>
            if sizeAdd bits (sizeAdd bits offset kRecordHeaderWireSize) topic.wireSize.toNat >
                r.fileSize then .inl .truncated
            else .inr ⟨hdr.topicId, hdr.stampNs, hdr.seq,
              sizeAdd bits offset kRecordHeaderWireSize, topic.wireSize⟩
  else .inl .endOfFile

/-- The sleep in front of a callback. -/
def RunState.pace (now : UInt64) (s : RunState) (c : Callback) : RunState :=
  let s := s.start c.stampNs now
  let elapsedNs := if c.stampNs ≥ s.t0Ns then c.stampNs - s.t0Ns else 0
  { s with trace := s.trace ++ [.sleep (s.replayStart + elapsedNs)] }

def RunState.play (bits : Nat) (s : RunState) (c : Callback) : RunState :=
  { s with
    trace := s.trace ++ [.callback c]
    recordsPlayed := s.recordsPlayed + 1
    offset := sizeAdd bits c.payloadOffset c.payloadLen.toNat }

/-- Sleeping moves neither the offset nor the callbacks. -/
theorem RunState.pace_keeps (now : UInt64) (s : RunState) (c : Callback) :
    (s.pace now c).offset = s.offset ∧ (s.pace now c).recordsPlayed = s.recordsPlayed ∧
      (s.pace now c).callbacks = s.callbacks := by
  unfold RunState.pace RunState.start RunState.callbacks
  split <;> simp

theorem RunState.callbacks_play (bits : Nat) (s : RunState) (c : Callback) :
    (s.play bits c).callbacks = s.callbacks ++ [c] := by
  simp [RunState.play, RunState.callbacks]

theorem walkStep_eq (bits : Nat) (now : UInt64) (withTiming : Bool) (r : RecordReader)
    (s : RunState) :
    walkStep bits now withTiming r s =
      (recordAt bits r s.offset).map id
        (fun c => (if withTiming then s.pace now c else s).play bits c) := by
  unfold walkStep recordAt
  split
  · cases RecordHeader.deserialize (r.memory s.offset) with
    | none => rfl
    | some hdr =>
        dsimp only
        cases r.byId hdr.topicId with
        | none => rfl
        | some topic =>
            dsimp only
            split <;> rfl
  · rfl

/-- With timing the two loops are the same. -/
theorem walkStep_timed (bits : Nat) (now : UInt64) (r : RecordReader) :
    walkStep bits now true r = runStep bits now r := by
  funext s
  simp only [walkStep, runStep, if_true, List.append_assoc, List.cons_append, List.nil_append]

theorem runStep_eq (bits : Nat) (now : UInt64) (r : RecordReader) (s : RunState) :
    runStep bits now r s =
      (recordAt bits r s.offset).map id (fun c => (s.pace now c).play bits c) := by
  rw [← walkStep_timed, walkStep_eq]
  rfl

theorem recordAt_eq_inr {bits : Nat} {r : RecordReader} {offset : Nat} {c : Callback} :
    recordAt bits r offset = .inr c ↔ ∃ hdr topic,
      sizeAdd bits offset kRecordHeaderWireSize ≤ r.fileSize ∧
      RecordHeader.deserialize (r.memory offset) = some hdr ∧ r.byId hdr.topicId = some topic ∧
      sizeAdd bits (sizeAdd bits offset kRecordHeaderWireSize) topic.wireSize.toNat ≤ r.fileSize ∧
      c = ⟨hdr.topicId, hdr.stampNs, hdr.seq, sizeAdd bits offset kRecordHeaderWireSize,
        topic.wireSize⟩ := by
  unfold recordAt
  constructor
  · intro found
    split at found
    · rename_i room
      split at found
      · contradiction
      · rename_i hdr read
        split at found
        · contradiction
        · rename_i topic known
          split at found
          · contradiction
          · rename_i whole
            exact ⟨hdr, topic, room, read, known, Nat.le_of_not_lt whole,
              (Sum.inr.inj found).symm⟩
    · contradiction
  · rintro ⟨hdr, topic, room, read, known, whole, rfl⟩
    rw [if_pos room, read]
    dsimp only
    rw [known]
    dsimp only
    rw [if_neg (Nat.not_lt_of_le whole)]

theorem recordAt_eq_fault {bits : Nat} {r : RecordReader} {offset : Nat} :
    recordAt bits r offset = .inl .fault ↔
      sizeAdd bits offset kRecordHeaderWireSize ≤ r.fileSize ∧
        RecordHeader.deserialize (r.memory offset) = none := by
  unfold recordAt
  constructor
  · intro found
    split at found
    · rename_i room
      split at found
      · rename_i none
        exact ⟨room, none⟩
      · split at found
        · cases found
        · split at found <;> cases found
    · cases found
  · rintro ⟨room, none⟩
    rw [if_pos room, none]

/-- A round that goes on plays the record at its offset. -/
theorem walkStep_inr {bits : Nat} {now : UInt64} {withTiming : Bool} {r : RecordReader}
    {s t : RunState} (step : walkStep bits now withTiming r s = .inr t) :
    ∃ c, recordAt bits r s.offset = .inr c ∧
      t = (if withTiming then s.pace now c else s).play bits c := by
  rw [walkStep_eq] at step
  cases found : recordAt bits r s.offset with
  | inl stop =>
      rw [found] at step
      cases step
  | inr c =>
      rw [found] at step
      cases step
      exact ⟨c, rfl, rfl⟩

/-- What a callback can read through its payload pointer, as far as its length goes. -/
def payload (r : RecordReader) (c : Callback) : List UInt8 :=
  (r.memory c.payloadOffset).take c.payloadLen.toNat

end RecordReader

end ChronoCap

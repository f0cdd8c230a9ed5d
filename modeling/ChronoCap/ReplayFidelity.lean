/- module: ChronoCap/ReplayFidelity
   source: include/chrono_cap/generic_recorder.hpp, include/chrono_cap/generic_replayer.hpp,
           src/core/record_writer.cpp, src/core/record_reader.cpp
   digest: From a sample in the recorder to a message of the replayer: encode, push, write, parse,
           ask the hook, dispatch, decode. -/

import ChronoCap.GenericRecorder
import ChronoCap.GenericReplayer
import ChronoCap.RoundTrip

set_option autoImplicit false
set_option relaxedAutoImplicit false

namespace ChronoCap.ReplayFidelity

open ChronoCap.Foundation
open ChronoCap.WireFormat
open ChronoCap.Ring
open ChronoCap.RecordReader
open ChronoCap.RecordGrammar
open ChronoCap.FileGrammar
open ChronoCap.RoundTrip
open ChronoCap.GenericRecorderSystem
open ChronoCap.GenericReplayerSystem

variable {Ts : List TopicType}

/-- The message a sample is to be republished as, by a replayer with these publishers. -/
def publication (s : GenericReplayerSystem Ts) (x : Sample Ts) : Publication Ts :=
  ⟨x.pos, s.pubs x.pos, x.value, x.stampNs⟩

/-- What a fresh reader and a fresh replayer should make of a file if every advertise() succeeds:
one message for each sample, in order, on an advertised publisher of the sample's own type. -/
def Republishes (image : FileImage) (beyond : Nat → List UInt8) (now : UInt64)
    (samples : List (Sample Ts)) : Prop :=
  ∃ r s, RecordReader.open 64 beyond { file := some image }
      (some (@onTopicFound Ts (fun _ => true))) {} {} = some (true, r, s) ∧
    ∃ stop t, run 64 now r = some (stop, t) ∧
      ∃ s', s.replay r t.callbacks = some s' ∧ s'.published = samples.map (publication s) ∧
        ∀ x ∈ samples, (s.pubs x.pos).isSome

/-! The recorder's side. -/

theorem wireSize_toNat {T : TopicType} (lawful : LawfulCodec T) :
    (UInt32.ofNat T.wireSize).toNat = T.wireSize := by
  have fits := lawful.fits
  simp only [kMaxPayloadBytes] at fits
  rw [UInt32.toNat_ofNat', Nat.mod_eq_of_lt (by omega)]

/-- A pushed record carries the whole encoding of its sample. -/
theorem record_pushArgs {x : Sample Ts} (lawful : LawfulCodec (Ts.get x.pos)) :
    x.pushArgs.record = ⟨(Ts.get x.pos).id, x.stampNs, x.seq,
      UInt32.ofNat (Ts.get x.pos).wireSize, x.payload⟩ := by
  have whole : x.payload.take (UInt32.ofNat (Ts.get x.pos).wireSize).toNat = x.payload := by
    rw [wireSize_toNat lawful, List.take_of_length_le]
    rw [Sample.payload, Vector.length_toList]
  change Record.mk _ _ _ _ (x.payload.take (UInt32.ofNat (Ts.get x.pos).wireSize).toNat) = _
  rw [whole]
  rfl

section Recorder

variable (isEnabled subscribes : Fin Ts.length → Bool) {x : Sample Ts} {rec : PoppedRecord}

theorem conforms_of_sample (lawful : LawfulCodec (Ts.get x.pos))
    (subscribed : (onSetup isEnabled subscribes).2.subs x.pos = true)
    (popped : rec.record = x.pushArgs.record) :
    Conforms (onSetup isEnabled subscribes).2.enabledTopics rec := by
  rw [record_pushArgs lawful] at popped
  have id : rec.topicId = (Ts.get x.pos).id := congrArg Record.topicId popped
  have size : rec.payloadLen = UInt32.ofNat (Ts.get x.pos).wireSize :=
    congrArg Record.payloadLen popped
  have listed := info_mem_of_subs isEnabled subscribes subscribed
  refine ⟨⟨(Ts.get x.pos).info, listed, id.symm, size⟩, ?_⟩
  rw [size, wireSize_toNat lawful]
  exact lawful.fits

/-- Every topic the recorder lists is one the replayer of the same build knows. -/
theorem known_of_enabled (lawful : ∀ T ∈ Ts, LawfulCodec T) {t : ResolvedTopic}
    (mem : t ∈ (onSetup isEnabled subscribes).2.enabledTopics.map resolved) : Known Ts t := by
  obtain ⟨info, listed, rfl⟩ := List.mem_map.mp mem
  obtain ⟨i, rfl⟩ := mem_enabledTopics isEnabled subscribes listed
  exact ⟨i, rfl, wireSize_toNat (lawful _ (List.get_mem Ts i))⟩

end Recorder

/-! The replayer's side. -/

/-- Delivered what was pushed for a sample, the decoder of its type finds its value. -/
theorem publishes_of_delivered {r : RecordReader} {s : GenericReplayerSystem Ts} {c : Callback}
    {x : Sample Ts} (lawful : LawfulCodec (Ts.get x.pos))
    (same : delivered r c = x.pushArgs.record) : Publishes r s c (publication s x) := by
  rw [record_pushArgs lawful] at same
  have payload : r.payload c = x.payload := congrArg Record.bytes same
  have memory : r.memory c.payloadOffset =
      x.payload ++ (r.memory c.payloadOffset).drop c.payloadLen.toNat := by
    rw [← payload, RecordReader.payload, List.take_append_drop]
  refine ⟨(congrArg Record.topicId same).symm, ?_, (congrArg Record.stampNs same).symm, rfl⟩
  rw [memory]
  exact lawful.undo x.value x.buf _

/-- A file whose records are those pushed for some samples is replayed as these samples. -/
theorem republishes_of_parse (distinct : (Ts.map TopicType.id).Nodup)
    (lawful : ∀ T ∈ Ts, LawfulCodec T) {image : FileImage} (wf : WellFormed image.bytes)
    (beyond : Nat → List UInt8) (now : UInt64) {samples : List (Sample Ts)}
    (known : ∀ t ∈ readTable beyond image.bytes, Known Ts t)
    (played : ∀ r, Mapped r image.bytes →
      (parse (readTable beyond image.bytes) (recordsStart image.bytes)
        (image.bytes.drop (recordsStart image.bytes))).map (delivered r) =
          samples.map (fun x => x.pushArgs.record)) :
    Republishes image beyond now samples := by
  obtain ⟨ok, r, s, opened, accepted, answer⟩ :=
    open_then_run beyond now wf.nonempty (some (@onTopicFound Ts (fun _ => true))) {}
  have agreed := askHook_known distinct known ({} : GenericReplayerSystem Ts)
  obtain rfl : ok = true := (congrArg Prod.fst (answer wf)).trans agreed
  have asked : (true, s) =
      askHook (onTopicFound (fun _ => true)) (readTable beyond image.bytes) {} :=
    answer wf
  obtain ⟨keeps, advertised⟩ := askHook_advertised (fun _ => true) (readTable beyond image.bytes)
    ({} : GenericReplayerSystem Ts)
  rw [← asked] at keeps advertised
  obtain ⟨-, mapped, topics, stop, t, ran, -, callbacks⟩ := accepted rfl
  rw [topics] at callbacks
  have same := played r mapped
  rw [← callbacks] at same
  have pairs := Dispatch.map_eq_map_iff_forall₂.mp same
  have all : List.Forall₂ (Publishes r s) t.callbacks (samples.map (publication s)) := by
    rw [List.forall₂_map_right_iff]
    exact pairs.imp (fun c x same => publishes_of_delivered (lawful _ (List.get_mem Ts x.pos)) same)
  obtain ⟨s', replayed, -, published⟩ := replay_publishes distinct all
  refine ⟨r, s, opened, stop, t, ran, s', replayed, ?_, ?_⟩
  · rw [published, keeps.2]
    rfl
  · intro x hx
    have pushed : x.pushArgs.record ∈ t.callbacks.map (delivered r) := by
      rw [same]
      exact List.mem_map_of_mem hx
    obtain ⟨c, hc, handed⟩ := List.mem_map.mp pushed
    rw [callbacks] at hc
    obtain ⟨e, there, id, -⟩ := mem_parse wf.table hc
    obtain ⟨i, match_id, -, pub⟩ := advertised rfl e there
    have own : (Ts.get x.pos).id = c.topicId := (congrArg Record.topicId handed).symm
    obtain rfl := pos_unique distinct (match_id.trans (id.trans own.symm))
    exact pub

/-! End to end. -/

section EndToEnd

variable (isEnabled subscribes : Fin Ts.length → Bool) (host : Host) (fd now : Int) (o : Output)
  (image : FileImage)

/-- A file into which the records of some samples were written is replayed as these samples. -/
theorem republishes_written (distinct : (Ts.map TopicType.id).Nodup)
    (lawful : ∀ T ∈ Ts, LawfulCodec T) {samples : List (Sample Ts)}
    (subscribed : ∀ x ∈ samples, (onSetup isEnabled subscribes).2.subs x.pos = true)
    (opened : (openWriter isEnabled subscribes host fd now o).1 = true) {recs : List PoppedRecord}
    (handed : recs.map PoppedRecord.record = samples.map (fun x => x.pushArgs.record))
    (all : AllWritten host (openWriter isEnabled subscribes host fd now o).2 recs)
    (written : image.bytes =
      (writeRecords host (openWriter isEnabled subscribes host fd now o).2 recs).disk.file)
    (beyond : Nat → List UInt8) (replayNow : UInt64) :
    Republishes image beyond replayNow samples := by
  obtain ⟨fd_ok, header⟩ := openFile_file opened
  have bytes : image.bytes = headerBytes host.createdAtNs
      (onSetup isEnabled subscribes).2.enabledTopics ++
        (((recs.map PoppedRecord.record).map recordBytes).flatten ++ []) := by
    rw [written, openWriter, writeRecords_file_of_written fd_ok all, header, List.append_nil,
      List.map_map]
    rfl
  have few := enabledTopics_few isEnabled subscribes distinct
  have nodup := topicId_nodup isEnabled subscribes distinct
  have fits : ∀ r ∈ recs.map PoppedRecord.record,
      Fits (onSetup isEnabled subscribes).2.enabledTopics r := by
    intro r hr
    obtain ⟨rec, -, rfl⟩ := List.mem_map.mp hr
    rw [handed] at hr
    obtain ⟨x, hx, same⟩ := List.mem_map.mp hr
    exact (conforms_of_sample isEnabled subscribes (lawful _ (List.get_mem Ts x.pos))
      (subscribed x hx) same.symm).fits
  obtain ⟨wf, table, played⟩ :=
    written_format host.createdAtNs few nodup fits Framing.frames_nil bytes
  apply republishes_of_parse distinct lawful wf beyond replayNow
  · intro t ht
    rw [table beyond] at ht
    exact known_of_enabled isEnabled subscribes lawful ht
  · intro r mapped
    rw [table beyond, ← handed]
    exact played r mapped

/-- Whatever samples arrive and whenever the writer thread pops: the file it writes is replayed as
the samples it popped, in that order, bit for bit and with their stamps. The joystick's codec is
one of those that are asked for. -/
theorem recording_republished (distinct : (Ts.map TopicType.id).Nodup)
    (lawful : ∀ T ∈ Ts, LawfulCodec T) (cap : Capacity) (steps : List (RecorderStep Ts))
    (subscribed : ∀ x, .sample x ∈ steps → (onSetup isEnabled subscribes).2.subs x.pos = true)
    (opened : (openWriter isEnabled subscribes host fd now o).1 = true)
    (all : AllWritten host (openWriter isEnabled subscribes host fd now o).2
      (RecorderStep.handed cap steps))
    (written : image.bytes = (writeRecords host
      (openWriter isEnabled subscribes host fd now o).2 (RecorderStep.handed cap steps)).disk.file)
    (beyond : Nat → List UInt8) (replayNow : UInt64) :
    LawfulCodec joy ∧ ∃ accepted samples : List (Sample Ts),
      accepted.Sublist (steps.filterMap RecorderStep.sample?) ∧
      (RecorderStep.ledger cap steps).accepted = accepted.map Sample.pushArgs ∧
      (RecorderStep.ledger cap steps).popped.map (fun p => accepted[p.1]?) = samples.map some ∧
      Republishes image beyond replayNow samples := by
  obtain ⟨accepted, among, pushed⟩ := RecorderStep.accepted_samples cap steps
  obtain ⟨samples, each⟩ := Dispatch.exists_forall₂
    (fun p popped => RecorderStep.popped_sample pushed popped)
  have numbers : (RecorderStep.ledger cap steps).popped.map (fun p => accepted[p.1]?) =
      samples.map some :=
    Dispatch.map_eq_map_iff_forall₂.mpr (each.imp (fun _ _ h => h.1))
  have records : (RecorderStep.ledger cap steps).popped.map (fun p => p.2.record) =
      samples.map (fun x => x.pushArgs.record) :=
    Dispatch.map_eq_map_iff_forall₂.mpr (each.imp (fun _ _ h => h.2))
  refine ⟨lawful_joy, accepted, samples, among, pushed, numbers, ?_⟩
  have arrived : ∀ x ∈ samples, (onSetup isEnabled subscribes).2.subs x.pos = true := by
    intro x hx
    have named : some x ∈ samples.map some := List.mem_map_of_mem hx
    rw [← numbers] at named
    obtain ⟨p, -, found⟩ := List.mem_map.mp named
    exact subscribed x (RecorderStep.mem_of_sample (among.subset (List.mem_of_getElem? found)))
  apply republishes_written isEnabled subscribes host fd now o image distinct lawful arrived opened
    ?_ all written beyond replayNow
  rw [RecorderStep.handed, List.map_map]
  exact records

end EndToEnd

/-- A joystick message with a signalling and a quiet NaN on its axes. -/
def nanSample : Sample AllTopics where
  pos := ⟨0, by decide⟩
  value := ⟨5, 0x7F800001, 0xFFC00000, true, false, true, false, false, true⟩
  stampNs := 7
  seq := 1
  buf := Vector.replicate 22 0xAA

def nanSteps : List (RecorderStep AllTopics) := [.sample nanSample, .pop {}]

theorem nanSteps_popped :
    (RecorderStep.ledger pair nanSteps).popped.map Prod.fst = [0] := by
  decide +kernel

/-- Every topic enabled, and every subscription made. -/
def allOn : GenericRecorderSystem AllTopics := (onSetup (fun _ => true) (fun _ => true)).2

def nanSession : Bool × Output :=
  @openWriter AllTopics (fun _ => true) (fun _ => true) byteByByte 3 0 {}

def nanFile : List UInt8 :=
  (writeRecords byteByByte nanSession.2 (RecorderStep.handed pair nanSteps)).disk.file

theorem nanSession_ok : nanSession.1 = true :=
  openFile_ok byteByByte_succeed allOn.enabledTopics (by decide) 0 {}

theorem length_nanFile : nanFile.length < 2 ^ 63 := by
  obtain ⟨fd_ok, header⟩ := openFile_file nanSession_ok
  rw [nanFile, nanSession, openWriter, writeRecords_file byteByByte_succeed _ fd_ok, header]
  decide +kernel

theorem subs_allOn : ∀ i, allOn.subs i = true := by decide

theorem recording_republished_nan :
    Republishes ⟨nanFile, length_nanFile⟩ (fun _ => []) 0 [nanSample] := by
  obtain ⟨fd_ok, -⟩ := openFile_file nanSession_ok
  obtain ⟨-, accepted, samples, among, -, numbers, republishes⟩ := recording_republished
    (fun _ => true) (fun _ => true) byteByByte 3 0 {} ⟨nanFile, length_nanFile⟩
    (show (AllTopics.map TopicType.id).Nodup by decide)
    (fun T mem => List.mem_singleton.mp mem ▸ lawful_joy) pair nanSteps
    (fun x _ => subs_allOn x.pos) nanSession_ok (allWritten_of_succeed byteByByte_succeed _ fd_ok)
    rfl (fun _ => []) 0
  have one : samples.length = 1 := by
    have lengths := congrArg List.length numbers
    have popped := congrArg List.length nanSteps_popped
    simp only [List.length_map, List.length_singleton] at lengths popped
    rw [← lengths, popped]
  have same : samples = [nanSample] := by
    refine (List.eq_replicate_iff.mpr ⟨one, ?_⟩ : samples = List.replicate 1 nanSample)
    intro x hx
    have named : some x ∈ samples.map some := List.mem_map_of_mem hx
    rw [← numbers] at named
    obtain ⟨p, -, found⟩ := List.mem_map.mp named
    exact List.mem_singleton.mp (among.subset (List.mem_of_getElem? found))
  rwa [same] at republishes

end ChronoCap.ReplayFidelity

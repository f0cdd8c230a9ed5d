/- module: ChronoCap/CrashRecovery
   source: src/core/record_writer.cpp, src/core/record_reader.cpp, src/i2wRecorder.cpp,
           include/chrono_cap/generic_recorder.hpp, include/chrono_cap/generic_replayer.hpp
   digest: What a replayer makes of the file of a recorder that stopped at any point, with any part
           of what it did not fsync. -/

import ChronoCap.I2wRecorder
import ChronoCap.PeriodicFlush
import ChronoCap.ReplayFidelity
import ChronoCap.Truncation

set_option autoImplicit false
set_option relaxedAutoImplicit false

namespace ChronoCap.CrashRecovery

open ChronoCap.Foundation
open ChronoCap.Ring
open ChronoCap.WriterThread
open ChronoCap.RecordReader
open ChronoCap.RecordGrammar
open ChronoCap.FileGrammar
open ChronoCap.RoundTrip
open ChronoCap.GenericRecorderSystem
open ChronoCap.GenericReplayerSystem
open ChronoCap.ReplayFidelity
open ChronoCap.I2wRecorder

variable {Ts : List TopicType} {cap : Capacity}

/-! From the samples that arrive to the records that are written. -/

def sample? : I2wRecorder.Event Ts → Option (Sample Ts)
  | .sample x => some x
  | _ => none

/-- The samples that arrive in a run, in order. -/
def arrived (events : List (I2wRecorder.Event Ts)) : List (Sample Ts) := events.filterMap sample?

/-- A sample of a type that is enabled and was subscribed to. -/
def Wanted (config : LoggerConfig) (subscribes : Fin Ts.length → Bool) (x : Sample Ts) : Prop :=
  enabledAt config x.pos = true ∧ subscribes x.pos = true

/-- What the ring accepted are samples, in the order of their arrival; what a session popped is
written, but for the record in hand. -/
structure Traced (config : LoggerConfig) (subscribes : Fin Ts.length → Bool)
    (events : List (I2wRecorder.Event Ts)) (r : Recorder Ts cap) : Prop where
  accepted : ∃ xs : List (Sample Ts), xs.Sublist (arrived events) ∧
    (∀ x ∈ xs, Wanted config subscribes x) ∧ r.writer.ledger.accepted = xs.map Sample.pushArgs
  openedAt : r.writer.openedAt ≤ r.writer.ledger.popped.length
  handed : r.opened = true →
    r.written ++ (if r.writer.thread.holds then [r.writer.record] else []) =
      (r.writer.ledger.popped.drop r.writer.openedAt).map Prod.snd

variable {config : LoggerConfig} {subscribes : Fin Ts.length → Bool} {host : Host}
  {flushInterval : Int} {events : List (I2wRecorder.Event Ts)} {r : Recorder Ts cap}

theorem traced_init : Traced config subscribes [] ({} : Recorder Ts cap) where
  accepted := ⟨[], List.Sublist.refl _, fun _ h => absurd h List.not_mem_nil, rfl⟩
  openedAt := Nat.le_refl _
  handed h := absurd h Bool.false_ne_true

/-- An event that brings no sample and leaves ring and writer alone. -/
theorem Traced.keep (inv : Traced config subscribes events r) {event : I2wRecorder.Event Ts}
    (quiet : sample? event = none) {r' : Recorder Ts cap}
    (accepted : r'.writer.ledger.accepted = r.writer.ledger.accepted)
    (openedAt : r'.writer.openedAt ≤ r'.writer.ledger.popped.length)
    (handed : r'.opened = true →
      r'.written ++ (if r'.writer.thread.holds then [r'.writer.record] else []) =
        (r'.writer.ledger.popped.drop r'.writer.openedAt).map Prod.snd) :
    Traced config subscribes (events ++ [event]) r' where
  accepted := by
    obtain ⟨xs, among, wanted, same⟩ := inv.accepted
    refine ⟨xs, ?_, wanted, accepted.trans same⟩
    rw [arrived, List.filterMap_append, List.filterMap_cons_none quiet, List.filterMap_nil,
      List.append_nil]
    exact among
  openedAt := openedAt
  handed := handed

theorem Traced.sample (inv : Traced config subscribes events r) {x : Sample Ts}
    (wanted : Wanted config subscribes x) :
    Traced config subscribes (events ++ [.sample x])
      { r with writer := { r.writer with ledger := r.writer.ledger.push x.pushArgs } } where
  accepted := by
    obtain ⟨xs, among, all, same⟩ := inv.accepted
    have arrives : arrived (events ++ [.sample x]) = arrived events ++ [x] :=
      List.filterMap_append
    rw [arrives, Ledger.accepted_push]
    split
    · refine ⟨xs ++ [x], among.append (List.Sublist.refl _), ?_, ?_⟩
      · intro y hy
        rcases List.mem_append.mp hy with old | new
        · exact all y old
        · exact List.mem_singleton.mp new ▸ wanted
      · rw [same, List.map_append]
        rfl
    · exact ⟨xs, among.trans (List.sublist_append_left _ _), all, same⟩
  openedAt := by
    rw [Ledger.popped_push]
    exact inv.openedAt
  handed h := by
    rw [Ledger.popped_push]
    exact inv.handed h

/-- Whichever step the writer thread makes, a record goes from the ring into its hand, and from its
hand into the file. -/
theorem handed_thread {w v : RecordWriter cap} (step : RecordWriter.ThreadStep host w v)
    (openedAt : w.openedAt ≤ w.ledger.popped.length) {written : List PoppedRecord}
    (handed : written ++ (if w.thread.holds then [w.record] else []) =
      (w.ledger.popped.drop w.openedAt).map Prod.snd) :
    (if w.thread.holds then written ++ [w.record] else written) ++
        (if v.thread.holds then [v.record] else []) =
      (v.ledger.popped.drop v.openedAt).map Prod.snd := by
  cases step with
  | @pop popped empty free _ holds _ lets_go =>
      rw [free] at handed ⊢
      simp only [Bool.false_eq_true, if_false, List.append_nil] at handed ⊢
      by_cases ready : w.ledger.Ready (cap.slot w.ledger.ring.readIndex)
      · obtain ⟨n, rec, eq, logged⟩ := w.tryPop_true popped empty ready
        rw [eq]
        simp only [holds, if_true, logged]
        rw [List.drop_append_of_le_length openedAt, List.map_append, ← handed]
        rfl
      · rw [w.tryPop_false popped empty ready]
        simp only [lets_go, Bool.false_eq_true, if_false, List.append_nil]
        exact handed
  | @write next holds _ lets_go =>
      rw [holds] at handed ⊢
      simp only [if_true, RecordWriter.write, lets_go, Bool.false_eq_true, if_false,
        List.append_nil] at handed ⊢
      exact handed
  | move free _ lets_go =>
      rw [free] at handed ⊢
      simp only [lets_go, Bool.false_eq_true, if_false, List.append_nil] at handed ⊢
      exact handed

theorem Traced.thread (inv : Traced config subscribes events r)
    (recorded : Recorded config subscribes host r) (running : r.writer.thread ≠ .none)
    (now : Int) :
    Traced config subscribes (events ++ [.thread now]) { r with
      writer := r.writer.writerThreadMain host flushInterval now
      written :=
        if r.writer.thread.holds then r.written ++ [r.writer.record] else r.written } := by
  have step := RecordWriter.threadStep host flushInterval now r.writer running
  have moves := step.moves
  obtain ⟨opened, -⟩ := recorded.running running
  have handed := handed_thread step inv.openedAt (inv.handed opened)
  refine inv.keep rfl moves.accepted ?_ (fun _ => handed)
  rw [moves.openedAt]
  refine Nat.le_trans inv.openedAt ?_
  rcases moves.ring with ⟨same, -⟩ | ⟨n, -, logged⟩
  · rw [same]
  · rw [logged, List.length_append]
    exact Nat.le_add_right _ _

theorem Traced.openCall (inv : Traced config subscribes events r) (fd now : Int) :
    Traced config subscribes (events ++ [.openCall fd now]) { r with
      writer := r.writer.openCall host r.system.enabledTopics fd now
      written := []
      opened := (r.writer.out.openFile host r.system.enabledTopics fd now).1 } := by
  unfold RecordWriter.openCall
  dsimp only
  split
  · refine inv.keep rfl rfl (Nat.le_refl _) ?_
    intro _
    simp [ThreadPc.holds]
  · rename_i bad
    exact inv.keep rfl rfl inv.openedAt (fun good => absurd good bad)

theorem Traced.next (inv : Traced config subscribes events r)
    (recorded : Recorded config subscribes host r) {event : I2wRecorder.Event Ts}
    (enabled : (machine config subscribes host flushInterval).Enabled r event) :
    Traced config subscribes (events ++ [event])
      ((machine config subscribes host flushInterval).next r event) := by
  cases event with
  | subscribe =>
      obtain ⟨i, head, -, -⟩ := enabled
      obtain ⟨rest, todo⟩ := List.head?_eq_some_iff.mp head
      simp only [machine, todo]
      exact inv.keep rfl rfl inv.openedAt inv.handed
  | setupOne =>
      obtain ⟨i, head, -⟩ := enabled
      obtain ⟨rest, todo⟩ := List.head?_eq_some_iff.mp head
      simp only [machine, todo]
      exact inv.keep rfl rfl inv.openedAt inv.handed
  | sample x => exact inv.sample (recorded.live x.pos enabled)
  | openCall fd now => exact inv.openCall fd now
  | thread now => exact inv.thread recorded enabled.1 now
  | close =>
      change Traced _ _ _ { r with writer := r.writer.close }
      unfold RecordWriter.close
      split <;> exact inv.keep rfl rfl inv.openedAt inv.handed
  | join =>
      have done : r.writer.thread = .done := enabled.2
      refine inv.keep rfl rfl inv.openedAt ?_
      intro opened
      have handed := inv.handed opened
      rw [done] at handed
      exact handed

theorem traced_of_run
    (run : (machine config subscribes host flushInterval).Run Machine.Free
      ({} : Recorder Ts cap) events r) : Traced config subscribes events r := by
  induction run with
  | nil => exact traced_init
  | snoc prior enabled _ ih => exact ih.next (recorded_of_run prior) enabled

/-! The samples of a session. -/

theorem filterMap_of_map {α β : Type*} {f : α → Option β} {l : List α} {m : List β}
    (found : l.map f = m.map some) : l.filterMap f = m := by
  have chosen := congrArg (List.filterMap id) found
  rwa [List.filterMap_map, List.filterMap_map, Function.id_comp, Function.id_comp,
    List.filterMap_some] at chosen

/-- What is popped was pushed for a sample, and for another one each time. -/
theorem samples_of_popped {t : Ledger cap} (conserved : t.Conserved) {xs : List (Sample Ts)}
    (accepted : t.accepted = xs.map Sample.pushArgs) {ps : List (Nat × PoppedRecord)}
    (popped : ps.Sublist t.popped) :
    ∃ samples : List (Sample Ts), samples.Subperm xs ∧
      ps.map (fun p => p.2.record) = samples.map (fun x => x.pushArgs.record) := by
  have each : ∀ p ∈ ps, ∃ x, xs[p.1]? = some x ∧ p.2.record = x.pushArgs.record := by
    intro p hp
    obtain ⟨number, -⟩ := conserved.drained p (popped.subset hp)
    rw [Ledger.record, accepted, List.map_map, List.getElem?_map] at number
    obtain ⟨x, found, same⟩ := Option.map_eq_some_iff.mp number
    exact ⟨x, found, same.symm⟩
  obtain ⟨samples, all⟩ := Dispatch.exists_forall₂ each
  have found : (ps.map Prod.fst).map (fun n => xs[n]?) = samples.map some := by
    rw [List.map_map]
    exact Dispatch.map_eq_map_iff_forall₂.mpr (all.imp (fun _ _ h => h.1))
  have chosen : (ps.map Prod.fst).Subperm (List.range xs.length) := by
    apply List.subperm_of_subset (conserved.numbers_nodup.sublist (popped.map _))
    intro n hn
    obtain ⟨p, hp, rfl⟩ := List.mem_map.mp hn
    obtain ⟨x, at_n, -⟩ := each p hp
    exact List.mem_range.mpr (List.getElem?_eq_some_iff.mp at_n).1
  have whole : (List.range xs.length).filterMap (fun n => xs[n]?) = xs := by
    apply filterMap_of_map
    apply List.ext_getElem
    · simp
    · intro n hn _
      simp at hn
      simp [hn]
  obtain ⟨l, perm, sub⟩ := chosen
  refine ⟨samples, ?_, Dispatch.map_eq_map_iff_forall₂.mpr (all.imp (fun _ _ h => h.2))⟩
  refine ⟨l.filterMap (fun n => xs[n]?), ?_, ?_⟩
  · rw [← filterMap_of_map found]
    exact perm.filterMap _
  · have among := sub.filterMap (fun n => xs[n]?)
    rwa [whole] at among

/-- The records written in this session, each with the number of its push. -/
theorem Traced.written (inv : Traced config subscribes events r) (opened : r.opened = true) :
    ∃ ps : List (Nat × PoppedRecord), ps.Sublist (r.writer.ledger.popped.drop r.writer.openedAt) ∧
      r.written = ps.map Prod.snd := by
  refine ⟨(r.writer.ledger.popped.drop r.writer.openedAt).take r.written.length,
    List.take_sublist _ _, ?_⟩
  rw [List.map_take, ← inv.handed opened, List.take_left]

theorem Traced.samples (inv : Traced config subscribes events r)
    (conserved : r.writer.ledger.Conserved) (opened : r.opened = true) :
    ∃ samples : List (Sample Ts), samples.Subperm (arrived events) ∧
      (∀ x ∈ samples, Wanted config subscribes x) ∧
      r.written.map PoppedRecord.record = samples.map (fun x => x.pushArgs.record) := by
  obtain ⟨xs, among, wanted, accepted⟩ := inv.accepted
  obtain ⟨ps, popped, written⟩ := inv.written opened
  obtain ⟨samples, chosen, records⟩ :=
    samples_of_popped conserved accepted (popped.trans (List.drop_sublist _ _))
  refine ⟨samples, chosen.trans among.subperm, fun x hx => wanted x (chosen.subset hx), ?_⟩
  rw [written, List.map_map]
  exact records

/-! The file. -/

/-- What the file of a session should hold: header, table, and the records written. -/
def pieces (r : Recorder Ts cap) : List (List UInt8) :=
  r.written.map (fun rec => recordBytes rec.record)

theorem file_of_succeed (succeed : host.io.Succeed) (recorded : Recorded config subscribes host r)
    (opened : r.opened = true) :
    r.writer.out.disk.file =
      headerBytes host.createdAtNs r.writer.topics ++ (pieces r).flatten := by
  obtain ⟨left, leave, file⟩ := recorded.file opened
  have whole : left = pieces r := by
    have each := leave.imp (fun _ _ leaves => leaves.2 succeed)
    have same := Dispatch.map_eq_map_iff_forall₂ (f := id).mpr each
    rwa [List.map_id] at same
  rw [file, whole]

/-- The table of a session is what OnSetup has listed. -/
theorem topics_eq (recorded : Recorded config subscribes host r) (opened : r.opened = true) :
    r.writer.topics = (onSetup (enabledAt config) subscribes).2.enabledTopics := by
  obtain ⟨done, -, topics⟩ := recorded.table opened
  have setup := recorded.setup
  rw [done] at setup
  rw [topics, ← setup]
  rfl

/-- Each sample of a session fits the table of its file. -/
theorem fits_written (recorded : Recorded config subscribes host r) (opened : r.opened = true)
    (lawful : ∀ T ∈ Ts, LawfulCodec T) {samples : List (Sample Ts)}
    (wanted : ∀ x ∈ samples, Wanted config subscribes x)
    (records : r.written.map PoppedRecord.record = samples.map (fun x => x.pushArgs.record)) :
    ∀ rec ∈ r.written.map PoppedRecord.record, Fits r.writer.topics rec := by
  intro rec hrec
  obtain ⟨popped, -, rfl⟩ := List.mem_map.mp hrec
  rw [records] at hrec
  obtain ⟨x, hx, same⟩ := List.mem_map.mp hrec
  have subscribed : (onSetup (enabledAt config) subscribes).2.subs x.pos = true := by
    rw [(onSetup_lists (enabledAt config) subscribes).subs x.pos]
    simp [(wanted x hx).1, (wanted x hx).2]
  rw [topics_eq recorded opened]
  exact (conforms_of_sample (enabledAt config) subscribes (lawful _ (List.get_mem Ts x.pos))
    subscribed same.symm).fits

/-- Where in the file the first `j` records of the session end. -/
def recordsEnd (host : Host) (r : Recorder Ts cap) (j : Nat) : Nat :=
  (headerBytes host.createdAtNs r.writer.topics).length + ((pieces r).take j).flatten.length

/-- What is left of the file: less than the table, or the table and part of the records. -/
theorem image_cases {header records image : List UInt8} (before : image <+: header ++ records) :
    image.length < header.length ∨
      image = header ++ records.take (image.length - header.length) := by
  rcases Nat.lt_or_ge image.length header.length with short | long
  · exact .inl short
  · right
    have same := List.prefix_iff_eq_take.mp before
    rwa [List.take_append, List.take_of_length_le long] at same

/-- Of the records written, a cut region shows those that are whole. -/
theorem frames_kept {topics : List TopicInfo} (distinct : (topics.map TopicInfo.topicId).Nodup)
    (fits : ∀ rec ∈ r.written.map PoppedRecord.record, Fits topics rec)
    {samples : List (Sample Ts)}
    (records : r.written.map PoppedRecord.record = samples.map (fun x => x.pushArgs.record))
    (n : Nat) :
    ((RecordGrammar.records (topics.map resolved)).frames ((pieces r).flatten.take n)).map
        frameRecord =
      (samples.take (Framing.upTo n (pieces r)).length).map (fun x => x.pushArgs.record) := by
  have isFrame : ∀ f ∈ pieces r, (RecordGrammar.records (topics.map resolved)).IsFrame f := by
    intro f hf
    obtain ⟨rec, hrec, rfl⟩ := List.mem_map.mp hf
    exact isFrame_recordBytes distinct (fits _ (List.mem_map_of_mem hrec))
  have whole := Framing.frames_flatten_append isFrame []
  rw [List.append_nil, Framing.frames_nil, List.append_nil] at whole
  have carried : (pieces r).map frameRecord = r.written.map PoppedRecord.record := by
    rw [pieces, List.map_map]
    apply List.map_congr_left
    intro rec hrec
    obtain ⟨-, -, -, -, length⟩ := fits _ (List.mem_map_of_mem hrec)
    exact frameRecord_recordBytes length
  rw [Framing.frames_take, whole]
  conv_lhs => rw [Framing.upTo_eq_take]
  rw [List.map_take, carried, records, ← List.map_take]

section Image

variable (recorded : Recorded config subscribes host r) (opened : r.opened = true)
  (succeed : host.io.Succeed) (distinct : (Ts.map TopicType.id).Nodup)
  (lawful : ∀ T ∈ Ts, LawfulCodec T) {image : FileImage}
  (before : image.bytes <+: r.writer.out.disk.file)

include recorded opened succeed distinct before

/-- Without its whole table the file is refused. -/
theorem refused_of_short (short : image.bytes.length < recordsEnd host r 0)
    (beyond : Nat → List UInt8) (advertise : Nat → Bool) (s : GenericReplayerSystem Ts) :
    ∃ reader s', RecordReader.open 64 beyond { file := some image }
      (some (onTopicFound advertise)) {} s = some (false, reader, s') := by
  have few : r.writer.topics.length < 2 ^ 32 := by
    rw [topics_eq recorded opened]
    exact enabledTopics_few (enabledAt config) subscribes distinct
  by_cases empty : image.bytes = []
  · obtain ⟨reader, refused⟩ := open_empty beyond empty (some (onTopicFound advertise)) s
    exact ⟨reader, s, refused⟩
  · obtain ⟨ok, reader, s', answer, accepted, -⟩ :=
      open_spec beyond empty (some (onTopicFound advertise)) s
    cases ok with
    | false => exact ⟨reader, s', answer⟩
    | true =>
        obtain ⟨wf, -⟩ := accepted rfl
        rw [file_of_succeed succeed recorded opened] at before
        have header := Truncation.recordsStart_take (F := headerBytes host.createdAtNs
          r.writer.topics ++ (pieces r).flatten) wf.header
        rw [← List.prefix_iff_eq_take.mp before,
          ← length_headerBytes host.createdAtNs few] at header
        have table := wf.table
        simp only [recordsEnd, List.take_zero, List.flatten_nil, List.length_nil,
          Nat.add_zero] at short
        omega

include lawful

/-- With its table it is replayed as the samples whose records are whole. -/
theorem republishes_image {samples : List (Sample Ts)}
    (wanted : ∀ x ∈ samples, Wanted config subscribes x)
    (records : r.written.map PoppedRecord.record = samples.map (fun x => x.pushArgs.record))
    (long : recordsEnd host r 0 ≤ image.bytes.length) (beyond : Nat → List UInt8)
    (now : UInt64) :
    ∃ k ≤ samples.length,
      (∀ j ≤ samples.length, j ≤ k ↔ recordsEnd host r j ≤ image.bytes.length) ∧
        Republishes image beyond now (samples.take k) := by
  have topics := topics_eq recorded opened
  have few : r.writer.topics.length < 2 ^ 32 := by
    rw [topics]
    exact enabledTopics_few (enabledAt config) subscribes distinct
  have nodup : (r.writer.topics.map TopicInfo.topicId).Nodup := by
    rw [topics]
    exact topicId_nodup (enabledAt config) subscribes distinct
  have fits := fits_written recorded opened lawful wanted records
  have count : (pieces r).length = samples.length := by
    have lengths := congrArg List.length records
    rw [List.length_map, List.length_map] at lengths
    rw [pieces, List.length_map, lengths]
  simp only [recordsEnd, List.take_zero, List.flatten_nil, List.length_nil, Nat.add_zero] at long
  rw [file_of_succeed succeed recorded opened] at before
  have bytes := (image_cases before).resolve_left (Nat.not_lt_of_le long)
  generalize left : image.bytes.length - (headerBytes host.createdAtNs r.writer.topics).length = n
    at bytes
  have region : image.bytes = headerBytes host.createdAtNs r.writer.topics ++
      ((([] : List Record).map recordBytes).flatten ++ (pieces r).flatten.take n) := bytes
  obtain ⟨wf, table, played⟩ := written_format_append host.createdAtNs few nodup
    (fun rec none => absurd none List.not_mem_nil) region
  refine ⟨(Framing.upTo n (pieces r)).length, ?_, ?_, ?_⟩
  · rw [← count, Framing.upTo_eq_take, List.length_take]
    exact Nat.min_le_right _ _
  · intro j hj
    rw [Framing.le_length_upTo_iff (hj.trans_eq count.symm), recordsEnd]
    omega
  · apply republishes_of_parse distinct lawful wf beyond now
    · intro t ht
      rw [table beyond, topics] at ht
      exact known_of_enabled (enabledAt config) subscribes lawful ht
    · intro reader mapped
      rw [table beyond, played reader mapped, List.nil_append]
      exact frames_kept nodup fits records n

end Image

/-- The file grows, and what is synced stays so. -/
structure Later (o o' : Output) : Prop where
  file : o.disk.file.length ≤ o'.disk.file.length
  synced : o'.disk.synced = o.disk.synced ∨ o'.disk.synced = o'.disk.file.length

theorem Later.refl (o : Output) : Later o o := ⟨Nat.le_refl _, .inl rfl⟩

theorem later_writeRecord {o : Output} (opened : 0 ≤ o.binFd) (rec : PoppedRecord) :
    Later o (writeRecord host o rec).2 := by
  obtain ⟨-, k, -, file, -⟩ := @writeRecord_file host o opened rec
  refine ⟨?_, .inl ?_⟩
  · rw [file, List.length_append]
    exact Nat.le_add_right _ _
  · obtain ⟨d, same, answer⟩ := writeRecord_cases host o rec
    rcases answer with failed | whole
    · rw [failed]
      exact same
    · rw [whole]
      exact same

theorem later_maybeFlush {o : Output} (opened : 0 ≤ o.binFd) (flushInterval now : Int) :
    Later o (o.maybeFlush flushInterval now) := by
  refine ⟨by rw [maybeFlush_file], ?_⟩
  by_cases due : o.Due flushInterval now
  · rw [maybeFlush_of_due opened due]
    exact .inr rfl
  · rw [maybeFlush_of_not_due due]
    exact .inl rfl

theorem later_close (o : Output) : Later o (Output.close o) := by
  unfold Output.close
  split
  · exact ⟨Nat.le_refl _, .inr rfl⟩
  · exact Later.refl o

theorem later_thread (recorded : Recorded config subscribes host r)
    (running : r.writer.thread ≠ .none) (now : Int) :
    Later r.writer.out (r.writer.writerThreadMain host flushInterval now).out := by
  obtain ⟨-, opened⟩ := recorded.running running
  rw [PeriodicFlush.Counted.writerThreadMain_out]
  split
  · exact later_writeRecord opened _
  · split
    · exact later_maybeFlush opened flushInterval now
    · exact Later.refl _

/-- Any event but Open. -/
def InSession (_ : Recorder Ts cap) : I2wRecorder.Event Ts → Prop
  | .openCall _ _ => False
  | _ => True

instance (r : Recorder Ts cap) : DecidablePred (InSession r)
  | .openCall _ _ => .isFalse id
  | .subscribe => .isTrue trivial
  | .setupOne => .isTrue trivial
  | .sample _ => .isTrue trivial
  | .thread _ => .isTrue trivial
  | .close => .isTrue trivial
  | .join => .isTrue trivial

/-- A later point of a session, of which `n` bytes had been synced when `written` had been. -/
structure Since (topics : List TopicInfo) (written : List PoppedRecord) (n : Nat)
    (r : Recorder Ts cap) : Prop where
  opened : r.opened = true
  topics : r.writer.topics = topics
  written : written <+: r.written
  kept : n ≤ r.writer.out.disk.synced
  synced : r.writer.out.disk.synced ≤ r.writer.out.disk.file.length

variable {topics : List TopicInfo} {written : List PoppedRecord} {n : Nat}

theorem Since.later (since : Since topics written n r) {r' : Recorder Ts cap}
    (opened : r'.opened = r.opened) (topics' : r'.writer.topics = r.writer.topics)
    (more : r.written <+: r'.written) (later : Later r.writer.out r'.writer.out) :
    Since topics written n r' := by
  refine ⟨opened.trans since.opened, topics'.trans since.topics, since.written.trans more, ?_, ?_⟩
  · rcases later.synced with same | all
    · exact since.kept.trans_eq same.symm
    · rw [all]
      exact (since.kept.trans since.synced).trans later.file
  · rcases later.synced with same | all
    · rw [same]
      exact since.synced.trans later.file
    · exact all.le

theorem Since.next (since : Since topics written n r)
    (recorded : Recorded config subscribes host r) {event : I2wRecorder.Event Ts}
    (enabled : (machine config subscribes host flushInterval).Enabled r event)
    (inside : InSession r event) :
    Since topics written n ((machine config subscribes host flushInterval).next r event) := by
  cases event with
  | subscribe =>
      obtain ⟨i, head, -, -⟩ := enabled
      obtain ⟨rest, todo⟩ := List.head?_eq_some_iff.mp head
      simp only [machine, todo]
      exact since.later rfl rfl (List.prefix_refl _) (Later.refl _)
  | setupOne =>
      obtain ⟨i, head, -⟩ := enabled
      obtain ⟨rest, todo⟩ := List.head?_eq_some_iff.mp head
      simp only [machine, todo]
      exact since.later rfl rfl (List.prefix_refl _) (Later.refl _)
  | sample x => exact since.later rfl rfl (List.prefix_refl _) (Later.refl _)
  | openCall fd now => exact inside.elim
  | thread now =>
      have moves := (RecordWriter.threadStep host flushInterval now r.writer enabled.1).moves
      refine since.later rfl moves.topics ?_ (later_thread recorded enabled.1 now)
      change r.written <+:
        if r.writer.thread.holds then r.written ++ [r.writer.record] else r.written
      split
      · exact List.prefix_append _ _
      · exact List.prefix_refl _
  | close =>
      change Since _ _ _ { r with writer := r.writer.close }
      unfold RecordWriter.close
      split
      · exact since.later rfl rfl (List.prefix_refl _) (later_close _)
      · exact since.later rfl rfl (List.prefix_refl _) (Later.refl _)
  | join => exact since.later rfl rfl (List.prefix_refl _) (later_close _)

/-- When Close returns the whole file is synced. -/
theorem synced_of_join (recorded : Recorded config subscribes host r)
    (returns : (machine config subscribes host flushInterval).Enabled r .join) :
    r.writer.join.out.disk.synced = r.writer.join.out.disk.file.length := by
  have running : r.writer.thread ≠ .none := by
    rw [returns.2]
    simp
  obtain ⟨-, opened⟩ := recorded.running running
  simp only [RecordWriter.join, Output.close, if_pos opened, Output.fsync]

theorem since_of_run {u : Recorder Ts cap} {later : List (I2wRecorder.Event Ts)}
    (first : (machine config subscribes host flushInterval).Run Machine.Free {} events u)
    (opened : u.opened = true)
    (flushed : u.writer.out.disk.synced = u.writer.out.disk.file.length)
    (after : (machine config subscribes host flushInterval).Run InSession u later r) :
    Since u.writer.topics u.written u.writer.out.disk.file.length r := by
  induction after with
  | nil => exact ⟨opened, rfl, List.prefix_refl _, flushed.ge, flushed.le⟩
  | snoc prior enabled inside ih =>
      exact ih.next (recorded_of_run (first.trans prior.free)) enabled inside

def oneSample : List (I2wRecorder.Event AllTopics) :=
  [.subscribe, .sample firstSample, .setupOne] ++ [.openCall 3 0] ++
    [.thread 0, .thread 0, .thread 0]

theorem run_oneSample : joystick.Run Machine.Free {} oneSample firstWritten := by
  have before : joystick.Run Machine.Free {} [.subscribe, .sample firstSample, .setupOne] setUp :=
    Machine.run_of_fires (by decide)
  have opens : joystick.Run Machine.Free setUp [.openCall 3 0] started := by
    rw [← next_setUp]
    exact Machine.Run.single (by decide) trivial
  exact (before.trans opens).trans (Machine.run_of_fires (by decide))

def closing : List (I2wRecorder.Event AllTopics) := [.close] ++ List.replicate 5 (.thread 0)

def closed : Recorder AllTopics pair :=
  joystick.next (closing.foldl joystick.next firstWritten) .join

theorem run_closing : joystick.Run Machine.Free {} (oneSample ++ closing)
    (closing.foldl joystick.next firstWritten) :=
  run_oneSample.trans (Machine.run_of_fires (by decide))

theorem run_closed :
    joystick.Run Machine.Free {} (oneSample ++ closing ++ [.join]) closed :=
  run_closing.snoc (by decide) trivial

theorem length_closed : closed.writer.out.disk.file.length < 2 ^ 63 := by
  rw [file_of_succeed RecordWriter.wholeWrites_succeed (recorded_of_run run_closed) (by decide)]
  decide +kernel

def closedFile : FileImage := ⟨closed.writer.out.disk.file, length_closed⟩

end ChronoCap.CrashRecovery

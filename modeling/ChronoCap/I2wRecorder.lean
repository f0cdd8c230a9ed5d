/- module: ChronoCap/I2wRecorder
   source: src/i2wRecorder.cpp, include/chrono_cap/generic_recorder.hpp,
           include/chrono_cap/logger_config.hpp
   digest: The whole recorder, from OnSetup on: what its file holds, against its configuration. -/

import ChronoCap.GenericRecorder
import ChronoCap.LoggerConfig
import ChronoCap.Shutdown

set_option autoImplicit false
set_option relaxedAutoImplicit false

namespace ChronoCap.I2wRecorder

open ChronoCap.Foundation
open ChronoCap.Ring
open ChronoCap.WriterThread
open ChronoCap.GenericRecorderSystem

/-- OnSetup with the types it has not set up yet, whether subscribe() has answered for the first of
them, and the subscriptions that deliver samples; the writer; the records given to WriteRecord since
the last Open was called, and whether this one returned true. -/
structure Recorder (Ts : List TopicType) (cap : Capacity) where
  ok : Bool := true
  system : GenericRecorderSystem Ts := {}
  todo : List (Fin Ts.length) := List.finRange Ts.length
  answered : Bool := false
  live : Fin Ts.length → Bool := fun _ => false
  writer : RecordWriter cap := {}
  written : List PoppedRecord := []
  opened : Bool := false

inductive Event (Ts : List TopicType) where
  /-- subscribe() returns to SetupOne -/
  | subscribe
  /-- what is left of SetupOne -/
  | setupOne
  /-- a subscriber callback -/
  | sample (x : Sample Ts)
  /-- `writer.Open(MakeSessionBaseName(), system.EnabledTopics())` -/
  | openCall (fd now : Int)
  | thread (now : Int)
  | close
  | join

variable {Ts : List TopicType} {cap : Capacity}

/-- The types of the pack that IsEnabled answers true for, by position. -/
def enabledAt (config : LoggerConfig) (i : Fin Ts.length) : Bool := config.isEnabled (Ts.get i)

/-- A sample may arrive as soon as its subscribe() has succeeded; main calls Open only after OnSetup
has succeeded. -/
def machine (config : LoggerConfig) (subscribes : Fin Ts.length → Bool) (host : Host)
    (flushInterval : Int) : Machine (Recorder Ts cap) (Event Ts) where
  Enabled r
    | .subscribe => ∃ i ∈ r.todo.head?, enabledAt config i = true ∧ r.answered = false
    | .setupOne => ∃ i ∈ r.todo.head?, enabledAt config i = r.answered
    | .sample x => r.live x.pos = true
    | .openCall _ _ => r.todo = [] ∧ r.ok = true ∧ r.writer.thread = .none
    | .thread _ => r.writer.thread ≠ .none ∧ r.writer.thread ≠ .done
    | .close => r.writer.closing = false
    | .join => r.writer.closing = true ∧ r.writer.thread = .done
  next r
    | .subscribe =>
        match r.todo with
        | [] => r
        | i :: _ =>
            { r with
              answered := true
              live := if subscribes i then Function.update r.live i true else r.live }
    | .setupOne =>
        match r.todo with
        | [] => r
        | i :: rest =>
            let done := GenericRecorderSystem.setupOne (enabledAt config) subscribes
              (r.ok, r.system) i
            { r with ok := done.1, system := done.2, todo := rest, answered := false }
    | .sample x =>
        { r with writer := { r.writer with ledger := r.writer.ledger.push x.pushArgs } }
    | .openCall fd now =>
        { r with
          writer := r.writer.openCall host r.system.enabledTopics fd now
          written := []
          opened := (r.writer.out.openFile host r.system.enabledTopics fd now).1 }
    | .thread now =>
        { r with
          writer := r.writer.writerThreadMain host flushInterval now
          written := if r.writer.thread.holds then r.written ++ [r.writer.record] else r.written }
    | .close => { r with writer := r.writer.close }
    | .join => { r with writer := r.writer.join }

instance (config : LoggerConfig) (subscribes : Fin Ts.length → Bool) (host : Host)
    (flushInterval : Int) (r : Recorder Ts cap) :
    DecidablePred ((machine config subscribes host flushInterval).Enabled r)
  | .subscribe => inferInstanceAs (Decidable (∃ i ∈ r.todo.head?, _ ∧ _))
  | .setupOne => inferInstanceAs (Decidable (∃ i ∈ r.todo.head?, _ = _))
  | .sample x => inferInstanceAs (Decidable (r.live x.pos = true))
  | .openCall _ _ => inferInstanceAs (Decidable (r.todo = [] ∧ r.ok = true ∧ _ = _))
  | .thread _ => inferInstanceAs (Decidable (r.writer.thread ≠ .none ∧ r.writer.thread ≠ .done))
  | .close => inferInstanceAs (Decidable (r.writer.closing = false))
  | .join => inferInstanceAs (Decidable (r.writer.closing = true ∧ r.writer.thread = .done))

/-- What a WriteRecord leaves in the file: a prefix of the encoding, all of it if no write()
fails. -/
def Leaves (host : Host) (piece : List UInt8) (rec : PoppedRecord) : Prop :=
  piece <+: recordBytes rec.record ∧ (host.io.Succeed → piece = recordBytes rec.record)

/-- The table has one entry for each enabled type, in the order of the pack, and each record that
was written has an entry, whose size it has. -/
structure Session (config : LoggerConfig) (host : Host) (r : Recorder Ts cap) : Prop where
  table : r.writer.topics = (Ts.filter (fun T => config.isEnabled T)).map TopicType.info
  once : (r.writer.topics.map TopicInfo.topicId).Nodup
  sizes : ∀ t ∈ r.writer.topics, ∀ T ∈ Ts, t.topicId = T.id → T.wireSize < 2 ^ 32 →
    t.wireSize.toNat = T.wireSize
  file : ∃ pieces, List.Forall₂ (Leaves host) pieces r.written ∧
    r.writer.out.disk.file = headerBytes host.createdAtNs r.writer.topics ++ pieces.flatten
  records : ∀ rec ∈ r.written, ∃ t ∈ r.writer.topics,
    t.topicId = rec.topicId ∧ t.wireSize = rec.payloadLen
  disabled : ∀ T ∈ Ts, config.isEnabled T = false →
    (∀ t ∈ r.writer.topics, t.topicId ≠ T.id) ∧ ∀ rec ∈ r.written, rec.topicId ≠ T.id

/-- OnSetup succeeds exactly if every enabled type is subscribed to; nothing is written before Open
returns true, and a session matches the configuration. -/
structure Matches (config : LoggerConfig) (subscribes : Fin Ts.length → Bool) (host : Host)
    (r : Recorder Ts cap) : Prop where
  setup : r.todo = [] →
    (r.ok = true ↔ ∀ i, enabledAt config i = true → subscribes i = true)
  unopened : r.opened = false → r.written = []
  opened : r.opened = true → Session config host r

/-- Pushed by the callback of a type that is enabled and was subscribed to. -/
def Listed (config : LoggerConfig) (subscribes : Fin Ts.length → Bool) (r : Record) : Prop :=
  ∃ i : Fin Ts.length, (enabledAt config i = true ∧ subscribes i = true) ∧
    r.topicId = (Ts.get i).info.topicId ∧ r.payloadLen = (Ts.get i).info.wireSize

/-- From the first callback on the ring gets listed records only; OnSetup is under way to what it
will leave. -/
structure Recorded (config : LoggerConfig) (subscribes : Fin Ts.length → Bool) (host : Host)
    (r : Recorder Ts cap) : Prop where
  setup : r.todo.foldl (GenericRecorderSystem.setupOne (enabledAt config) subscribes)
    (r.ok, r.system) = onSetup (enabledAt config) subscribes
  live : ∀ i, r.live i = true → enabledAt config i = true ∧ subscribes i = true
  conserved : r.writer.ledger.Conserved
  accepted : ∀ a ∈ r.writer.ledger.accepted, Listed config subscribes a.record
  hand : r.writer.thread.holds = true → ∃ n, (n, r.writer.record) ∈ r.writer.ledger.popped
  running : r.writer.thread ≠ .none → r.opened = true ∧ 0 ≤ r.writer.out.binFd
  unopened : r.opened = false → r.written = []
  table : r.opened = true →
    r.todo = [] ∧ r.ok = true ∧ r.writer.topics = r.system.enabledTopics
  records : ∀ rec ∈ r.written, Listed config subscribes rec.record
  file : r.opened = true → ∃ pieces, List.Forall₂ (Leaves host) pieces r.written ∧
    r.writer.out.disk.file = headerBytes host.createdAtNs r.writer.topics ++ pieces.flatten

variable {config : LoggerConfig} {subscribes : Fin Ts.length → Bool} {host : Host}
  {r : Recorder Ts cap}

theorem recorded_init : Recorded config subscribes host ({} : Recorder Ts cap) where
  setup := rfl
  live _ h := absurd h Bool.false_ne_true
  conserved := Ledger.conserved_init
  accepted _ h := absurd h List.not_mem_nil
  hand h := absurd h Bool.false_ne_true
  running h := absurd rfl h
  unopened _ := rfl
  table h := absurd h Bool.false_ne_true
  records _ h := absurd h List.not_mem_nil
  file h := absurd h Bool.false_ne_true

/-- What lies in the ring or was popped from it is listed. -/
theorem Recorded.listed (inv : Recorded config subscribes host r) {p : Nat × PoppedRecord}
    (popped : p ∈ r.writer.ledger.popped) : Listed config subscribes p.2.record := by
  obtain ⟨number, -⟩ := inv.conserved.drained p popped
  obtain ⟨a, mem, same⟩ := List.mem_map.mp (List.mem_of_getElem? number)
  rw [← same]
  exact inv.accepted a mem

theorem Recorded.subscribe (inv : Recorded config subscribes host r) {i : Fin Ts.length}
    (enabled : enabledAt config i = true) :
    Recorded config subscribes host { r with
      answered := true
      live := if subscribes i then Function.update r.live i true else r.live } := by
  refine ⟨inv.setup, ?_, inv.conserved, inv.accepted, inv.hand, inv.running, inv.unopened,
    inv.table, inv.records, inv.file⟩
  intro j live
  cases answer : subscribes i with
  | false =>
      simp only [answer, Bool.false_eq_true, if_false] at live
      exact inv.live j live
  | true =>
      simp only [answer, if_true] at live
      by_cases same : j = i
      · subst same
        exact ⟨enabled, answer⟩
      · rw [Function.update_of_ne same] at live
        exact inv.live j live

/-- The writer cannot have been opened while there is a type left to set up. -/
theorem Recorded.setupOne (inv : Recorded config subscribes host r) {i : Fin Ts.length}
    {rest : List (Fin Ts.length)} (todo : r.todo = i :: rest) :
    Recorded config subscribes host { r with
      ok := (GenericRecorderSystem.setupOne (enabledAt config) subscribes (r.ok, r.system) i).1
      system :=
        (GenericRecorderSystem.setupOne (enabledAt config) subscribes (r.ok, r.system) i).2
      todo := rest
      answered := false } := by
  refine ⟨?_, inv.live, inv.conserved, inv.accepted, inv.hand, inv.running, inv.unopened, ?_,
    inv.records, inv.file⟩
  · have setup := inv.setup
    rw [todo] at setup
    exact setup
  · intro opened
    obtain ⟨done, -⟩ := inv.table opened
    rw [todo] at done
    contradiction

theorem Recorded.sample (inv : Recorded config subscribes host r) {x : Sample Ts}
    (live : r.live x.pos = true) :
    Recorded config subscribes host
      { r with writer := { r.writer with ledger := r.writer.ledger.push x.pushArgs } } := by
  refine ⟨inv.setup, inv.live, inv.conserved.push _, ?_, ?_, inv.running, inv.unopened, inv.table,
    inv.records, inv.file⟩
  · intro a ha
    rw [Ledger.accepted_push] at ha
    split at ha
    · rcases List.mem_append.mp ha with old | new
      · exact inv.accepted a old
      · obtain rfl := List.mem_singleton.mp new
        exact ⟨x.pos, inv.live x.pos live, rfl, rfl⟩
    · exact inv.accepted a ha
  · intro holds
    rw [Ledger.popped_push]
    exact inv.hand holds

theorem Recorded.openCall (inv : Recorded config subscribes host r) (setup : r.todo = [])
    (ok : r.ok = true) (idle : r.writer.thread = .none) (fd now : Int) :
    Recorded config subscribes host { r with
      writer := r.writer.openCall host r.system.enabledTopics fd now
      written := []
      opened := (r.writer.out.openFile host r.system.enabledTopics fd now).1 } := by
  unfold RecordWriter.openCall
  dsimp only
  split
  · rename_i good
    obtain ⟨fd_ok, header⟩ := openFile_file good
    refine ⟨inv.setup, inv.live, inv.conserved, inv.accepted, ?_, ?_, ?_, ?_, ?_, ?_⟩
    · exact fun holds => absurd holds Bool.false_ne_true
    · exact fun _ => ⟨good, fd_ok⟩
    · exact fun _ => rfl
    · exact fun _ => ⟨setup, ok, rfl⟩
    · exact fun rec none => absurd none List.not_mem_nil
    · exact fun _ => ⟨[], .nil, by simpa using header⟩
  · rename_i bad
    refine ⟨inv.setup, inv.live, inv.conserved, inv.accepted, inv.hand, ?_, ?_, ?_, ?_, ?_⟩
    · exact fun running => absurd idle running
    · exact fun _ => rfl
    · exact fun good => absurd good bad
    · exact fun rec none => absurd none List.not_mem_nil
    · exact fun good => absurd good bad

/-- Whatever the write() calls answer, a record leaves a prefix of its encoding. -/
theorem leaves_writeRecord (host : Host) {o : Output} (opened : 0 ≤ o.binFd) (rec : PoppedRecord) :
    ∃ piece, Leaves host piece rec ∧
      (writeRecord host o rec).2.disk.file = o.disk.file ++ piece := by
  obtain ⟨-, k, -, file, whole⟩ := @writeRecord_file host o opened rec
  refine ⟨_, ⟨List.take_prefix k _, ?_⟩, file⟩
  intro succeed
  obtain rfl := whole.mp (writeRecord_ok succeed opened rec)
  exact List.take_length

theorem Recorded.thread (inv : Recorded config subscribes host r)
    (running : r.writer.thread ≠ .none) (flushInterval now : Int) :
    Recorded config subscribes host { r with
      writer := r.writer.writerThreadMain host flushInterval now
      written :=
        if r.writer.thread.holds then r.written ++ [r.writer.record] else r.written } := by
  have step := RecordWriter.threadStep host flushInterval now r.writer running
  have moves := step.moves
  obtain ⟨opened, fd⟩ := inv.running running
  obtain ⟨kept, output⟩ := step.output fd
  obtain ⟨setup, ok, topics⟩ := inv.table opened
  refine ⟨inv.setup, inv.live, moves.conserved inv.conserved, ?_, ?_, ?_, ?_, ?_, ?_, ?_⟩
  · rw [moves.accepted]
    exact inv.accepted
  · intro holds
    obtain ⟨n, logged⟩ := moves.hand holds
    exact ⟨n, by rw [logged]; simp⟩
  · intro _
    exact ⟨opened, kept ▸ fd⟩
  · intro unopened
    exact absurd (opened.symm.trans unopened) (by simp)
  · intro _
    exact ⟨setup, ok, moves.topics.trans topics⟩
  · intro rec mem
    split at mem
    · rename_i holds
      rcases List.mem_append.mp mem with old | new
      · exact inv.records rec old
      · obtain rfl := List.mem_singleton.mp new
        obtain ⟨n, popped⟩ := inv.hand holds
        exact inv.listed popped
    · exact inv.records rec mem
  · intro _
    obtain ⟨pieces, leave, file⟩ := inv.file opened
    rw [moves.topics, output]
    split
    · obtain ⟨piece, leaves, appended⟩ := leaves_writeRecord host fd r.writer.record
      refine ⟨pieces ++ [piece], List.rel_append leave (.cons leaves .nil), ?_⟩
      rw [appended, file]
      simp
    · exact ⟨pieces, leave, file⟩

/-- Close and join() leave ring, table and file as they are. -/
theorem Recorded.close (inv : Recorded config subscribes host r) :
    Recorded config subscribes host { r with writer := r.writer.close } := by
  unfold RecordWriter.close
  split
  · rename_i idle
    refine ⟨inv.setup, inv.live, inv.conserved, inv.accepted, inv.hand, ?_, inv.unopened,
      inv.table, inv.records, ?_⟩
    · exact fun running => absurd idle running
    · intro opened
      simp only [RecordWriter.close_file]
      exact inv.file opened
  · exact ⟨inv.setup, inv.live, inv.conserved, inv.accepted, inv.hand, inv.running, inv.unopened,
      inv.table, inv.records, inv.file⟩

theorem Recorded.join (inv : Recorded config subscribes host r) :
    Recorded config subscribes host { r with writer := r.writer.join } := by
  refine ⟨inv.setup, inv.live, inv.conserved, inv.accepted, ?_, ?_, inv.unopened, inv.table,
    inv.records, ?_⟩
  · exact fun holds => absurd holds Bool.false_ne_true
  · exact fun running => absurd rfl running
  · intro opened
    simp only [RecordWriter.join, RecordWriter.close_file]
    exact inv.file opened

theorem recorded_of_run {flushInterval : Int} {events : List (Event Ts)}
    (run : (machine config subscribes host flushInterval).Run Machine.Free
      ({} : Recorder Ts cap) events r) : Recorded config subscribes host r := by
  apply run.invariant recorded_init
  intro r event inv enabled _
  cases event with
  | subscribe =>
      obtain ⟨i, head, on, -⟩ := enabled
      obtain ⟨rest, todo⟩ := List.head?_eq_some_iff.mp head
      simp only [machine, todo]
      rw [← todo]
      exact inv.subscribe on
  | setupOne =>
      obtain ⟨i, head, -⟩ := enabled
      obtain ⟨rest, todo⟩ := List.head?_eq_some_iff.mp head
      simp only [machine, todo]
      exact inv.setupOne todo
  | sample x => exact inv.sample enabled
  | openCall fd now =>
      obtain ⟨setup, ok, idle⟩ := enabled
      exact inv.openCall setup ok idle fd now
  | thread now => exact inv.thread enabled.1 flushInterval now
  | close => exact inv.close
  | join => exact inv.join

/-! What the table and the records then have to do with the configuration. -/

theorem Recorded.setup_ok (inv : Recorded config subscribes host r) (done : r.todo = []) :
    r.ok = true ↔ ∀ i, enabledAt config i = true → subscribes i = true := by
  have setup := inv.setup
  rw [done] at setup
  rw [← onSetup_ok, ← setup]
  rfl

theorem enabled_infos (config : LoggerConfig) :
    ((List.finRange Ts.length).filter (enabledAt config)).map (fun i => (Ts.get i).info) =
      (Ts.filter (fun T => config.isEnabled T)).map TopicType.info := by
  conv_rhs => rw [← List.map_get_finRange Ts, List.filter_map, List.map_map]
  rfl

/-- A successful OnSetup has listed the enabled types, all of them. -/
theorem Recorded.enabledTopics (inv : Recorded config subscribes host r) (done : r.todo = [])
    (ok : r.ok = true) :
    r.system.enabledTopics = (Ts.filter (fun T => config.isEnabled T)).map TopicType.info := by
  have all := (inv.setup_ok done).mp ok
  have setup := inv.setup
  rw [done] at setup
  have system : r.system = (onSetup (enabledAt config) subscribes).2 := congrArg Prod.snd setup
  have same : (fun i : Fin Ts.length => enabledAt config i && subscribes i) =
      enabledAt config := by
    funext i
    cases enabled : enabledAt config i with
    | false => rfl
    | true => simpa using all i enabled
  rw [system, (onSetup_lists (enabledAt config) subscribes).table, same, enabled_infos]

theorem Recorded.session (inv : Recorded config subscribes host r)
    (distinct : (Ts.map TopicType.id).Nodup) (opened : r.opened = true) :
    Session config host r := by
  obtain ⟨done, ok, topics⟩ := inv.table opened
  have table := topics.trans (inv.enabledTopics done ok)
  have entry : ∀ t, t ∈ r.writer.topics ↔ ∃ T ∈ Ts, config.isEnabled T = true ∧ T.info = t := by
    intro t
    rw [table]
    simp [and_assoc]
  have records : ∀ rec ∈ r.written, ∃ t ∈ r.writer.topics,
      t.topicId = rec.topicId ∧ t.wireSize = rec.payloadLen := by
    intro rec mem
    obtain ⟨i, ⟨enabled, -⟩, id, size⟩ := inv.records rec mem
    exact ⟨_, (entry _).mpr ⟨Ts.get i, List.get_mem Ts i, enabled, rfl⟩, id.symm, size.symm⟩
  have disabled : ∀ T ∈ Ts, config.isEnabled T = false →
      ∀ t ∈ r.writer.topics, t.topicId ≠ T.id := by
    intro T hT off t mem same
    obtain ⟨U, hU, on, rfl⟩ := (entry t).mp mem
    obtain rfl := List.inj_on_of_nodup_map distinct hU hT same
    exact Bool.false_ne_true (off.symm.trans on)
  refine ⟨table, ?_, ?_, inv.file opened, records, ?_⟩
  · rw [table, List.map_map]
    exact distinct.sublist (List.filter_sublist.map _)
  · intro t mem T hT same small
    obtain ⟨U, hU, -, rfl⟩ := (entry t).mp mem
    obtain rfl := List.inj_on_of_nodup_map distinct hU hT same
    exact TopicType.wireSize_info small
  · intro T hT off
    refine ⟨disabled T hT off, ?_⟩
    intro rec mem same
    obtain ⟨t, listed, id, -⟩ := records rec mem
    exact disabled T hT off t listed (id.trans same)

/-- Whatever is enabled, subscribed to and sent, and whenever: the recorder writes what its
configuration says. -/
theorem recording_matches (distinct : (Ts.map TopicType.id).Nodup) (config : LoggerConfig)
    (subscribes : Fin Ts.length → Bool) (cap : Capacity) (host : Host) (flushInterval : Int)
    (events : List (Event Ts)) (r : Recorder Ts cap)
    (run : (machine config subscribes host flushInterval).Run Machine.Free {} events r) :
    Matches config subscribes host r := by
  have inv := recorded_of_run run
  exact ⟨inv.setup_ok, inv.unopened, inv.session distinct⟩

def firstSample : Sample AllTopics where
  pos := ⟨0, Nat.zero_lt_one⟩
  value := ⟨5, 0x3F800000, 0xBF800000, true, false, false, false, false, false⟩
  stampNs := 7
  seq := 1
  buf := Vector.replicate 22 0xAA

/-- Nothing is configured, so the joystick is enabled. Its first sample arrives before SetupOne is
through. -/
abbrev joystick : Machine (Recorder AllTopics pair) (Event AllTopics) :=
  machine {} (fun _ => true) RecordWriter.wholeWrites 0

def setUp : Recorder AllTopics pair :=
  [.subscribe, .sample firstSample, .setupOne].foldl joystick.next {}

/-- Open has succeeded. -/
def started : Recorder AllTopics pair :=
  { setUp with
    writer := { setUp.writer with
      out := (setUp.writer.out.openFile RecordWriter.wholeWrites setUp.system.enabledTopics 3 0).2
      shutdown := false, thread := .test, topics := setUp.system.enabledTopics
      openedAt := setUp.writer.ledger.popped.length }
    written := []
    opened := true }

/-- The writer thread has popped the sample and written it. -/
def firstWritten : Recorder AllTopics pair :=
  [.thread 0, .thread 0, .thread 0].foldl joystick.next started

theorem next_setUp : joystick.next setUp (.openCall 3 0) = started := by
  have table := openFile_ok RecordWriter.wholeWrites_succeed setUp.system.enabledTopics
    (show (0 : Int) ≤ 3 by decide) 0 setUp.writer.out
  simp only [joystick, machine, RecordWriter.openCall, table]
  rfl

theorem firstWritten_matches : firstWritten.opened = true ∧ firstWritten.written.length = 1 ∧
    Matches {} (fun _ => true) RecordWriter.wholeWrites firstWritten := by
  have before : joystick.Run Machine.Free {} [.subscribe, .sample firstSample, .setupOne] setUp :=
    Machine.run_of_fires (by decide)
  have opens : joystick.Run Machine.Free setUp [.openCall 3 0] started := by
    rw [← next_setUp]
    exact Machine.Run.single (by decide) trivial
  have writes : joystick.Run Machine.Free started [.thread 0, .thread 0, .thread 0] firstWritten :=
    Machine.run_of_fires (by decide)
  refine ⟨by decide, by decide, ?_⟩
  exact recording_matches (by decide) {} (fun _ => true) pair RecordWriter.wholeWrites 0 _
    firstWritten ((before.trans opens).trans writes)

end ChronoCap.I2wRecorder

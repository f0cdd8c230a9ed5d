/- module: ChronoCap/SharedDirectory
   source: src/i2wRecorder.cpp, src/core/record_writer.cpp
   digest: Any number of recorders in one directory, in any interleaving: whose file has which name,
           and what a second one in the same second does. -/

import ChronoCap.Foundation.Directory
import ChronoCap.RecordThenReplay
import ChronoCap.SessionName

set_option autoImplicit false
set_option relaxedAutoImplicit false

namespace ChronoCap.SharedDirectory

open ChronoCap.Foundation
open ChronoCap.Ring
open ChronoCap.WriterThread
open ChronoCap.GenericRecorderSystem
open ChronoCap.ReplayFidelity
open ChronoCap.I2wRecorder
open ChronoCap.CrashRecovery
open ChronoCap.RecorderMain
open ChronoCap.RecordThenReplay
open ChronoCap.SessionName

variable {Ts : List TopicType} {cap : Capacity}

/-- What one process is given. -/
structure Setting (Ts : List TopicType) where
  loaded : Option Bool × LoggerConfig
  subscribes : Fin Ts.length → Bool
  host : Host
  flushInterval : Int

def Setting.machine (x : Setting Ts) : Machine (Program Ts cap) (RecorderMain.Event Ts) :=
  RecorderMain.machine x.loaded x.subscribes x.host x.flushInterval

/-- A step of one process, and the local time then. -/
structure Step (Pid : Type) (Ts : List TopicType) where
  pid : Pid
  event : RecorderMain.Event Ts
  localTime : Tm

/-- `openedAt` is the local time at which the process created its file. A process that is not
started, or was killed, makes no steps. -/
structure World (Pid : Type) (Ts : List TopicType) (cap : Capacity) where
  directory : Directory (List Char)
  program : Pid → Program Ts cap := fun _ => {}
  openedAt : Pid → Option Tm := fun _ => none

/-- What the process has written to the file it has opened. -/
def fileOf (p : Program Ts cap) : List UInt8 := p.recorder.writer.out.disk.file

/-- ::open answers with a descriptor. -/
def creates : RecorderMain.Event Ts → Bool
  | .recorder (.openCall fd _) => 0 ≤ fd
  | _ => false

/-- `::open(bin_path_, O_WRONLY | O_CREAT | O_TRUNC)`, and write() at the offset of the descriptor
that the process has got. -/
def machine {Pid : Type} [DecidableEq Pid] (setting : Pid → Setting Ts) :
    Machine (World Pid Ts cap) (Step Pid Ts) where
  Enabled w s := (setting s.pid).machine.Enabled (w.program s.pid) s.event
  next w s :=
    let p := w.program s.pid
    let q := (setting s.pid).machine.next p s.event
    if creates s.event then
      { directory := (w.directory.create (path s.localTime)).writeAt (path s.localTime) 0 (fileOf q)
        program := Function.update w.program s.pid q
        openedAt := Function.update w.openedAt s.pid (some s.localTime) }
    else
      { w with
        directory :=
          match w.openedAt s.pid with
          | none => w.directory
          | some tm =>
              w.directory.writeAt (path tm) (fileOf p).length ((fileOf q).drop (fileOf p).length)
        program := Function.update w.program s.pid q }

/-! One process. -/

theorem writeRecord_grows (host : Host) (o : Output) (rec : PoppedRecord) :
    o.disk.file <+: (writeRecord host o rec).2.disk.file := by
  by_cases closed : o.binFd < 0
  · rw [writeRecord, if_pos closed]
  · obtain ⟨-, k, -, file, -⟩ := @writeRecord_file host o (Int.not_lt.mp closed) rec
    rw [file]
    exact List.prefix_append _ _

/-- Outside Open the file grows. -/
theorem fileOf_grows (x : Setting Ts) (p : Program Ts cap) {event : RecorderMain.Event Ts}
    (keeps : creates event = false) : fileOf p <+: fileOf (x.machine.next p event) := by
  cases event with
  | recorder event =>
      cases event with
      | subscribe =>
          simp only [Setting.machine, RecorderMain.machine, I2wRecorder.machine]
          cases p.recorder.todo <;> exact List.prefix_refl _
      | setupOne =>
          simp only [Setting.machine, RecorderMain.machine, I2wRecorder.machine]
          cases p.recorder.todo <;> exact List.prefix_refl _
      | sample x => exact List.prefix_refl _
      | openCall fd now =>
          have refused : fd < 0 := by simpa [creates] using keeps
          simp [fileOf, Setting.machine, RecorderMain.machine, I2wRecorder.machine,
            RecordWriter.openCall, Output.openFile, refused]
      | thread now =>
          simp only [fileOf, Setting.machine, RecorderMain.machine, I2wRecorder.machine,
            PeriodicFlush.Counted.writerThreadMain_out]
          split
          · exact writeRecord_grows x.host _ _
          · split
            · rw [maybeFlush_file]
            · exact List.prefix_refl _
      | close =>
          simp only [fileOf, Setting.machine, RecorderMain.machine, I2wRecorder.machine,
            RecordWriter.close]
          split
          · rw [RecordWriter.close_file]
          · exact List.prefix_refl _
      | join =>
          simp only [fileOf, Setting.machine, RecorderMain.machine, I2wRecorder.machine,
            RecordWriter.join, RecordWriter.close_file]
          exact List.prefix_refl _
  | _ => exact List.prefix_refl _

/-- Open is behind main. -/
def behindOpen : MainPc → Bool
  | .load => false
  | .setup => false
  | .openCall => false
  | _ => true

theorem behindOpen_of_creates (x : Setting Ts) {p : Program Ts cap}
    {event : RecorderMain.Event Ts} (enabled : x.machine.Enabled p event)
    (opens : creates event = true) :
    behindOpen p.pc = false ∧ behindOpen (x.machine.next p event).pc = true := by
  cases event with
  | recorder event =>
      cases event with
      | openCall fd now =>
          have here : p.pc = .openCall := enabled.1
          refine ⟨by rw [here]; rfl, ?_⟩
          simp only [Setting.machine, RecorderMain.machine, MainPc.behind]
          split <;> rfl
      | _ => contradiction
  | _ => contradiction

theorem behindOpen_next (x : Setting Ts) {p : Program Ts cap} {event : RecorderMain.Event Ts}
    (enabled : x.machine.Enabled p event) (behind : behindOpen p.pc = true) :
    behindOpen (x.machine.next p event).pc = true := by
  cases event with
  | sigint => exact behind
  | load =>
      have here : p.pc = .load := enabled
      rw [here] at behind
      contradiction
  | setup ok =>
      rw [enabled.1] at behind
      contradiction
  | test =>
      simp only [Setting.machine, RecorderMain.machine]
      split <;> rfl
  | tick ok => cases ok <;> rfl
  | recorder event =>
      cases event with
      | openCall fd now =>
          have here : p.pc = .openCall := enabled.1
          rw [here] at behind
          contradiction
      | close =>
          simp only [Setting.machine, RecorderMain.machine]
          rcases enabled.1 with here | leaving
          · rw [here, MainPc.behind]
            · split <;> rfl
            · exact fun code => MainPc.noConfusion
          · cases here : p.pc with
            | leave code => rfl
            | _ =>
                rw [here] at leaving
                contradiction
      | join => rfl
      | _ => exact behind

/-! A step of one of them. -/

section Step

variable {Pid : Type} [DecidableEq Pid] {setting : Pid → Setting Ts} {w : World Pid Ts cap}
  {s : Step Pid Ts} {d₀ : Directory (List Char)}

theorem next_program :
    ((machine setting).next w s).program =
      Function.update w.program s.pid ((setting s.pid).machine.next (w.program s.pid) s.event) := by
  simp only [machine]
  split <;> rfl

theorem next_openedAt :
    ((machine setting).next w s).openedAt =
      if creates s.event then Function.update w.openedAt s.pid (some s.localTime)
      else w.openedAt := by
  simp only [machine]
  split <;> rfl

/-- What a step that creates a file finds under its name is gone. -/
theorem next_directory_created (opens : creates s.event = true) :
    ((machine setting).next w s).directory (path s.localTime) =
      some (fileOf ((setting s.pid).machine.next (w.program s.pid) s.event)) := by
  simp only [machine, opens, if_true]
  exact Directory.writeAt_end (Directory.create_same _ _) _

/-- A process writes behind what it has written. -/
theorem next_directory_written (keeps : creates s.event = false) {tm : Tm}
    (openedAt : w.openedAt s.pid = some tm)
    (holds : w.directory (path tm) = some (fileOf (w.program s.pid))) :
    ((machine setting).next w s).directory (path tm) =
      some (fileOf ((setting s.pid).machine.next (w.program s.pid) s.event)) := by
  obtain ⟨more, grown⟩ := fileOf_grows (setting s.pid) (w.program s.pid) keeps
  simp only [machine, keeps, Bool.false_eq_true, if_false, openedAt]
  rw [Directory.writeAt_end holds, ← grown, List.drop_left]

/-- No other path is touched. -/
theorem next_directory_of_ne {q : List Char}
    (ne : ∀ tm, ((machine setting).next w s).openedAt s.pid = some tm → q ≠ path tm) :
    ((machine setting).next w s).directory q = w.directory q := by
  rw [next_openedAt] at ne
  by_cases opens : creates s.event = true
  · have other := ne s.localTime (by rw [if_pos opens, Function.update_self])
    simp only [machine, opens, if_true]
    rw [Directory.writeAt_of_ne other, Directory.create_of_ne other]
  · rw [if_neg opens] at ne
    simp only [machine, if_neg opens]
    cases openedAt : w.openedAt s.pid with
    | none => rfl
    | some tm => exact Directory.writeAt_of_ne (ne tm openedAt) _ _

/-- The directory has the file of every process that shares its second with no other, and is
otherwise as it was. -/
structure Kept (d₀ : Directory (List Char)) (w : World Pid Ts cap) : Prop where
  once : ∀ i tm, w.openedAt i = some tm → behindOpen (w.program i).pc = true
  own : ∀ i tm, w.openedAt i = some tm → (∀ k, k ≠ i → w.openedAt k ≠ some tm) →
    w.directory (path tm) = some (fileOf (w.program i))
  rest : ∀ q, (∀ i tm, w.openedAt i = some tm → q ≠ path tm) → w.directory q = d₀ q

theorem Kept.next_once (kept : Kept d₀ w) (enabled : (machine setting).Enabled w s) (i : Pid)
    (tm : Tm) (openedAt : ((machine setting).next w s).openedAt i = some tm) :
    behindOpen (((machine setting).next w s).program i).pc = true := by
  rw [next_openedAt] at openedAt
  rw [next_program]
  by_cases mine : i = s.pid
  · subst mine
    rw [Function.update_self]
    by_cases opens : creates s.event = true
    · exact (behindOpen_of_creates _ enabled opens).2
    · rw [if_neg opens] at openedAt
      exact behindOpen_next _ enabled (kept.once _ tm openedAt)
  · rw [Function.update_of_ne mine]
    apply kept.once i tm
    split at openedAt
    · rwa [Function.update_of_ne mine] at openedAt
    · exact openedAt

/-- A process creates one file. -/
theorem Kept.not_opened (kept : Kept d₀ w) (enabled : (machine setting).Enabled w s)
    (opens : creates s.event = true) : w.openedAt s.pid = none := by
  cases openedAt : w.openedAt s.pid with
  | none => rfl
  | some tm =>
      have behind := kept.once _ tm openedAt
      rw [(behindOpen_of_creates _ enabled opens).1] at behind
      contradiction

theorem Kept.next_own (kept : Kept d₀ w) (enabled : (machine setting).Enabled w s) (i : Pid)
    (tm : Tm) (openedAt : ((machine setting).next w s).openedAt i = some tm)
    (alone : ∀ k, k ≠ i → ((machine setting).next w s).openedAt k ≠ some tm) :
    ((machine setting).next w s).directory (path tm) =
      some (fileOf (((machine setting).next w s).program i)) := by
  by_cases mine : i = s.pid
  · subst mine
    rw [next_program, Function.update_self]
    by_cases opens : creates s.event = true
    · rw [next_openedAt, if_pos opens, Function.update_self] at openedAt
      obtain rfl := Option.some.inj openedAt
      exact next_directory_created opens
    · rw [next_openedAt, if_neg opens] at openedAt alone
      exact next_directory_written (eq_false_of_ne_true opens) openedAt
        (kept.own _ tm openedAt alone)
  · have untouched : ((machine setting).next w s).directory (path tm) = w.directory (path tm) := by
      apply next_directory_of_ne
      intro tm' theirs same
      obtain rfl := (path_eq_iff tm tm').mp same
      exact alone s.pid (Ne.symm mine) theirs
    rw [untouched, next_program, Function.update_of_ne mine]
    by_cases opens : creates s.event = true
    · rw [next_openedAt, if_pos opens] at openedAt alone
      rw [Function.update_of_ne mine] at openedAt
      apply kept.own i tm openedAt
      intro k other theirs
      by_cases its : k = s.pid
      · rw [its, kept.not_opened enabled opens] at theirs
        contradiction
      · exact alone k other (by rwa [Function.update_of_ne its])
    · rw [next_openedAt, if_neg opens] at openedAt alone
      exact kept.own i tm openedAt alone

theorem Kept.next (kept : Kept d₀ w) (enabled : (machine setting).Enabled w s) :
    Kept d₀ ((machine setting).next w s) where
  once := kept.next_once enabled
  own := kept.next_own enabled
  rest q others := by
    rw [next_directory_of_ne (others s.pid)]
    apply kept.rest q
    intro i tm openedAt
    apply others i tm
    rw [next_openedAt]
    split
    · rename_i opens
      by_cases mine : i = s.pid
      · rw [mine, kept.not_opened enabled opens] at openedAt
        contradiction
      · rwa [Function.update_of_ne mine]
    · exact openedAt

theorem kept_of_run {steps : List (Step Pid Ts)}
    (run : (machine setting).Run Machine.Free ⟨d₀, fun _ => {}, fun _ => none⟩ steps w) :
    Kept d₀ w := by
  have start : Kept d₀ (⟨d₀, fun _ => {}, fun _ => none⟩ : World Pid Ts cap) :=
    ⟨fun _ _ opened => (nomatch opened), fun _ _ opened => (nomatch opened), fun _ _ => rfl⟩
  exact run.invariant start (fun _ _ kept enabled _ => kept.next enabled)

/-- What the steps of all are for one of them. -/
def eventsOf (i : Pid) (steps : List (Step Pid Ts)) : List (RecorderMain.Event Ts) :=
  steps.filterMap (fun s => if s.pid = i then some s.event else none)

theorem program_run {steps : List (Step Pid Ts)}
    (run : (machine setting).Run Machine.Free ⟨d₀, fun _ => {}, fun _ => none⟩ steps w) (i : Pid) :
    (setting i).machine.Run Machine.Free {} (eventsOf i steps) (w.program i) := by
  refine run.project (fun w => w.program i) _ ?_ ?_
  · intro w s event enabled own
    split at own
    · rename_i mine
      obtain rfl := Option.some.inj own
      subst mine
      rw [next_program, Function.update_self]
      exact ⟨enabled, rfl⟩
    · contradiction
  · intro w s own
    split at own
    · contradiction
    · rename_i other
      rw [next_program, Function.update_of_ne (Ne.symm other)]

end Step

variable {x : Setting Ts} {p : Program Ts cap} {events : List (RecorderMain.Event Ts)}

/-- The whole file of a process is replayed, wherever its main has got to. -/
theorem republishes_fileOf (run : x.machine.Run Machine.Free {} events p)
    (distinct : (Ts.map TopicType.id).Nodup) (lawful : ∀ T ∈ Ts, LawfulCodec T)
    (succeed : x.host.io.Succeed) (opened : p.recorder.opened = true)
    (size : (fileOf p).length < 2 ^ 63) :
    ∃ samples : List (Sample Ts), samples.Subperm (arrived (recorderSteps events)) ∧
      (p.pc = .exited 0 → p.reported = some 0 →
        (arrived (recorderSteps events)).length < 2 ^ 64 → UpToClose events samples) ∧
      ∀ beyond now, Republishes ⟨fileOf p, size⟩ beyond now samples := by
  have recorded := recorded_of_run (recorder_run run)
  obtain ⟨samples, chosen, upTo, wanted, records⟩ := chosen_samples run lawful succeed opened
  exact ⟨samples, chosen, upTo, fun beyond now =>
    CompleteSession.republishes_whole recorded opened succeed distinct lawful wanted records rfl
      beyond now⟩

/-! What Open writes. -/

theorem writeTopics_starts (host : Host) (topics : List TopicInfo) (d : Disk) :
    (writeTopics host topics d).2.file <+: d.file ++ tableBytes topics := by
  induction topics generalizing d with
  | nil => simp [writeTopics, tableBytes]
  | cons t ts ih =>
      obtain ⟨k, -, file, ok⟩ := writeAll_file host.io d t.meta.bytes
      unfold writeTopics
      rw [WireFormat.TopicMetaEntry.serialize_eq, List.drop_of_length_le (by simp),
        List.append_nil, tableBytes_cons, ← List.append_assoc]
      split
      · rename_i d' failed
        rw [failed] at file
        rw [file]
        exact ((List.prefix_append_right_inj _).mpr (List.take_prefix _ _)).trans
          (List.prefix_append _ _)
      · rename_i d' written
        rw [written] at file ok
        rw [ok.mp rfl, List.take_length] at file
        rw [← file]
        exact ih d'

theorem openFile_starts (host : Host) (topics : List TopicInfo) {fd : Int} (good : 0 ≤ fd)
    (now : Int) (o : Output) :
    (o.openFile host topics fd now).2.disk.file <+: headerBytes host.createdAtNs topics := by
  have header : (writeFileHeaderAndMetadata host topics { calls := o.disk.calls }).2.file <+:
      headerBytes host.createdAtNs topics := by
    obtain ⟨k, -, file, ok⟩ := writeAll_file host.io { calls := o.disk.calls }
      (fileHeader host.createdAtNs topics).bytes
    unfold writeFileHeaderAndMetadata
    rw [WireFormat.FileHeader.serialize_eq, List.drop_of_length_le (by simp), List.append_nil]
    split
    · rename_i d' failed
      rw [failed] at file
      rw [file]
      exact (List.take_prefix _ _).trans (List.prefix_append _ _)
    · rename_i d' written
      rw [written] at file ok
      rw [ok.mp rfl, List.take_length] at file
      have table := writeTopics_starts host topics d'
      rwa [file] at table
  unfold Output.openFile
  rw [if_neg (Int.not_lt.mpr good)]
  split
  · rename_i d failed
    rwa [failed] at header
  · rename_i d written
    rwa [written] at header

theorem fileOf_created (x : Setting Ts) (p : Program Ts cap) {event : RecorderMain.Event Ts}
    (opens : creates event = true) :
    fileOf (x.machine.next p event) <+:
      headerBytes x.host.createdAtNs p.recorder.system.enabledTopics := by
  cases event with
  | recorder event =>
      cases event with
      | openCall fd now =>
          have good : 0 ≤ fd := of_decide_eq_true opens
          have starts := openFile_starts x.host p.recorder.system.enabledTopics good now
            p.recorder.writer.out
          simp only [fileOf, Setting.machine, RecorderMain.machine, I2wRecorder.machine,
            RecordWriter.openCall]
          split <;> exact starts
      | _ => contradiction
  | _ => contradiction

/-- A process that has the directory to itself for a while. -/
theorem run_of_process {Pid : Type} [DecidableEq Pid] {setting : Pid → Setting Ts}
    (w : World Pid Ts cap) (i : Pid) (tm : Tm)
    (run : (setting i).machine.Run Machine.Free (w.program i) events p) :
    ∃ v, (machine setting).Run Machine.Free w (events.map (fun event => ⟨i, event, tm⟩)) v ∧
      v.program = Function.update w.program i p ∧
      v.openedAt = if events.any creates then Function.update w.openedAt i (some tm)
        else w.openedAt := by
  induction run with
  | nil => exact ⟨w, .nil, (Function.update_eq_self i w.program).symm, rfl⟩
  | @snoc events p event _ enabled _ ih =>
      obtain ⟨v, run, program, openedAt⟩ := ih
      have mine : v.program i = p := by rw [program, Function.update_self]
      refine ⟨(machine setting).next v ⟨i, event, tm⟩, ?_, ?_, ?_⟩
      · have fires : (machine setting).Enabled v ⟨i, event, tm⟩ := by
          rw [← mine] at enabled
          exact enabled
        rw [List.map_append]
        exact run.snoc fires trivial
      · rw [next_program, mine, program, Function.update_idem]
      · rw [next_openedAt, openedAt, List.any_append, List.any_cons, List.any_nil]
        cases creates event <;> cases events.any creates <;> simp

/-- The settings of `joystickMain`. -/
def joystick : Setting AllTopics where
  loaded := (some true, {})
  subscribes _ := true
  host := RecordWriter.wholeWrites
  flushInterval := 0

def session : List (RecorderMain.Event AllTopics) :=
  starting ++ [.recorder (.openCall 3 0)] ++ interrupted ++ [.recorder .join] ++
    [.recorder .close]

/-- Noon on a first of January, and a second later. -/
def noon : Tm where
  tmYear := 126
  tmMon := 0
  tmMday := 1
  tmHour := 12
  tmMin := 0
  tmSec := 0
  year := by decide
  mon := by decide
  mday := by decide
  hour := by decide
  min := by decide
  sec := by decide

def afterNoon : Tm := { noon with tmSec := 1, sec := by decide }

end ChronoCap.SharedDirectory

/- module: ChronoCap/RecorderMain
   source: src/i2wRecorder.cpp, include/chrono_cap/logger_config.hpp,
           include/chrono_cap/record_writer.hpp, src/core/record_writer.cpp
   digest: main of i2wRecorder, from LoadFromFile to the destructors, and what its exit code and
           the count that Close prints say about the file. -/

import ChronoCap.CompleteSession
import ChronoCap.ConfigLoading

set_option autoImplicit false
set_option relaxedAutoImplicit false

namespace ChronoCap.RecorderMain

open ChronoCap.Foundation
open ChronoCap.Ring
open ChronoCap.WriterThread
open ChronoCap.GenericRecorderSystem
open ChronoCap.ReplayFidelity
open ChronoCap.I2wRecorder
open ChronoCap.CrashRecovery
open ChronoCap.CompleteSession

/-- Where main stands. -/
inductive MainPc where
  /-- LoadFromFile comes next -/
  | load
  /-- in Setup -/
  | setup
  /-- Open comes next -/
  | openCall
  /-- the test of `g_running` -/
  | loop
  /-- Tick comes next -/
  | tick
  /-- Close comes next -/
  | close
  /-- Close waits in join() -/
  | join
  /-- returned, with the destructors to run -/
  | leave (code : Nat)
  | exited (code : Nat)
  /-- by an exception that left main -/
  | terminated
  deriving DecidableEq, Repr

/-- main of i2wRecorder; `reported` is the `dropped_count` that Close has printed. -/
structure Program (Ts : List TopicType) (cap : Capacity) where
  gRunning : Bool := true
  pc : MainPc := .load
  recorder : Recorder Ts cap := {}
  reported : Option UInt64 := none

inductive Event (Ts : List TopicType) where
  /-- SignalHandler gets a SIGINT -/
  | sigint
  /-- LoadFromFile returns -/
  | load
  /-- Setup returns -/
  | setup (ok : Bool)
  /-- `while (g_running)` -/
  | test
  /-- Tick returns -/
  | tick (ok : Bool)
  /-- what main calls of the recorder, and the steps of the other threads -/
  | recorder (event : I2wRecorder.Event Ts)

variable {Ts : List TopicType} {cap : Capacity}

namespace MainPc

def alive : MainPc → Bool
  | .exited _ => false
  | .terminated => false
  | _ => true

def leaves : MainPc → Bool
  | .leave _ => true
  | _ => false

/-- Where main is when a step of the recorder is made: callbacks and the writer thread do not wait
for it. The destructor of RecordWriter calls Close. -/
def Lets (pc : MainPc) : I2wRecorder.Event Ts → Prop
  | .subscribe => pc = .setup
  | .setupOne => pc = .setup
  | .sample _ => pc.alive = true
  | .openCall _ _ => pc = .openCall
  | .thread _ => pc.alive = true
  | .close => pc = .close ∨ pc.leaves = true
  | .join => pc = .join

/-- Where main goes from there, with the recorder as that step has left it. -/
def behind (r : Recorder Ts cap) : I2wRecorder.Event Ts → MainPc → MainPc
  | .openCall _ _, _ => if r.opened then .loop else .leave 1
  | .close, .leave code => .exited code
  | .close, _ => if r.writer.closing then .join else .leave 0
  | .join, _ => .leave 0
  | _, pc => pc

end MainPc

/-- Close gets to its second half: behind join(), or without a thread to join. -/
def goesOn (r : Recorder Ts cap) : I2wRecorder.Event Ts → Bool
  | .close => r.writer.thread = .none
  | .join => true
  | _ => false

/-- `loaded` is what LoadFromFile makes of the settings; Setup succeeds only behind an OnSetup that
has. -/
def machine (loaded : Option Bool × LoggerConfig) (subscribes : Fin Ts.length → Bool) (host : Host)
    (flushInterval : Int) : Machine (Program Ts cap) (Event Ts) where
  Enabled p
    | .sigint => True
    | .load => p.pc = .load
    | .setup ok => p.pc = .setup ∧ (ok = true → p.recorder.todo = [] ∧ p.recorder.ok = true)
    | .test => p.pc = .loop
    | .tick _ => p.pc = .tick
    | .recorder event => p.pc.Lets event ∧
        (I2wRecorder.machine loaded.2 subscribes host flushInterval).Enabled p.recorder event
  next p
    | .sigint => { p with gRunning := false }
    | .load =>
        { p with
          pc :=
            match loaded.1 with
            | none => .terminated
            | some false => .exited 1
            | some true => .setup }
    | .setup ok => { p with pc := if ok then .openCall else .leave 1 }
    | .test => { p with pc := if p.gRunning then .tick else .close }
    | .tick ok => { p with pc := if ok then .loop else .close }
    | .recorder event =>
        let r := (I2wRecorder.machine loaded.2 subscribes host flushInterval).next p.recorder event
        { p with
          recorder := r
          pc := p.pc.behind r event
          reported :=
            if goesOn p.recorder event ∧ 0 ≤ p.recorder.writer.out.binFd then
              some p.recorder.writer.ledger.ring.droppedCount
            else p.reported }

instance (pc : MainPc) : DecidablePred (MainPc.Lets pc : I2wRecorder.Event Ts → Prop)
  | .subscribe => inferInstanceAs (Decidable (pc = .setup))
  | .setupOne => inferInstanceAs (Decidable (pc = .setup))
  | .sample _ => inferInstanceAs (Decidable (pc.alive = true))
  | .openCall _ _ => inferInstanceAs (Decidable (pc = .openCall))
  | .thread _ => inferInstanceAs (Decidable (pc.alive = true))
  | .close => inferInstanceAs (Decidable (pc = .close ∨ pc.leaves = true))
  | .join => inferInstanceAs (Decidable (pc = .join))

instance (loaded : Option Bool × LoggerConfig) (subscribes : Fin Ts.length → Bool) (host : Host)
    (flushInterval : Int) (p : Program Ts cap) :
    DecidablePred ((machine loaded subscribes host flushInterval).Enabled p)
  | .sigint => .isTrue trivial
  | .load => inferInstanceAs (Decidable (p.pc = .load))
  | .setup ok => inferInstanceAs (Decidable (_ ∧ (ok = true → p.recorder.todo = [] ∧ _ = true)))
  | .test => inferInstanceAs (Decidable (p.pc = .loop))
  | .tick _ => inferInstanceAs (Decidable (p.pc = .tick))
  | .recorder event => inferInstanceAs (Decidable (p.pc.Lets event ∧
      (I2wRecorder.machine loaded.2 subscribes host flushInterval).Enabled p.recorder event))

def recorderStep? : Event Ts → Option (I2wRecorder.Event Ts)
  | .recorder event => some event
  | _ => none

/-- What a run of main does with the recorder. -/
def recorderSteps (events : List (Event Ts)) : List (I2wRecorder.Event Ts) :=
  events.filterMap recorderStep?

variable {loaded : Option Bool × LoggerConfig} {subscribes : Fin Ts.length → Bool} {host : Host}
  {flushInterval : Int} {events : List (Event Ts)} {p : Program Ts cap} {r : Recorder Ts cap}

theorem recorder_run
    (run : (machine loaded subscribes host flushInterval).Run Machine.Free {} events p) :
    (I2wRecorder.machine loaded.2 subscribes host flushInterval).Run Machine.Free {}
      (recorderSteps events) p.recorder := by
  refine run.project Program.recorder recorderStep? ?_ ?_
  · intro p event step enabled own
    cases event with
    | recorder event =>
        obtain rfl := Option.some.inj own
        exact ⟨enabled.2, rfl⟩
    | _ => contradiction
  · intro p event own
    cases event with
    | recorder event => contradiction
    | _ => rfl

/-! What main knows of the recorder where it stands. -/

/-- Before Open. -/
structure Before (w : RecordWriter cap) (opened : Bool) : Prop where
  idle : w.thread = .none
  calm : w.closing = false
  fd : w.out.binFd < 0
  popped : w.ledger.popped = []
  unopened : opened = false

/-- Between Open and the return of join(). -/
structure During (w : RecordWriter cap) : Prop where
  running : w.thread ≠ .none
  openedAt : w.openedAt = 0

/-- The destructors are left. -/
structure After (loaded : Option Bool) (w : RecordWriter cap) (opened : Bool) (code : Nat) :
    Prop where
  idle : w.thread = .none
  calm : w.closing = false
  code : (code = 0 ∧ loaded = some true ∧ opened = true ∧ w.out.binFd < 0) ∨
    (code = 1 ∧ opened = false)

def Stage (loaded : Option Bool) (r : Recorder Ts cap) : MainPc → Prop
  | .load => Before r.writer r.opened
  | .setup => loaded = some true ∧ Before r.writer r.opened
  | .openCall => loaded = some true ∧ Before r.writer r.opened ∧ r.todo = [] ∧ r.ok = true
  | .loop => loaded = some true ∧ During r.writer ∧ r.writer.closing = false
  | .tick => loaded = some true ∧ During r.writer ∧ r.writer.closing = false
  | .close => loaded = some true ∧ During r.writer ∧ r.writer.closing = false
  | .join => loaded = some true ∧ During r.writer ∧ r.writer.closing = true
  | .leave code => After loaded r.writer r.opened code
  | .exited code => After loaded r.writer r.opened code ∧ r.writer.out.binFd < 0
  | .terminated => True

theorem Stage.sample {pc : MainPc} {l : Option Bool} (stage : Stage l r pc) (a : PushArgs) :
    Stage l { r with writer := { r.writer with ledger := r.writer.ledger.push a } } pc := by
  have before : Before r.writer r.opened →
      Before { r.writer with ledger := r.writer.ledger.push a } r.opened := fun b =>
    ⟨b.idle, b.calm, b.fd, (Ledger.popped_push _ _).trans b.popped, b.unopened⟩
  cases pc with
  | load => exact before stage
  | setup => exact ⟨stage.1, before stage.2⟩
  | openCall => exact ⟨stage.1, before stage.2.1, stage.2.2⟩
  | loop => exact ⟨stage.1, ⟨stage.2.1.running, stage.2.1.openedAt⟩, stage.2.2⟩
  | tick => exact ⟨stage.1, ⟨stage.2.1.running, stage.2.1.openedAt⟩, stage.2.2⟩
  | close => exact ⟨stage.1, ⟨stage.2.1.running, stage.2.1.openedAt⟩, stage.2.2⟩
  | join => exact ⟨stage.1, ⟨stage.2.1.running, stage.2.1.openedAt⟩, stage.2.2⟩
  | leave code => exact ⟨stage.idle, stage.calm, stage.code⟩
  | exited code => exact ⟨⟨stage.1.idle, stage.1.calm, stage.1.code⟩, stage.2⟩
  | terminated => trivial

/-- The writer thread runs only while main is in the loop or in Close. -/
theorem Stage.thread {pc : MainPc} {l : Option Bool} (stage : Stage l r pc)
    (running : r.writer.thread ≠ .none) (host : Host) (flushInterval now : Int)
    (written : List PoppedRecord) :
    Stage l { r with writer := r.writer.writerThreadMain host flushInterval now, written } pc := by
  have moves := (RecordWriter.threadStep host flushInterval now r.writer running).moves
  have closing : (r.writer.writerThreadMain host flushInterval now).closing = r.writer.closing := by
    unfold RecordWriter.writerThreadMain
    split <;> rfl
  have during : ∀ {waits : Bool}, During r.writer → r.writer.closing = waits →
      During (r.writer.writerThreadMain host flushInterval now) ∧
        (r.writer.writerThreadMain host flushInterval now).closing = waits := fun d waits =>
    ⟨⟨moves.running, moves.openedAt.trans d.openedAt⟩, closing.trans waits⟩
  cases pc with
  | load => exact absurd stage.idle running
  | setup => exact absurd stage.2.idle running
  | openCall => exact absurd stage.2.1.idle running
  | loop => exact ⟨stage.1, during stage.2.1 stage.2.2⟩
  | tick => exact ⟨stage.1, during stage.2.1 stage.2.2⟩
  | close => exact ⟨stage.1, during stage.2.1 stage.2.2⟩
  | join => exact ⟨stage.1, during stage.2.1 stage.2.2⟩
  | leave code => exact absurd stage.idle running
  | exited code => exact absurd stage.1.idle running
  | terminated => trivial

/-- Open has succeeded exactly if there is a thread now. -/
theorem stage_openCall {l : Option Bool} (configured : l = some true)
    (before : Before r.writer r.opened) (host : Host) (fd now : Int) (topics : List TopicInfo)
    (written : List PoppedRecord) :
    Stage l { r with
        writer := r.writer.openCall host topics fd now
        written
        opened := (r.writer.out.openFile host topics fd now).1 }
      (if (r.writer.out.openFile host topics fd now).1 then .loop else .leave 1) := by
  unfold RecordWriter.openCall
  dsimp only
  split
  · exact ⟨configured, ⟨by simp, by simp [before.popped]⟩, before.calm⟩
  · rename_i failed
    exact ⟨before.idle, before.calm, .inr ⟨rfl, by simpa using failed⟩⟩

/-- Where no thread runs, Close leaves no descriptor. -/
theorem binFd_close (o : Output) : (Output.close o).binFd < 0 := by
  unfold Output.close
  split
  · exact Int.negSucc_lt_zero 0
  · rename_i closed
    exact Int.lt_of_not_ge closed

theorem Stage.next (stage : Stage loaded.1 p.recorder p.pc)
    (recorded : Recorded loaded.2 subscribes host p.recorder) {event : Event Ts}
    (enabled : (machine loaded subscribes host flushInterval).Enabled p event) :
    Stage loaded.1 ((machine loaded subscribes host flushInterval).next p event).recorder
      ((machine loaded subscribes host flushInterval).next p event).pc := by
  cases event with
  | sigint => exact stage
  | load =>
      have here : p.pc = .load := enabled
      rw [here] at stage
      simp only [machine]
      cases answer : loaded.1 with
      | none => trivial
      | some ok =>
          cases ok with
          | false => exact ⟨⟨stage.idle, stage.calm, .inr ⟨rfl, stage.unopened⟩⟩, stage.fd⟩
          | true => exact ⟨rfl, stage⟩
  | setup ok =>
      rw [enabled.1] at stage
      cases ok with
      | false => exact ⟨stage.2.idle, stage.2.calm, .inr ⟨rfl, stage.2.unopened⟩⟩
      | true => exact ⟨stage.1, stage.2, enabled.2 rfl⟩
  | test =>
      have here : p.pc = .loop := enabled
      rw [here] at stage
      simp only [machine]
      cases p.gRunning with
      | false => exact stage
      | true => exact stage
  | tick ok =>
      have here : p.pc = .tick := enabled
      rw [here] at stage
      cases ok with
      | false => exact stage
      | true => exact stage
  | recorder step =>
      obtain ⟨lets, fires⟩ := enabled
      cases step with
      | subscribe =>
          obtain ⟨i, head, -⟩ := fires
          obtain ⟨rest, todo⟩ := List.head?_eq_some_iff.mp head
          have here : p.pc = .setup := lets
          rw [here] at stage
          simp only [machine, I2wRecorder.machine, todo, here]
          exact stage
      | setupOne =>
          obtain ⟨i, head, -⟩ := fires
          obtain ⟨rest, todo⟩ := List.head?_eq_some_iff.mp head
          have here : p.pc = .setup := lets
          rw [here] at stage
          simp only [machine, I2wRecorder.machine, todo, here]
          exact stage
      | sample x => exact stage.sample x.pushArgs
      | openCall fd now =>
          have here : p.pc = .openCall := lets
          rw [here] at stage
          exact stage_openCall stage.1 stage.2.1 host fd now _ _
      | thread now => exact stage.thread fires.1 host flushInterval now _
      | close =>
          rcases lets with here | leaving
          · rw [here] at stage
            obtain ⟨configured, during, -⟩ := stage
            simp only [machine, I2wRecorder.machine, here, RecordWriter.close,
              if_neg during.running, MainPc.behind, if_true]
            exact ⟨configured, ⟨during.running, during.openedAt⟩, rfl⟩
          · cases here : p.pc with
            | leave code =>
                rw [here] at stage
                simp only [machine, I2wRecorder.machine, here, RecordWriter.close,
                  if_pos stage.idle, MainPc.behind]
                refine ⟨⟨stage.idle, stage.calm, ?_⟩, binFd_close _⟩
                rcases stage.code with ⟨zero, configured, opened, -⟩ | one
                · exact .inl ⟨zero, configured, opened, binFd_close _⟩
                · exact .inr one
            | _ =>
                rw [here] at leaving
                contradiction
      | join =>
          have here : p.pc = .join := lets
          rw [here] at stage
          obtain ⟨configured, during, -⟩ := stage
          obtain ⟨opened, -⟩ := recorded.running during.running
          exact ⟨rfl, rfl, .inl ⟨rfl, configured, opened, binFd_close _⟩⟩

theorem stage_of_run
    (run : (machine loaded subscribes host flushInterval).Run Machine.Free {} events p) :
    Stage loaded.1 p.recorder p.pc := by
  induction run with
  | nil => exact ⟨rfl, rfl, Int.negSucc_lt_zero 0, rfl, rfl⟩
  | snoc prior enabled _ ih => exact ih.next (recorded_of_run (recorder_run prior)) enabled

/-! How main gets to the end of a session. -/

theorem recorderSteps_append (before after : List (Event Ts)) :
    recorderSteps (before ++ after) = recorderSteps before ++ recorderSteps after :=
  List.filterMap_append

/-- Only Close makes main wait. -/
theorem close_of_join
    (run : (machine loaded subscribes host flushInterval).Run Machine.Free {} events p)
    (waits : p.pc = .join) : .recorder .close ∈ events := by
  induction run with
  | nil => contradiction
  | @snoc events p event _ enabled _ ih =>
      by_cases waited : p.pc = .join
      · exact List.mem_append_left _ (ih waited)
      · apply List.mem_append_right
        cases event with
        | sigint => exact absurd waits waited
        | load =>
            simp only [machine] at waits
            split at waits <;> contradiction
        | setup ok => cases ok <;> contradiction
        | test =>
            simp only [machine] at waits
            split at waits <;> contradiction
        | tick ok => cases ok <;> contradiction
        | recorder step =>
            cases step with
            | close => exact List.mem_singleton_self _
            | openCall fd now =>
                simp only [machine, MainPc.behind] at waits
                split at waits <;> contradiction
            | join => contradiction
            | _ => exact absurd waits waited

/-- What main leaves behind as it returns 0: what join() has left, and the count printed then. -/
structure Joined (loaded : Option Bool × LoggerConfig) (subscribes : Fin Ts.length → Bool)
    (host : Host) (flushInterval : Int) (events : List (Event Ts)) (p u : Program Ts cap)
    (before after : List (Event Ts)) : Prop where
  split : events = before ++ .recorder .join :: after
  run : (machine loaded subscribes host flushInterval).Run Machine.Free {} before u
  waits : u.pc = .join
  returns :
    (I2wRecorder.machine loaded.2 subscribes host flushInterval).Enabled u.recorder .join
  written : p.recorder.written = u.recorder.written
  out : p.recorder.writer.out = u.recorder.writer.join.out
  reported : p.reported = some u.recorder.writer.ledger.ring.droppedCount

/-- Returned, with 0. -/
def MainPc.returned (pc : MainPc) : Prop := pc = .leave 0 ∨ pc = .exited 0

/-- A step that leaves the written records, the file and the printed count alone. -/
theorem Joined.keep {u p' : Program Ts cap} {before after : List (Event Ts)}
    (joined : Joined loaded subscribes host flushInterval events p u before after)
    (event : Event Ts) (written : p'.recorder.written = p.recorder.written)
    (out : p'.recorder.writer.out = p.recorder.writer.out)
    (reported : p'.reported = p.reported) :
    Joined loaded subscribes host flushInterval (events ++ [event]) p' u before
      (after ++ [event]) where
  split := by
    rw [joined.split, List.append_assoc, List.cons_append]
  run := joined.run
  waits := joined.waits
  returns := joined.returns
  written := written.trans joined.written
  out := out.trans joined.out
  reported := reported.trans joined.reported

/-- Close prints nothing before it goes on, or without a descriptor. -/
theorem reported_quiet {step : I2wRecorder.Event Ts}
    (quiet : goesOn p.recorder step = false ∨ p.recorder.writer.out.binFd < 0) :
    ((machine loaded subscribes host flushInterval).next p (.recorder step)).reported =
      p.reported := by
  simp only [machine]
  apply if_neg
  rintro ⟨on, fd⟩
  rcases quiet with off | closed
  · exact Bool.false_ne_true (off.symm.trans on)
  · exact absurd fd (Int.not_le_of_gt closed)

theorem joined_of_run
    (run : (machine loaded subscribes host flushInterval).Run Machine.Free {} events p)
    (returned : p.pc.returned) :
    ∃ u before after, Joined loaded subscribes host flushInterval events p u before after := by
  induction run with
  | nil => rcases returned with h | h <;> contradiction
  | @snoc events p event prior enabled _ ih =>
      have stage := stage_of_run prior
      cases event with
      | sigint =>
          obtain ⟨u, before, after, joined⟩ := ih returned
          exact ⟨u, before, _, joined.keep .sigint rfl rfl rfl⟩
      | load =>
          simp only [machine] at returned
          split at returned <;> rcases returned with h | h <;> simp at h
      | setup ok => cases ok <;> rcases returned with h | h <;> simp [machine] at h
      | test =>
          simp only [machine] at returned
          split at returned <;> rcases returned with h | h <;> contradiction
      | tick ok => cases ok <;> rcases returned with h | h <;> contradiction
      | recorder step =>
          cases step with
          | subscribe =>
              have here : p.pc = .setup := enabled.1
              rcases returned with h | h <;> exact absurd (here.symm.trans h) (by simp)
          | setupOne =>
              have here : p.pc = .setup := enabled.1
              rcases returned with h | h <;> exact absurd (here.symm.trans h) (by simp)
          | sample x =>
              obtain ⟨u, before, after, joined⟩ := ih returned
              exact ⟨u, before, _, joined.keep _ rfl rfl (reported_quiet (.inl rfl))⟩
          | openCall fd now =>
              simp only [machine, MainPc.behind] at returned
              split at returned <;> rcases returned with h | h <;> simp at h
          | thread now =>
              -- there is no thread any more
              have here : p.pc.returned := returned
              rcases here with h | h
              · rw [h] at stage
                exact absurd stage.idle enabled.2.1
              · rw [h] at stage
                exact absurd stage.1.idle enabled.2.1
          | close =>
              rcases enabled.1 with here | leaving
              · rw [here] at stage
                simp only [machine, I2wRecorder.machine, here, RecordWriter.close,
                  if_neg stage.2.1.running, MainPc.behind, if_true] at returned
                rcases returned with h | h <;> contradiction
              · cases here : p.pc with
                | leave code =>
                    simp only [machine, here, MainPc.behind] at returned
                    obtain rfl : code = 0 := by
                      rcases returned with h | h
                      · contradiction
                      · exact MainPc.exited.inj h
                    rw [here] at stage
                    have closed : p.recorder.writer.out.binFd < 0 := by
                      rcases stage.code with ⟨-, -, -, fd⟩ | ⟨one, -⟩
                      · exact fd
                      · contradiction
                    obtain ⟨u, before, after, joined⟩ := ih (.inl here)
                    refine ⟨u, before, _, joined.keep _ rfl ?_ (reported_quiet (.inr closed))⟩
                    simp only [machine, I2wRecorder.machine, RecordWriter.close,
                      if_pos stage.idle, Output.close, if_neg (Int.not_le_of_gt closed)]
                | _ =>
                    rw [here] at leaving
                    contradiction
          | join =>
              have here : p.pc = .join := enabled.1
              rw [here] at stage
              obtain ⟨-, fd⟩ := (recorded_of_run (recorder_run prior)).running stage.2.1.running
              refine ⟨p, events, [], rfl, prior, here, enabled.2, rfl, rfl, ?_⟩
              simp only [machine]
              exact if_pos ⟨rfl, fd⟩

/-! What the exit code says. -/

/-- What has arrived, in order: all there was when Close was called, and nothing from after its
return. -/
def UpToClose (events : List (Event Ts)) (samples : List (Sample Ts)) : Prop :=
  ∃ pre during post, events = pre ++ .recorder .close :: during ++ .recorder .join :: post ∧
    arrived (recorderSteps pre) <+: samples ∧
    samples <+: arrived (recorderSteps (pre ++ .recorder .close :: during))

/-- The thread is joined and the descriptor closed in any case. 0 says that the settings were
loaded, every enabled type was subscribed to and the whole file is synced, 1 that nothing was
recorded; with 0 and a `dropped_count` of 0, no sample is missing from the file. -/
structure Exits (loaded : Option Bool × LoggerConfig) (subscribes : Fin Ts.length → Bool)
    (host : Host) (events : List (Event Ts)) (p : Program Ts cap) (code : Nat) : Prop where
  codes : code = 0 ∨ code = 1
  joined : p.recorder.writer.thread = .none
  closed : p.recorder.writer.out.binFd < 0
  refused : code = 1 → p.recorder.written = []
  configured : code = 0 →
    loaded.1 = some true ∧ ∀ i, enabledAt loaded.2 i = true → subscribes i = true
  synced : code = 0 →
    p.recorder.writer.out.disk.synced = p.recorder.writer.out.disk.file.length
  whole : code = 0 → host.io.Succeed → p.reported = some 0 →
    (arrived (recorderSteps events)).length < 2 ^ 64 →
    ∀ size : p.recorder.writer.out.disk.file.length < 2 ^ 63,
      ∃ samples, UpToClose events samples ∧
        ∀ beyond now, Republishes ⟨p.recorder.writer.out.disk.file, size⟩ beyond now samples

/-- If no drop is printed, what was written is what arrived. -/
theorem Joined.samples {u : Program Ts cap} {before after : List (Event Ts)}
    (joined : Joined loaded subscribes host flushInterval events p u before after)
    (lawful : ∀ T ∈ Ts, LawfulCodec T) (succeed : host.io.Succeed)
    (none_dropped : p.reported = some 0)
    (few : (arrived (recorderSteps events)).length < 2 ^ 64) :
    ∃ samples, UpToClose events samples ∧ samples <+: arrived (recorderSteps events) ∧
      (∀ x ∈ samples, Wanted loaded.2 subscribes x) ∧
      p.recorder.written.map PoppedRecord.record = samples.map (fun x => x.pushArgs.record) := by
  have run := recorder_run joined.run
  have stage := stage_of_run joined.run
  rw [joined.waits] at stage
  obtain ⟨-, during, closing⟩ := stage
  have recorded := recorded_of_run run
  obtain ⟨opened, -⟩ := recorded.running during.running
  have earlier : arrived (recorderSteps before) <+: arrived (recorderSteps events) := by
    have steps : recorderSteps events =
        recorderSteps before ++ recorderSteps (.recorder .join :: after) := by
      rw [joined.split, recorderSteps_append]
    exact arrived_before steps
  have zero : u.recorder.writer.ledger.ring.droppedCount = 0 :=
    Option.some.inj (joined.reported.symm.trans none_dropped)
  have traced := traced_of_run run
  have complete := complete_of_run lawful run (earlier.length_le.trans_lt few) zero
  have records := complete.records traced recorded.conserved opened joined.returns.2
  rw [during.openedAt, List.drop_zero, ← joined.written] at records
  have drained := complete.drained succeed joined.returns.2
  obtain ⟨pre, meanwhile, split⟩ := List.append_of_mem (close_of_join joined.run joined.waits)
  have steps : recorderSteps before = recorderSteps pre ++ .close :: recorderSteps meanwhile := by
    rw [split, recorderSteps_append]
    rfl
  refine ⟨(arrived (recorderSteps before)).take u.recorder.writer.ledger.popped.length,
    ⟨pre, meanwhile, after, ?_, ?_, ?_⟩, ?_, ?_, records⟩
  · rw [← split]
    exact joined.split
  · have asked := complete.closed closing _ _ steps
    apply List.prefix_of_prefix_length_le (arrived_before steps) (List.take_prefix _ _)
    rw [List.length_take]
    have within := (arrived_before steps).length_le
    omega
  · rw [← split]
    exact List.take_prefix _ _
  · exact (List.take_prefix _ _).trans earlier
  · intro x hx
    exact complete.wanted traced x (List.mem_of_mem_take hx)

/-- The settings name no topic. A sample is recorded, and a SIGINT ends the loop in its second
turn. -/
abbrev joystickMain : Machine (Program AllTopics pair) (Event AllTopics) :=
  machine (some true, {}) (fun _ => true) RecordWriter.wholeWrites 0

def starting : List (Event AllTopics) :=
  [.load, .recorder .subscribe, .recorder (.sample firstSample), .recorder .setupOne, .setup true]

def interrupted : List (Event AllTopics) :=
  List.replicate 3 (.recorder (.thread 0)) ++
    [.test, .tick true, .sigint, .test, .recorder .close] ++
    List.replicate 5 (.recorder (.thread 0))

def inLoop : Program AllTopics pair := { pc := .loop, recorder := started }

def joining : Program AllTopics pair := interrupted.foldl joystickMain.next inLoop

def finished : Program AllTopics pair :=
  joystickMain.next (joystickMain.next joining (.recorder .join)) (.recorder .close)

theorem run_inLoop : joystickMain.Run Machine.Free {}
    (starting ++ [.recorder (.openCall 3 0)]) inLoop := by
  have before : joystickMain.Run Machine.Free {} starting { pc := .openCall, recorder := setUp } :=
    Machine.run_of_fires (by decide)
  have step : joystickMain.next { pc := .openCall, recorder := setUp }
      (.recorder (.openCall 3 0)) = inLoop := by
    simp only [machine, next_setUp]
    rfl
  rw [← step]
  exact before.snoc (by decide) trivial

theorem run_joining : joystickMain.Run Machine.Free {}
    (starting ++ [.recorder (.openCall 3 0)] ++ interrupted) joining :=
  run_inLoop.trans (Machine.run_of_fires (by decide))

theorem run_finished : joystickMain.Run Machine.Free {}
    (starting ++ [.recorder (.openCall 3 0)] ++ interrupted ++ [.recorder .join] ++
      [.recorder .close]) finished :=
  (run_joining.snoc (by decide) trivial).snoc (by decide) trivial

theorem reported_finished : finished.reported = some 0 := by
  obtain ⟨-, fd⟩ := (recorded_of_run (recorder_run run_joining)).running (by decide)
  have printed : (joystickMain.next joining (.recorder .join)).reported = some 0 :=
    (if_pos ⟨rfl, fd⟩).trans (congrArg some (by decide))
  exact (reported_quiet (.inr (binFd_close _))).trans printed

theorem length_finished : finished.recorder.writer.out.disk.file.length < 2 ^ 63 := by
  rw [file_of_succeed RecordWriter.wholeWrites_succeed
    (recorded_of_run (recorder_run run_finished)) (by decide)]
  decide +kernel

/-- A document whose list of topics is empty. -/
abbrev nothing : Json.Library :=
  ConfigLoading.knows ConfigLoading.joyText (ConfigLoading.document [])

theorem loadFromFile_nothing :
    LoggerConfig.loadFromFile nothing (some ConfigLoading.joyText) {} = (some true, {}) := by
  have parsed := ConfigLoading.knows_parse ConfigLoading.joyText (ConfigLoading.document [])
  rw [@ConfigLoading.loadFromFile_array _ _ _ [] parsed rfl {}]
  rfl

end ChronoCap.RecorderMain

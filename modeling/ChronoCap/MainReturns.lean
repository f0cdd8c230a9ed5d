/- module: ChronoCap/MainReturns
   source: src/i2wRecorder.cpp, src/core/record_writer.cpp
   digest: A SIGINT ends main: how many steps it still makes or waits for, and that it is never
           stuck on the way. -/

import ChronoCap.CloseReturns
import ChronoCap.RecorderMain

set_option autoImplicit false
set_option relaxedAutoImplicit false

namespace ChronoCap.RecorderMain

open ChronoCap.Foundation
open ChronoCap.Ring
open ChronoCap.WriterThread
open ChronoCap.GenericRecorderSystem
open ChronoCap.ReplayFidelity
open ChronoCap.I2wRecorder
open ChronoCap.CrashRecovery
open ChronoCap.CompleteSession

variable {Ts : List TopicType} {cap : Capacity}

/-- A step of main, or one of the writer thread that main waits for in join(). -/
def Program.awaits (p : Program Ts cap) : Event Ts → Bool
  | .sigint => false
  | .recorder (.sample _) => false
  | .recorder (.thread _) => p.pc = .join
  | _ => true

def Program.awaited (p : Program Ts cap) (event : Event Ts) : List (Event Ts) :=
  if p.awaits event then [event] else []

/-- The steps of OnSetup: subscribe() and the rest of SetupOne, for each type. -/
def setupLeft (r : Recorder Ts cap) : Nat := 2 * r.todo.length + if r.answered then 0 else 1

/-- The steps to the end of main, with `g_running` false and no record to come; Close waits for
no more than `2 * cap + 6` of them. -/
def MainPc.left (r : Recorder Ts cap) : MainPc → Nat
  | .load => 2 * cap.val + 13 + setupLeft r
  | .setup => 2 * cap.val + 12 + setupLeft r
  | .openCall => 2 * cap.val + 11
  | .tick => 2 * cap.val + 11
  | .loop => 2 * cap.val + 10
  | .close => 2 * cap.val + 9
  | .join => r.writer.left + 2
  | .leave _ => 1
  | .exited _ => 0
  | .terminated => 0

def Program.left (p : Program Ts cap) : Nat := p.pc.left p.recorder

def Program.accepted (p : Program Ts cap) : Nat := p.recorder.writer.ledger.accepted.length

variable {loaded : Option Bool × LoggerConfig} {subscribes : Fin Ts.length → Bool} {host : Host}
  {flushInterval : Int} {p : Program Ts cap} {r : Recorder Ts cap}

theorem MainPc.left_eq_zero (r : Recorder Ts cap) (pc : MainPc) :
    pc.left r = 0 ↔ pc.alive = false := by
  cases pc <;> simp [MainPc.left, MainPc.alive]

/-- OnSetup has no more types to set up than there are. -/
theorem todo_le {events : List (I2wRecorder.Event Ts)}
    (run : (I2wRecorder.machine loaded.2 subscribes host flushInterval).Run Machine.Free
      ({} : Recorder Ts cap) events r) : r.todo.length ≤ Ts.length := by
  induction run with
  | nil => exact List.length_finRange.le
  | @snoc events r event _ enabled _ bound =>
      cases event with
      | subscribe =>
          obtain ⟨i, head, -⟩ := enabled
          obtain ⟨rest, todo⟩ := List.head?_eq_some_iff.mp head
          simp only [I2wRecorder.machine, todo]
          rwa [← todo]
      | setupOne =>
          obtain ⟨i, head, -⟩ := enabled
          obtain ⟨rest, todo⟩ := List.head?_eq_some_iff.mp head
          simp only [I2wRecorder.machine, todo]
          rw [todo, List.length_cons] at bound
          exact (Nat.le_succ _).trans bound
      | _ => exact bound

theorem told_of_run {events : List (I2wRecorder.Event Ts)}
    (run : (I2wRecorder.machine loaded.2 subscribes host flushInterval).Run Machine.Free
      ({} : Recorder Ts cap) events r) : RecordWriter.Told r.writer := by
  apply run.invariant RecordWriter.told_init
  intro r event told enabled _
  cases event with
  | subscribe =>
      obtain ⟨i, head, -⟩ := enabled
      obtain ⟨rest, todo⟩ := List.head?_eq_some_iff.mp head
      simp only [I2wRecorder.machine, todo]
      exact told
  | setupOne =>
      obtain ⟨i, head, -⟩ := enabled
      obtain ⟨rest, todo⟩ := List.head?_eq_some_iff.mp head
      simp only [I2wRecorder.machine, todo]
      exact told
  | sample x =>
      exact @RecordWriter.Told.next _ host flushInterval _ told (Step.push x.pushArgs) trivial
  | openCall fd now =>
      exact @RecordWriter.Told.next _ host flushInterval _ told
        (Step.openCall r.system.enabledTopics fd now) enabled.2.2
  | thread now => exact @RecordWriter.Told.next _ _ _ _ told (Step.thread now) enabled
  | close => exact @RecordWriter.Told.next _ host flushInterval _ told Step.close enabled
  | join => exact @RecordWriter.Told.next _ host flushInterval _ told Step.join enabled

/-! What a step costs. -/

theorem left_sample (host : Host) (flushInterval : Int) (told : RecordWriter.Told r.writer)
    {pc : MainPc} {l : Option Bool} (stage : Stage l r pc) (a : PushArgs) :
    pc.left { r with writer := { r.writer with ledger := r.writer.ledger.push a } } +
        2 * r.writer.ledger.accepted.length ≤
      pc.left r + 2 * (r.writer.ledger.push a).accepted.length := by
  have grows := RecordWriter.length_accepted_push r.writer.ledger a
  cases pc with
  | join =>
      have closing : RecordWriter.Closing r.writer := ⟨told, stage.2.2⟩
      have pays := @RecordWriter.Closing.pays _ host flushInterval _ closing (Step.push a) trivial
        trivial
      simp only [Step.ofThread, RecordWriter.machine] at pays
      simp only [MainPc.left]
      omega
  | _ =>
      simp only [MainPc.left, setupLeft]
      omega

/-- The writer thread gets nearer to its end once Close waits for it, and otherwise changes
nothing. -/
theorem left_thread (told : RecordWriter.Told r.writer) {pc : MainPc} {l : Option Bool}
    (stage : Stage l r pc) (running : r.writer.thread ≠ .none) (busy : r.writer.thread ≠ .done)
    (host : Host) (flushInterval now : Int) (written : List PoppedRecord) :
    (if pc = .join then 1 else 0) + pc.left { r with
        writer := r.writer.writerThreadMain host flushInterval now, written } ≤ pc.left r := by
  cases pc with
  | join =>
      have less : 1 + (r.writer.writerThreadMain host flushInterval now).left ≤ r.writer.left :=
        RecordWriter.left_thread told.conserved (told.told stage.2.2) running busy now
      simp only [if_true, MainPc.left]
      omega
  | _ => simp [MainPc.left, setupLeft]

theorem awaited_length (p : Program Ts cap) (event : Event Ts) :
    (p.awaited event).length = if p.awaits event then 1 else 0 := by
  unfold Program.awaited
  split <;> rfl

/-- A call of Close waits for what the ring holds at most. -/
theorem left_close (told : RecordWriter.Told r.writer) (running : r.writer.thread ≠ .none) :
    r.writer.close.left ≤ 2 * cap.val + 6 := by
  have held := RecordWriter.waiting_le told.conserved
  have bound := r.writer.thread.left_le r.writer.waiting
  rw [RecordWriter.close, if_neg running]
  exact bound.trans (by omega)

/-- What main calls of the recorder is one step less to make. -/
theorem left_recorder (stage : Stage loaded.1 p.recorder p.pc)
    (told : RecordWriter.Told p.recorder.writer) {step : I2wRecorder.Event Ts}
    (quiet : sample? step = none)
    (enabled : (machine loaded subscribes host flushInterval).Enabled p (.recorder step)) :
    (if p.awaits (.recorder step) then 1 else 0) +
      ((machine loaded subscribes host flushInterval).next p (.recorder step)).left ≤ p.left := by
  obtain ⟨lets, fires⟩ := enabled
  cases step with
  | subscribe =>
      obtain ⟨i, head, -, asked⟩ := fires
      obtain ⟨rest, todo⟩ := List.head?_eq_some_iff.mp head
      have here : p.pc = .setup := lets
      simp only [machine, I2wRecorder.machine, todo, here, Program.left, Program.awaits,
        MainPc.behind, MainPc.left, setupLeft, asked, if_true, Bool.false_eq_true, if_false]
      omega
  | setupOne =>
      obtain ⟨i, head, -⟩ := fires
      obtain ⟨rest, todo⟩ := List.head?_eq_some_iff.mp head
      have here : p.pc = .setup := lets
      simp only [machine, I2wRecorder.machine, todo, here, Program.left, Program.awaits,
        MainPc.behind, MainPc.left, setupLeft, if_true, Bool.false_eq_true, if_false,
        List.length_cons]
      omega
  | sample x => contradiction
  | openCall fd now =>
      have here : p.pc = .openCall := lets
      have bound : ∀ r : Recorder Ts cap,
          (if r.opened then MainPc.loop else MainPc.leave 1).left r ≤ 2 * cap.val + 10 := by
        intro r
        cases r.opened with
        | false => simp [MainPc.left]
        | true => exact Nat.le_refl _
      have after := bound ((I2wRecorder.machine loaded.2 subscribes host flushInterval).next
        p.recorder (.openCall fd now))
      simp only [machine, Program.left, Program.awaits, here, MainPc.behind, if_true]
      change _ ≤ 2 * cap.val + 11
      omega
  | thread now =>
      have less := left_thread told stage fires.1 fires.2 host flushInterval now
        (if p.recorder.writer.thread.holds then p.recorder.written ++ [p.recorder.writer.record]
          else p.recorder.written)
      simp only [Program.awaits, decide_eq_true_eq]
      exact less
  | close =>
      simp only [Program.awaits, if_true]
      rcases lets with here | leaving
      · rw [here] at stage
        have bound := left_close told stage.2.1.running
        simp only [RecordWriter.close, if_neg stage.2.1.running] at bound
        simp only [machine, I2wRecorder.machine, here, RecordWriter.close,
          if_neg stage.2.1.running, MainPc.behind, if_true, Program.left, MainPc.left]
        omega
      · cases here : p.pc with
        | leave code =>
            simp only [machine, Program.left, here, MainPc.behind, MainPc.left]
            omega
        | _ =>
            rw [here] at leaving
            contradiction
  | join =>
      have here : p.pc = .join := lets
      simp only [machine, Program.left, Program.awaits, here, MainPc.behind, MainPc.left, if_true]
      omega

/-- A step that main makes or waits for is one less, and a record accepted costs two. -/
theorem pays_next (stage : Stage loaded.1 p.recorder p.pc)
    (told : RecordWriter.Told p.recorder.writer) (stopped : p.gRunning = false) {event : Event Ts}
    (enabled : (machine loaded subscribes host flushInterval).Enabled p event) :
    (p.awaited event).length + ((machine loaded subscribes host flushInterval).next p event).left +
        2 * p.accepted ≤
      p.left + 2 * ((machine loaded subscribes host flushInterval).next p event).accepted := by
  rw [awaited_length]
  cases event with
  | sigint =>
      simp only [Program.awaits, Bool.false_eq_true, if_false, Nat.zero_add]
      exact Nat.le_refl _
  | load =>
      have here : p.pc = .load := enabled
      simp only [machine, Program.left, Program.accepted, Program.awaits, here, MainPc.left,
        if_true]
      cases loaded.1 with
      | none => simp only; omega
      | some ok => cases ok <;> simp only <;> omega
  | setup ok =>
      obtain ⟨here, -⟩ := enabled
      simp only [machine, Program.left, Program.accepted, Program.awaits, here, MainPc.left,
        if_true]
      cases ok <;> simp only [Bool.false_eq_true, if_false, if_true] <;> omega
  | test =>
      have here : p.pc = .loop := enabled
      simp only [machine, Program.left, Program.accepted, Program.awaits, here, MainPc.left,
        if_true, stopped, Bool.false_eq_true, if_false]
      omega
  | tick ok =>
      have here : p.pc = .tick := enabled
      simp only [machine, Program.left, Program.accepted, Program.awaits, here, MainPc.left,
        if_true]
      cases ok <;> simp only [Bool.false_eq_true, if_false, if_true] <;> omega
  | recorder step =>
      cases arrives : sample? step with
      | none =>
          have less := left_recorder stage told arrives enabled
          have same : ((machine loaded subscribes host flushInterval).next p
              (.recorder step)).accepted = p.accepted :=
            congrArg List.length (next_quiet arrives enabled.2).2
          rw [same]
          omega
      | some x =>
          obtain rfl : step = .sample x := by
            cases step <;> simp_all [sample?]
          simp only [Program.awaits, Bool.false_eq_true, if_false, Nat.zero_add]
          exact left_sample host flushInterval told stage x.pushArgs

/-- Until main is through there is a step that it makes or waits for. -/
theorem awaits_enabled (stage : Stage loaded.1 p.recorder p.pc) (more : p.left ≠ 0) :
    ∃ event, p.awaits event = true ∧
      (machine loaded subscribes host flushInterval).Enabled p event := by
  cases here : p.pc with
  | load => exact ⟨.load, rfl, here⟩
  | setup => exact ⟨.setup false, rfl, here, fun h => absurd h Bool.false_ne_true⟩
  | openCall =>
      rw [here] at stage
      exact ⟨.recorder (.openCall 0 0), rfl, here, stage.2.2.1, stage.2.2.2, stage.2.1.idle⟩
  | loop => exact ⟨.test, rfl, here⟩
  | tick => exact ⟨.tick true, rfl, here⟩
  | close =>
      rw [here] at stage
      exact ⟨.recorder .close, rfl, .inl here, stage.2.2⟩
  | join =>
      rw [here] at stage
      obtain ⟨-, during, closing⟩ := stage
      by_cases done : p.recorder.writer.thread = .done
      · exact ⟨.recorder .join, rfl, here, closing, done⟩
      · refine ⟨.recorder (.thread 0), ?_, ?_, during.running, done⟩
        · simp [Program.awaits, here]
        · change p.pc.alive = true
          rw [here]
          rfl
  | leave code =>
      rw [here] at stage
      refine ⟨.recorder .close, rfl, .inr ?_, stage.calm⟩
      rw [here]
      rfl
  | exited code => exact absurd (by rw [Program.left, here, MainPc.left]) more
  | terminated => exact absurd (by rw [Program.left, here, MainPc.left]) more

/-- Reached, and behind a SIGINT. -/
structure Stopped (loaded : Option Bool × LoggerConfig) (subscribes : Fin Ts.length → Bool)
    (host : Host) (flushInterval : Int) (p : Program Ts cap) : Prop where
  reached : ∃ before, (machine loaded subscribes host flushInterval).Run Machine.Free {} before p
  stopped : p.gRunning = false

/-- Nothing sets `g_running` again. -/
theorem Stopped.next (inv : Stopped loaded subscribes host flushInterval p) {event : Event Ts}
    (enabled : (machine loaded subscribes host flushInterval).Enabled p event) :
    Stopped loaded subscribes host flushInterval
      ((machine loaded subscribes host flushInterval).next p event) := by
  obtain ⟨⟨before, reached⟩, stopped⟩ := inv
  refine ⟨⟨_, reached.snoc enabled trivial⟩, ?_⟩
  cases event with
  | sigint => rfl
  | _ => exact stopped

theorem setupLeft_le (bound : r.todo.length ≤ Ts.length) : setupLeft r ≤ 2 * Ts.length + 1 := by
  unfold setupLeft
  split <;> omega

theorem Program.left_le (told : RecordWriter.Told p.recorder.writer)
    (bound : p.recorder.todo.length ≤ Ts.length) :
    p.left ≤ 2 * cap.val + 2 * Ts.length + 14 := by
  have held := RecordWriter.waiting_le told.conserved
  have thread : p.recorder.writer.left ≤ 2 * p.recorder.writer.waiting + 6 :=
    p.recorder.writer.thread.left_le p.recorder.writer.waiting
  have setup := setupLeft_le bound
  unfold Program.left
  cases p.pc <;> simp only [MainPc.left] <;> omega

/-- Behind a SIGINT, wherever it finds main: main makes and waits for no more steps than it has
left, and two for each record accepted since; at first that is bounded by the ring and the number
of types. As long as it has not ended there is such a step to make. -/
theorem main_returns (loaded : Option Bool × LoggerConfig) (subscribes : Fin Ts.length → Bool)
    (cap : Capacity) (host : Host) (flushInterval : Int) (before later : List (Event Ts))
    (p v : Program Ts cap)
    (reached : (machine loaded subscribes host flushInterval).Run Machine.Free {} before p)
    (stopped : p.gRunning = false)
    (run : (machine loaded subscribes host flushInterval).Run Machine.Free p later v) :
    ((machine loaded subscribes host flushInterval).log Program.awaited p later).length + v.left +
        2 * p.accepted ≤ p.left + 2 * v.accepted ∧
      p.left ≤ 2 * cap.val + 2 * Ts.length + 14 ∧
      (v.left = 0 ↔ v.pc.alive = false) ∧
      (v.left ≠ 0 → ∃ event, v.awaits event = true ∧
        (machine loaded subscribes host flushInterval).Enabled v event) := by
  have told := told_of_run (recorder_run reached)
  have bound := todo_le (recorder_run reached)
  refine ⟨?_, Program.left_le told bound, v.pc.left_eq_zero v.recorder,
    awaits_enabled (stage_of_run (reached.trans run))⟩
  have start : Stopped loaded subscribes host flushInterval p := ⟨⟨before, reached⟩, stopped⟩
  apply run.amortized_log Program.awaited Program.left (fun p => 2 * p.accepted) start
  · exact fun _ _ inv enabled _ => inv.next enabled
  · rintro p event ⟨⟨before, reached⟩, stopped⟩ enabled -
    exact pays_next (stage_of_run reached) (told_of_run (recorder_run reached)) stopped enabled

def untilSignal : List (Event AllTopics) :=
  List.replicate 3 (.recorder (.thread 0)) ++ [.test, .tick true, .sigint]

def signalled : Program AllTopics pair := untilSignal.foldl joystickMain.next inLoop

def untilExit : List (Event AllTopics) :=
  [.test, .recorder .close] ++ List.replicate 5 (.recorder (.thread 0)) ++
    [.recorder .join, .recorder .close]

/-- Nine steps of fourteen. -/
theorem main_returns_signalled :
    9 + (untilExit.foldl joystickMain.next signalled).left ≤ signalled.left ∧
      signalled.left ≤ 20 := by
  have reached : joystickMain.Run Machine.Free {} _ signalled :=
    run_inLoop.trans (Machine.run_of_fires (by decide))
  have run : joystickMain.Run Machine.Free signalled untilExit
      (untilExit.foldl joystickMain.next signalled) :=
    Machine.run_of_fires (by decide)
  obtain ⟨account, bound, -⟩ := main_returns (some true, {}) (fun _ => true) pair
    RecordWriter.wholeWrites 0 _ _ signalled _ reached (by decide) run
  refine ⟨?_, bound⟩
  have steps : (joystickMain.log Program.awaited signalled untilExit).length = 9 := by decide
  have same : (untilExit.foldl joystickMain.next signalled).accepted = signalled.accepted := by
    decide
  rw [steps, same] at account
  omega

end ChronoCap.RecorderMain

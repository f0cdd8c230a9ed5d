/- module: ChronoCap/RecordThenReplay
   source: src/i2wRecorder.cpp, src/i2wReplayer.cpp
   digest: The two programs one after the other, over whatever the first has left of its file. -/

import ChronoCap.RecorderMain
import ChronoCap.ReplayerMain

set_option autoImplicit false
set_option relaxedAutoImplicit false

namespace ChronoCap.RecordThenReplay

open ChronoCap.Foundation
open ChronoCap.Ring
open ChronoCap.RecordReader
open ChronoCap.FileGrammar
open ChronoCap.WriterThread
open ChronoCap.GenericRecorderSystem
open ChronoCap.GenericReplayerSystem
open ChronoCap.ReplayFidelity
open ChronoCap.I2wRecorder
open ChronoCap.CrashRecovery
open ChronoCap.CompleteSession
open ChronoCap.ReplayerMain
open ChronoCap.RecorderMain

variable {Ts : List TopicType} {cap : Capacity}

/-! The replayer's main on a file that it refuses, or republishes. -/

theorem dispatchOne_pubs (topicId : UInt16) (stampNs : UInt64) (payload : List UInt8)
    (s : GenericReplayerSystem Ts) (i : Fin Ts.length) (t : GenericReplayerSystem Ts)
    (one : dispatchOne topicId stampNs payload s i = some t) : t.pubs = s.pubs := by
  unfold dispatchOne at one
  split at one
  · obtain rfl := Option.some.inj one
    rfl
  · split at one
    · contradiction
    · obtain rfl := Option.some.inj one
      rfl

/-- Publishing leaves the publishers as they are. -/
theorem replay_pubs {r : RecordReader} {s t : GenericReplayerSystem Ts} {cs : List Callback}
    (replayed : s.replay r cs = some t) : t.pubs = s.pubs := by
  refine Dispatch.foldlM_keeps ?_ replayed
  intro s c t one
  exact Dispatch.foldlM_keeps (dispatchOne_pubs c.topicId c.stampNs _) one

variable {argc : Nat} {image : FileImage} {beyond : Nat → List UInt8} {now : UInt64}

theorem replayer_refuses (args : 2 ≤ argc)
    (refused : ∃ reader s, RecordReader.open 64 beyond { file := some image }
      (some (@onTopicFound Ts (fun _ => true))) {} {} = some (false, reader, s)) :
    ∃ s : GenericReplayerSystem Ts,
      i2wReplayer argc true { file := some image } beyond (fun _ => true) now = some (1, s) ∧
        s.published = [] := by
  obtain ⟨reader, s, opened⟩ := refused
  refine ⟨s, ?_, open_publishes_nothing opened⟩
  simp only [i2wReplayer, if_neg (Nat.not_lt_of_le args), Bool.true_eq_false, if_false, opened]

theorem replayer_republishes (args : 2 ≤ argc) {samples : List (Sample Ts)}
    (republishes : Republishes image beyond now samples) :
    ∃ s : GenericReplayerSystem Ts,
      i2wReplayer argc true { file := some image } beyond (fun _ => true) now = some (0, s) ∧
        s.published = samples.map (publication s) := by
  obtain ⟨r, s, opened, stop, t, ran, s', replayed, published, -⟩ := republishes
  have nonempty : image.bytes ≠ [] := by
    intro empty
    obtain ⟨reader, refused⟩ := open_empty beyond empty (some (@onTopicFound Ts (fun _ => true))) {}
    simp [opened] at refused
  obtain ⟨ok, r', u, opened', accepted, -⟩ :=
    open_then_run beyond now nonempty (some (@onTopicFound Ts (fun _ => true))) {}
  rw [opened] at opened'
  obtain ⟨rfl, rfl, rfl⟩ : true = ok ∧ r = r' ∧ s = u := by simpa using opened'
  obtain ⟨-, -, -, stop', t', ran', safe, callbacks⟩ := accepted rfl
  rw [ran] at ran'
  obtain ⟨rfl, rfl⟩ : stop = stop' ∧ t = t' := by simpa using ran'
  have pubs : publication s' = publication s := by
    funext x
    rw [publication, publication, replay_pubs replayed]
  by_cases none : r.topics.isEmpty = true
  · -- no topics, no records
    rw [List.isEmpty_iff.mp none, parse_nil] at callbacks
    rw [callbacks] at replayed
    obtain rfl := Option.some.inj replayed
    refine ⟨s, ?_, published⟩
    simp only [i2wReplayer, if_neg (Nat.not_lt_of_le args), Bool.true_eq_false, if_false, opened,
      none, if_true]
  · refine ⟨s', ?_, by rw [published, pubs]⟩
    simp only [i2wReplayer, if_neg (Nat.not_lt_of_le args), Bool.true_eq_false, if_false, opened,
      if_neg none, ran]
    cases stop with
    | fault => exact absurd rfl safe
    | _ =>
        rw [replayed]
        rfl

/-! What the recorder's main has written. -/

variable {loaded : Option Bool × LoggerConfig} {subscribes : Fin Ts.length → Bool} {host : Host}
  {flushInterval : Int} {events : List (RecorderMain.Event Ts)} {p : Program Ts cap}

/-- Samples that arrived; all of them, up to Close, if main says so. -/
theorem chosen_samples
    (run : (RecorderMain.machine loaded subscribes host flushInterval).Run Machine.Free {} events p)
    (lawful : ∀ T ∈ Ts, LawfulCodec T) (succeed : host.io.Succeed)
    (opened : p.recorder.opened = true) :
    ∃ samples : List (Sample Ts), samples.Subperm (arrived (recorderSteps events)) ∧
      (p.pc = .exited 0 → p.reported = some 0 →
        (arrived (recorderSteps events)).length < 2 ^ 64 → UpToClose events samples) ∧
      (∀ x ∈ samples, Wanted loaded.2 subscribes x) ∧
      p.recorder.written.map PoppedRecord.record = samples.map (fun x => x.pushArgs.record) := by
  by_cases whole : p.pc = .exited 0 ∧ p.reported = some 0 ∧
      (arrived (recorderSteps events)).length < 2 ^ 64
  · obtain ⟨exited, none_dropped, few⟩ := whole
    obtain ⟨u, before, after, joined⟩ := joined_of_run run (.inr exited)
    obtain ⟨samples, upTo, first, wanted, records⟩ := joined.samples lawful succeed none_dropped few
    exact ⟨samples, first.sublist.subperm, fun _ _ _ => upTo, wanted, records⟩
  · have recorded := recorded_of_run (recorder_run run)
    obtain ⟨samples, chosen, wanted, records⟩ :=
      (traced_of_run (recorder_run run)).samples recorded.conserved opened
    exact ⟨samples, chosen, fun exited none_dropped few =>
      absurd ⟨exited, none_dropped, few⟩ whole, wanted, records⟩

end ChronoCap.RecordThenReplay

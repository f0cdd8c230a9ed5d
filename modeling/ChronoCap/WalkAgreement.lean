/- module: ChronoCap/WalkAgreement
   source: src/core/record_reader.cpp
   digest: Run and the two modes of Walk go through a file in lockstep: the same records, the same
           place and the same reason to stop; they differ in the sleeps. -/

import ChronoCap.ReaderSafety
import ChronoCap.ReplayTiming

set_option autoImplicit false
set_option relaxedAutoImplicit false

namespace ChronoCap.WalkAgreement

open ChronoCap.Foundation
open ChronoCap.RecordReader
open ChronoCap.ReaderSafety

/-- A walk without timing beside one that sleeps: it is as far, and its trace is the callbacks of
the other. -/
structure Untimed (s t : RunState) : Prop where
  offset : t.offset = s.offset
  recordsPlayed : t.recordsPlayed = s.recordsPlayed
  trace : t.trace = s.callbacks.map Event.callback

theorem untimed_start (start : Nat) : Untimed { offset := start } { offset := start } where
  offset := rfl
  recordsPlayed := rfl
  trace := rfl

variable {s t : RunState}

/-- Nothing but callbacks, and the same ones. -/
theorem Untimed.callbacks (untimed : Untimed s t) :
    t.callbacks = s.callbacks ∧ ∀ target, Event.sleep target ∉ t.trace := by
  rw [RunState.callbacks, untimed.trace]
  refine ⟨?_, by simp⟩
  induction s.callbacks with
  | nil => rfl
  | cons c cs ih =>
      rw [List.map_cons, List.filterMap_cons, ih]

theorem Untimed.pace (untimed : Untimed s t) (now : UInt64) (c : Callback) :
    Untimed (s.pace now c) t := by
  obtain ⟨offset, played, callbacks⟩ := s.pace_keeps now c
  exact ⟨untimed.offset.trans offset.symm, untimed.recordsPlayed.trans played.symm,
    by rw [untimed.trace, callbacks]⟩

theorem Untimed.play (untimed : Untimed s t) (bits : Nat) (c : Callback) :
    Untimed (s.play bits c) (t.play bits c) where
  offset := rfl
  recordsPlayed := congrArg (· + 1) untimed.recordsPlayed
  trace := by
    rw [RunState.callbacks_play, List.map_append, ← untimed.trace]
    rfl

/-- The loops of Run and of Walk without timing go round together, whatever their clocks show. -/
theorem lockstep (bits : Nat) (now now' : UInt64) (r : RecordReader) :
    Loop.Lockstep Untimed (runStep bits now r) (walkStep bits now' false r) where
  ends s t stop untimed step := by
    rw [runStep_eq] at step
    rw [walkStep_eq, untimed.offset]
    cases found : recordAt bits r s.offset with
    | inl stop' =>
        rw [found] at step
        cases step
        rfl
    | inr c =>
        rw [found] at step
        cases step
  goesOn s t s' untimed step := by
    rw [runStep_eq] at step
    rw [walkStep_eq, untimed.offset]
    cases found : recordAt bits r s.offset with
    | inl stop =>
        rw [found] at step
        cases step
    | inr c =>
        rw [found] at step
        cases step
        exact ⟨t.play bits c, rfl, (untimed.pace now c).play bits c⟩

/-- Walk without timing stops where Run stops, and for the same reason. -/
theorem walk_untimed {bits : Nat} {now : UInt64} {r : RecordReader} {stop : Stop}
    (ran : run bits now r = some (stop, s)) (now' : UInt64) :
    ∃ t, walk bits now' false r = some (stop, t) ∧ Untimed s t := by
  rw [run, runLoop_eq_iterate] at ran
  exact (lockstep bits now now' r).iterate_some (untimed_start _) ran

/-- What the two walks of a reader make of it. -/
structure Agree (now : UInt64) (r : RecordReader) (stop : Stop) (s : RunState) : Prop where
  noFault : stop ≠ .fault
  run : run 64 now r = some (stop, s)
  timed : walk 64 now true r = some (stop, s)
  untimed : ∀ now', ∃ t, walk 64 now' false r = some (stop, t) ∧ t.offset = s.offset ∧
    t.recordsPlayed = s.recordsPlayed ∧ t.callbacks = s.callbacks ∧
    ∀ target, Event.sleep target ∉ t.trace

/-- Behind a successful Open, Run ends; Walk with timing leaves the same trace, and Walk without
timing the same callbacks and no sleep. -/
theorem walks_agree {σ : Type*} (beyond : Nat → List UInt8) (calls : OpenCalls)
    (hook : Option (σ → ResolvedTopic → Bool × σ)) (r₀ r : RecordReader) (s s' : σ)
    (opened : RecordReader.open 64 beyond calls hook r₀ s = some (true, r, s')) (now : UInt64) :
    ∃ stop t, Agree now r stop t := by
  obtain ⟨F, sees, start⟩ := sees_of_open opened
  obtain ⟨stop, t, ran, noFault, -⟩ := (runSafe sees start now).ends
  refine ⟨stop, t, noFault, ran, (walk_timed 64 now r).trans ran, ?_⟩
  intro now'
  obtain ⟨u, walked, untimed⟩ := walk_untimed ran now'
  obtain ⟨callbacks, noSleep⟩ := untimed.callbacks
  exact ⟨u, walked, untimed.offset, untimed.recordsPlayed, callbacks, noSleep⟩

theorem walks_agree_farApart :
    ∃ r, RecordReader.open 64 (fun _ => []) { file := some ReplayTiming.farApart } none {} () =
        some (true, r, ()) ∧
      ∃ stop t, Agree 1000000000 r stop t := by
  have wellFormed : FileGrammar.WellFormed ReplayTiming.farApart.bytes :=
    ⟨by decide, by decide, by decide, by decide⟩
  obtain ⟨ok, r, s', opened, -, accepts⟩ := FileGrammar.open_spec (fun _ => [])
    (F := ReplayTiming.farApart) wellFormed.nonempty none ()
  obtain ⟨rfl, rfl⟩ := Prod.mk.inj (accepts wellFormed)
  exact ⟨r, opened, walks_agree _ _ _ _ r _ _ opened 1000000000⟩

end ChronoCap.WalkAgreement

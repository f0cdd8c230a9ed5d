/- module: ChronoCap/ReplayTiming
   source: src/core/record_reader.cpp
   digest: The wake-up targets of Run against exact integers: they agree unless the sum of start
           and elapsed time leaves 64 bits. -/

import ChronoCap.FileGrammar

set_option autoImplicit false
set_option relaxedAutoImplicit false

namespace ChronoCap.ReplayTiming

open ChronoCap.WireFormat
open ChronoCap.RecordReader
open ChronoCap.RecordGrammar
open ChronoCap.FileGrammar

/-- `time_t` and `long` have 64 bits. -/
structure Timespec where
  tvSec : Int64
  tvNsec : Int64
  deriving DecidableEq

/-- What SleepUntilAbsoluteNs passes to clock_nanosleep. -/
def sleepUntilAbsoluteNs (targetMonotonicNs : UInt64) : Timespec where
  tvSec := (targetMonotonicNs / 1000000000).toInt64
  tvNsec := (targetMonotonicNs % 1000000000).toInt64

/-- Each sleep of a trace with the callback that follows it. -/
def wakeUps : List Event → List (UInt64 × Callback)
  | .sleep target :: .callback c :: rest => (target, c) :: wakeUps rest
  | _ => []

/-- What Run does with a file that a fresh reader opens: the target of each record it delivers. -/
def schedule (F : FileImage) (beyond : Nat → List UInt8) (now : UInt64) :
    List (UInt64 × Callback) :=
  match RecordReader.open 64 beyond { file := some F } none {} () with
  | some (true, r, ()) =>
      match run 64 now r with
      | some (_, t) => wakeUps t.trace
      | none => []
  | _ => []

/-- The stamp of the first record. -/
def origin (stamps : List UInt64) : UInt64 := stamps.headD 0

def stamps (ws : List (UInt64 × Callback)) : List UInt64 := ws.map (fun w => w.2.stampNs)

/-- The targets are where exact integers would put them, and reach the kernel unchanged. -/
structure Exact (now : UInt64) (ws : List (UInt64 × Callback)) : Prop where
  target : ∀ w ∈ ws, (w.1.toNat : Int) =
    now.toNat + max 0 ((w.2.stampNs.toNat : Int) - (origin (stamps ws)).toNat)
  notBefore : ∀ w ∈ ws, now ≤ w.1
  apart : ∀ v ∈ ws, ∀ w ∈ ws, origin (stamps ws) ≤ v.2.stampNs → origin (stamps ws) ≤ w.2.stampNs →
    (w.1.toNat : Int) - v.1.toNat = (w.2.stampNs.toNat : Int) - v.2.stampNs.toNat
  timespec : ∀ w ∈ ws,
    (sleepUntilAbsoluteNs w.1).tvSec.toInt * 1000000000 + (sleepUntilAbsoluteNs w.1).tvNsec.toInt =
        w.1.toNat ∧
      0 ≤ (sleepUntilAbsoluteNs w.1).tvNsec.toInt ∧
      (sleepUntilAbsoluteNs w.1).tvNsec.toInt < 1000000000

/-! The split into seconds and nanoseconds. -/

theorem toInt_toInt64 {x : UInt64} (small : 2 * x.toNat < 2 ^ 64) : x.toInt64.toInt = x.toNat :=
  BitVec.toInt_eq_toNat_of_lt small

theorem timespec_recomposes (target : UInt64) :
    (sleepUntilAbsoluteNs target).tvSec.toInt * 1000000000 +
        (sleepUntilAbsoluteNs target).tvNsec.toInt = target.toNat ∧
      0 ≤ (sleepUntilAbsoluteNs target).tvNsec.toInt ∧
      (sleepUntilAbsoluteNs target).tvNsec.toInt < 1000000000 := by
  have bound := target.toNat_lt
  have sec : (target / 1000000000).toNat = target.toNat / 1000000000 := UInt64.toNat_div _ _
  have nsec : (target % 1000000000).toNat = target.toNat % 1000000000 := UInt64.toNat_mod _ _
  simp only [sleepUntilAbsoluteNs]
  rw [toInt_toInt64 (by omega), toInt_toInt64 (by omega), sec, nsec]
  omega

/-! The targets of a run. -/

/-- `elapsed_ns` -/
def elapsed (t0 stampNs : UInt64) : UInt64 := if stampNs ≥ t0 then stampNs - t0 else 0

theorem toNat_elapsed (t0 stampNs : UInt64) :
    (elapsed t0 stampNs).toNat = stampNs.toNat - t0.toNat := by
  unfold elapsed
  split
  · rename_i after
    exact UInt64.toNat_sub_of_le _ _ after
  · rename_i before
    have lt : stampNs.toNat < t0.toNat := by simpa [UInt64.lt_iff_toNat_lt] using before
    rw [Nat.sub_eq_zero_of_le lt.le]
    rfl

/-- The trace of a run that slept and called back for each of `ws`. -/
def traceOf (ws : List (UInt64 × Callback)) : List Event :=
  ws.flatMap (fun w => [.sleep w.1, .callback w.2])

theorem wakeUps_traceOf (ws : List (UInt64 × Callback)) : wakeUps (traceOf ws) = ws := by
  induction ws with
  | nil => rfl
  | cons w ws ih =>
      change (w.1, w.2) :: wakeUps (traceOf ws) = _
      rw [ih]

/-- What a run has done so far, in terms of the records it delivered. -/
structure Paced (now : UInt64) (s : RunState) (ws : List (UInt64 × Callback)) : Prop where
  trace : s.trace = traceOf ws
  targets : ∀ w ∈ ws, w.1 = now + elapsed (origin (stamps ws)) w.2.stampNs
  unset : s.haveT0 = false → ws = []
  set : s.haveT0 = true → ws ≠ [] ∧ s.t0Ns = origin (stamps ws) ∧ s.replayStart = now

theorem paced_init (now : UInt64) (start : Nat) : Paced now { offset := start } [] where
  trace := rfl
  targets := by simp
  unset _ := rfl
  set h := absurd h Bool.false_ne_true

/-- The first record stays the first. -/
theorem origin_append {ws : List (UInt64 × Callback)} (some : ws ≠ []) (w : UInt64 × Callback) :
    origin (stamps (ws ++ [w])) = origin (stamps ws) := by
  cases ws with
  | nil => exact absurd rfl some
  | cons v ws => rfl

/-- One more record: the first sets the origin of both clocks, the later ones keep it. -/
theorem Paced.play {now : UInt64} {s : RunState} {ws : List (UInt64 × Callback)}
    (paced : Paced now s ws) (bits : Nat) (c : Callback) :
    ∃ w, Paced now ((s.pace now c).play bits c) (ws ++ [w]) := by
  cases have_t0 : s.haveT0 with
  | false =>
      obtain rfl := paced.unset have_t0
      have begun : s.start c.stampNs now =
          { s with t0Ns := c.stampNs, replayStart := now, haveT0 := true } := by
        simp [RunState.start, have_t0]
      rw [RunState.play, RunState.pace, begun]
      refine ⟨(now + elapsed c.stampNs c.stampNs, c), ?_, ?_, by simp, ?_⟩
      · simp [paced.trace, traceOf, elapsed]
      · simp [stamps, origin]
      · exact fun _ => ⟨by simp, rfl, rfl⟩
  | true =>
      obtain ⟨some, t0, start⟩ := paced.set have_t0
      have going : s.start c.stampNs now = s := by simp [RunState.start, have_t0]
      rw [RunState.play, RunState.pace, going]
      refine ⟨(s.replayStart + elapsed s.t0Ns c.stampNs, c), ?_, ?_, ?_, ?_⟩
      · simp [paced.trace, traceOf, elapsed]
      · intro w hw
        rw [origin_append some]
        rcases List.mem_append.mp hw with old | new
        · exact paced.targets w old
        · obtain rfl := List.mem_singleton.mp new
          rw [t0, start]
      · intro unset
        exact absurd (have_t0.symm.trans unset) (by decide)
      · intro _
        rw [origin_append some]
        exact ⟨by simp, t0, start⟩

theorem Paced.runStep {now : UInt64} {r : RecordReader} {s t : RunState}
    {ws : List (UInt64 × Callback)} (paced : Paced now s ws)
    (step : runStep 64 now r s = .inr t) : ∃ w, Paced now t (ws ++ [w]) := by
  rw [← walkStep_timed] at step
  obtain ⟨c, -, rfl⟩ := walkStep_inr step
  exact paced.play 64 c

theorem Paced.runLoop {now : UInt64} {r : RecordReader} (fuel : Nat) {s t : RunState} {stop : Stop}
    {ws : List (UInt64 × Callback)} (paced : Paced now s ws)
    (loop : runLoop 64 now r fuel s = some (stop, t)) : ∃ ws', Paced now t ws' := by
  induction fuel generalizing s ws with
  | zero => contradiction
  | succ fuel ih =>
      rw [RecordReader.runLoop] at loop
      split at loop
      · cases loop
        exact ⟨ws, paced⟩
      · rename_i u step
        obtain ⟨w, next⟩ := paced.runStep step
        exact ih next loop

theorem callbacks_traceOf (ws : List (UInt64 × Callback)) {s : RunState}
    (trace : s.trace = traceOf ws) :
    s.callbacks = ws.map Prod.snd := by
  rw [RunState.callbacks, trace]
  induction ws generalizing s with
  | nil => rfl
  | cons w ws ih =>
      have rest := ih (s := { s with trace := traceOf ws }) rfl
      change w.2 :: (traceOf ws).filterMap _ = _
      rw [rest]
      rfl

/-- The stamps of the records of a file, in order. -/
def recordStamps (F : List UInt8) : List UInt64 :=
  (parse (table F) (recordsStart F) (F.drop (recordsStart F))).map Callback.stampNs

/-- The schedule of a file lists the records the format finds in it, each with the target that
Run computes from the first. -/
theorem schedule_spec (F : FileImage) (beyond : Nat → List UInt8) (now : UInt64) :
    (∀ w ∈ schedule F beyond now,
      w.1 = now + elapsed (origin (stamps (schedule F beyond now))) w.2.stampNs) ∧
    (WellFormed F.bytes → (schedule F beyond now).map Prod.snd =
      parse (table F.bytes) (recordsStart F.bytes) (F.bytes.drop (recordsStart F.bytes))) ∧
    (¬ WellFormed F.bytes → schedule F beyond now = []) := by
  by_cases nonempty : F.bytes ≠ []
  · obtain ⟨ok, r, opened, accepts, result⟩ := open_run_spec beyond now nonempty
    cases ok with
    | false =>
        have nothing : schedule F beyond now = [] := by rw [schedule, opened]
        rw [nothing]
        exact ⟨by simp, fun wf => absurd (accepts.mpr wf) Bool.false_ne_true, fun _ => rfl⟩
    | true =>
        obtain ⟨-, -, stop, t, ran, -, callbacks⟩ := result rfl
        obtain ⟨ws, paced⟩ := (paced_init now r.recordsStartOffset).runLoop _ ran
        have all : schedule F beyond now = ws := by
          rw [schedule, opened]
          simp only [ran]
          rw [paced.trace, wakeUps_traceOf]
        rw [all]
        refine ⟨paced.targets, ?_, fun bad => absurd (accepts.mp rfl) bad⟩
        intro _
        rw [← callbacks, callbacks_traceOf ws paced.trace]
  · rw [not_not] at nonempty
    obtain ⟨r, opened⟩ := open_empty beyond nonempty none ()
    have nothing : schedule F beyond now = [] := by rw [schedule, opened]
    rw [nothing]
    exact ⟨by simp, fun wf => absurd nonempty wf.nonempty, fun _ => rfl⟩

/-- Targets computed modulo `2 ^ 64` are exact as long as the sum stays below. -/
theorem exact_iff {now : UInt64} {ws : List (UInt64 × Callback)}
    (targets : ∀ w ∈ ws, w.1 = now + elapsed (origin (stamps ws)) w.2.stampNs) :
    Exact now ws ↔ ∀ stampNs ∈ stamps ws,
      now.toNat + (stampNs.toNat - (origin (stamps ws)).toNat) < 2 ^ 64 := by
  constructor
  · intro exact stampNs hs
    obtain ⟨w, hw, rfl⟩ := List.mem_map.mp hs
    have target := exact.target w hw
    have bound := w.1.toNat_lt
    omega
  · intro small
    have value : ∀ w ∈ ws,
        w.1.toNat = now.toNat + (w.2.stampNs.toNat - (origin (stamps ws)).toNat) := by
      intro w hw
      have sum := small w.2.stampNs (List.mem_map_of_mem hw)
      rw [targets w hw, UInt64.toNat_add, toNat_elapsed]
      exact Nat.mod_eq_of_lt sum
    refine ⟨?_, ?_, ?_, fun w _ => timespec_recomposes w.1⟩
    · intro w hw
      have target := value w hw
      omega
    · intro w hw
      rw [UInt64.le_iff_toNat_le, value w hw]
      exact Nat.le_add_right _ _
    · intro v hv w hw after_v after_w
      have target_v := value v hv
      have target_w := value w hw
      rw [UInt64.le_iff_toNat_le] at after_v after_w
      omega

/-- Run delivers the records of the file, and its targets are exact if and only if for each of them
the start time plus the time since the first stamp stays below `2 ^ 64`. -/
theorem exact_iff_no_overflow (F : FileImage) (beyond : Nat → List UInt8) (now : UInt64) :
    (WellFormed F.bytes → (schedule F beyond now).map Prod.snd =
      parse (table F.bytes) (recordsStart F.bytes) (F.bytes.drop (recordsStart F.bytes))) ∧
    (Exact now (schedule F beyond now) ↔
      (WellFormed F.bytes → ∀ stampNs ∈ recordStamps F.bytes,
        now.toNat + (stampNs.toNat - (origin (recordStamps F.bytes)).toNat) < 2 ^ 64)) := by
  obtain ⟨targets, callbacks, rejected⟩ := schedule_spec F beyond now
  refine ⟨callbacks, ?_⟩
  by_cases wf : WellFormed F.bytes
  · have same : stamps (schedule F beyond now) = recordStamps F.bytes := by
      rw [recordStamps, ← callbacks wf, List.map_map]
      rfl
    rw [exact_iff targets, same, forall_prop_of_true wf]
  · rw [rejected wf]
    refine iff_of_true ?_ (fun good => absurd good wf)
    exact ⟨by simp, by simp, by simp, by simp⟩

/-- A topic of empty payloads with two records, the second stamped with the largest value. -/
def farApart : FileImage where
  bytes := (FileHeader.mk kFormatVersion 1 0).bytes ++ encodeU16 4 ++ encodeU32 0 ++
    List.replicate 32 0 ++ (RecordHeader.mk 4 0 0).bytes ++
      (RecordHeader.mk 4 0xFFFFFFFFFFFFFFFF 1).bytes
  size_lt := by
    simp [kFileHeaderWireSize, kRecordHeaderWireSize]

/-- Replayed from one second on, the second record is due before the start. -/
theorem farApart_wraps :
    (schedule farApart (fun _ => []) 1000000000).map Prod.fst = [1000000000, 999999999] ∧
      ¬ Exact 1000000000 (schedule farApart (fun _ => []) 1000000000) := by
  have played : (schedule farApart (fun _ => []) 1000000000).map Prod.fst =
      [1000000000, 999999999] := by decide +kernel
  refine ⟨played, ?_⟩
  intro exact
  have mem : (999999999 : UInt64) ∈
      (schedule farApart (fun _ => []) 1000000000).map Prod.fst := by simp [played]
  obtain ⟨w, hw, target⟩ := List.mem_map.mp mem
  have late := exact.notBefore w hw
  rw [target] at late
  exact absurd late (by decide)

end ChronoCap.ReplayTiming

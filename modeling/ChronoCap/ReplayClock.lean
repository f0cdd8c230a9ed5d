/- module: ChronoCap/ReplayClock
   source: src/core/record_reader.cpp
   digest: When the callbacks of Run are made, on any clock and whatever interrupts its sleeps. -/

import ChronoCap.Foundation.Deadlines
import ChronoCap.ReplayTiming
import Mathlib.Algebra.Order.Ring.Nat

set_option autoImplicit false
set_option relaxedAutoImplicit false

namespace ChronoCap.ReplayClock

open ChronoCap.Foundation
open ChronoCap.RecordReader
open ChronoCap.RecordGrammar
open ChronoCap.FileGrammar
open ChronoCap.ReplayTiming

/-! Times are nanoseconds on CLOCK_MONOTONIC. -/

/-- Anything else clock_nanosleep answers EINVAL to. -/
def Accepts (ts : Timespec) : Prop :=
  0 ≤ ts.tvSec.toInt ∧ 0 ≤ ts.tvNsec.toInt ∧ ts.tvNsec.toInt < 1000000000

def nanoseconds (ts : Timespec) : Nat :=
  (ts.tvSec.toInt * 1000000000 + ts.tvNsec.toInt).toNat

/-- The loop of SleepUntilAbsoluteNs around clock_nanosleep with TIMER_ABSTIME, entered at one time
and left at another: an answer other than EINTR ends it. -/
inductive Naps (jitter : Nat) (ts : Timespec) : Nat → Nat → Prop where
  /-- the deadline has passed -/
  | wakes {c t : Nat} (valid : Accepts ts) (notBefore : max c (nanoseconds ts) ≤ t)
      (soon : t ≤ max c (nanoseconds ts) + jitter) : Naps jitter ts c t
  /-- EINVAL -/
  | invalid {c t : Nat} (bad : ¬ Accepts ts) (later : c ≤ t) : Naps jitter ts c t
  /-- EINTR -/
  | interrupted {c t c' : Nat} (valid : Accepts ts) (later : c ≤ t)
      (early : t ≤ max c (nanoseconds ts)) (again : Naps jitter ts t c') : Naps jitter ts c c'

/-- What Run did, carried out on a clock; each callback with the time it is made. The kernel wakes
the thread within `jitter`, and no callback takes longer than `work`. -/
inductive Performs (jitter work : Nat) : Nat → List Event → List (Nat × Callback) → Prop where
  | ends (c : Nat) : Performs jitter work c [] []
  | sleep {target : UInt64} {c c' : Nat} {rest : List Event} {played : List (Nat × Callback)}
      (naps : Naps jitter (sleepUntilAbsoluteNs target) c c')
      (later : Performs jitter work c' rest played) :
      Performs jitter work c (.sleep target :: rest) played
  | callback {k : Callback} {c c' : Nat} {rest : List Event} {played : List (Nat × Callback)}
      (ends : c ≤ c') (brief : c' ≤ c + work) (later : Performs jitter work c' rest played) :
      Performs jitter work c (.callback k :: rest) ((c, k) :: played)

variable {jitter work c c' : Nat} {played : List (Nat × Callback)}

/-! One sleep. -/

theorem accepts_target (target : UInt64) : Accepts (sleepUntilAbsoluteNs target) := by
  obtain ⟨whole, low, high⟩ := timespec_recomposes target
  exact ⟨by omega, low, high⟩

theorem nanoseconds_target (target : UInt64) :
    nanoseconds (sleepUntilAbsoluteNs target) = target.toNat := by
  rw [nanoseconds, (timespec_recomposes target).1, Int.toNat_natCast]

theorem Naps.sleeps {target : UInt64} (naps : Naps jitter (sleepUntilAbsoluteNs target) c c') :
    Deadlines.Sleeps jitter target.toNat c c' := by
  induction naps with
  | wakes _ notBefore soon =>
      rw [nanoseconds_target] at notBefore soon
      exact .wakes notBefore soon
  | invalid bad => exact absurd (accepts_target target) bad
  | interrupted _ later early _ ih =>
      rw [nanoseconds_target] at early
      exact .interrupted later early ih

theorem naps_punctual (target : UInt64) (c : Nat) :
    Naps jitter (sleepUntilAbsoluteNs target) c (max c target.toNat) := by
  apply Naps.wakes (accepts_target target)
  · rw [nanoseconds_target]
  · rw [nanoseconds_target]
    exact Nat.le_add_right _ _

/-! A whole trace. -/

/-- A trace can be carried out from any time on. -/
theorem performs_exists (jitter work c : Nat) (trace : List Event) :
    ∃ played, Performs jitter work c trace played := by
  induction trace generalizing c with
  | nil => exact ⟨[], .ends c⟩
  | cons event rest ih =>
      cases event with
      | sleep target =>
          obtain ⟨played, later⟩ := ih (max c target.toNat)
          exact ⟨played, .sleep (naps_punctual target c) later⟩
      | callback k =>
          obtain ⟨played, later⟩ := ih c
          exact ⟨_, .callback (Nat.le_refl c) (Nat.le_add_right _ _) later⟩

/-- Run's trace is one of tasks with deadlines. -/
theorem Performs.keeps {ws : List (UInt64 × Callback)}
    (performs : Performs jitter work c (traceOf ws) played) :
    played.map Prod.snd = ws.map Prod.snd ∧
      Deadlines.Keeps jitter work c (ws.map (fun w => w.1.toNat)) (played.map Prod.fst) := by
  induction ws generalizing c played with
  | nil =>
      cases performs with
      | ends => exact ⟨rfl, .done c⟩
  | cons w ws ih =>
      change Performs jitter work c (.sleep w.1 :: .callback w.2 :: traceOf ws) played at performs
      cases performs with
      | sleep naps later =>
          cases later with
          | callback ends brief rest =>
              obtain ⟨same, keeps⟩ := ih rest
              obtain ⟨notBefore, soon⟩ := naps.sleeps.bounds
              refine ⟨?_, .next notBefore soon ends brief keeps⟩
              rw [List.map_cons, List.map_cons, same]

/-- When each record is due: as long after the start as it was stamped after the first one, and at
once if it was stamped before it. -/
def due (now : UInt64) (stamps : List UInt64) : List Nat :=
  stamps.map (fun s => now.toNat + (s.toNat - (origin stamps).toNat))

theorem targets_due {now : UInt64} {ws : List (UInt64 × Callback)}
    (targets : ∀ w ∈ ws, w.1 = now + elapsed (origin (stamps ws)) w.2.stampNs)
    (sum : ∀ s ∈ stamps ws, now.toNat + (s.toNat - (origin (stamps ws)).toNat) < 2 ^ 64) :
    ws.map (fun w => w.1.toNat) = due now (stamps ws) := by
  rw [due]
  conv_rhs => rw [stamps, List.map_map]
  apply List.map_congr_left
  intro w hw
  have small := sum w.2.stampNs (List.mem_map_of_mem hw)
  rw [targets w hw, UInt64.toNat_add, toNat_elapsed]
  exact Nat.mod_eq_of_lt small

/-- Whenever Run starts to play a file that Open has accepted, and whatever interrupts its sleeps:
it makes the callbacks of the file, in order, none before it is due, and each at most as late as if
those since some earlier one that was on time, or since the start, had been made without a pause. -/
theorem replay_keeps_time {σ : Type*} (F : FileImage) (beyond : Nat → List UInt8)
    (hook : Option (σ → ResolvedTopic → Bool × σ)) (s s' : σ) (r : RecordReader)
    (opened : RecordReader.open 64 beyond { file := some F } hook {} s = some (true, r, s'))
    (now : UInt64) (sum : ∀ stampNs ∈ recordStamps F.bytes,
      now.toNat + (stampNs.toNat - (origin (recordStamps F.bytes)).toNat) < 2 ^ 64) :
    ∃ stop t, run 64 now r = some (stop, t) ∧
      (∀ jitter work c, ∃ played, Performs jitter work c t.trace played) ∧
      ∀ jitter work c played, Performs jitter work c t.trace played →
        played.map Prod.snd = parse (table F.bytes) (recordsStart F.bytes)
          (F.bytes.drop (recordsStart F.bytes)) ∧
        (played.map Prod.fst).Pairwise (· ≤ ·) ∧
        List.Forall₂ (· ≤ ·) (due now (recordStamps F.bytes)) (played.map Prod.fst) ∧
        ∀ i p, played[i]? = some p →
          p.1 ≤ c + i * (work + jitter) + jitter ∨
            ∃ k ≤ i, ∃ d, (due now (recordStamps F.bytes))[k]? = some d ∧
              p.1 ≤ d + (i - k) * (work + jitter) + jitter := by
  have nonempty : F.bytes ≠ [] := by
    intro empty
    obtain ⟨u, refused⟩ := open_empty beyond empty hook s
    rw [opened] at refused
    cases refused
  obtain ⟨ok, u, v, answer, accepted, -⟩ := open_then_run beyond now nonempty hook s
  rw [opened] at answer
  cases answer
  obtain ⟨-, -, topics, stop, t, ran, -, callbacks⟩ := accepted rfl
  rw [topics, records_readTable] at callbacks
  obtain ⟨ws, paced⟩ := (paced_init now r.recordsStartOffset).runLoop _ ran
  rw [callbacks_traceOf ws paced.trace] at callbacks
  have same : stamps ws = recordStamps F.bytes := by
    rw [recordStamps, ← callbacks, List.map_map]
    rfl
  refine ⟨stop, t, ran, fun jitter work c => performs_exists jitter work c t.trace, ?_⟩
  intro jitter work c played performs
  rw [paced.trace] at performs
  obtain ⟨made, keeps⟩ := performs.keeps
  rw [targets_due paced.targets (same ▸ sum), same] at keeps
  refine ⟨made.trans callbacks, keeps.sorted, keeps.notBefore, ?_⟩
  intro i p started
  have start : (played.map Prod.fst)[i]? = some p.1 := by
    rw [List.getElem?_map, started]
    rfl
  simpa only [Nat.nsmul_eq_mul] using keeps.backlog start

theorem recordStamps_farApart : recordStamps farApart.bytes = [0, 0xFFFFFFFFFFFFFFFF] := by
  decide +kernel

/-- Replayed from time zero on, the second record is due as late as the clock can show. -/
theorem replay_keeps_time_farApart :
    ∃ r stop t, RecordReader.open 64 (fun _ => []) { file := some farApart } none {} () =
        some (true, r, ()) ∧ run 64 0 r = some (stop, t) ∧
      ∃ played, Performs 0 0 0 t.trace played ∧
        List.Forall₂ (· ≤ ·) [0, 2 ^ 64 - 1] (played.map Prod.fst) := by
  have wf : WellFormed farApart.bytes := ⟨by decide, by decide, by decide, by decide⟩
  obtain ⟨ok, r, opened, accepts, -⟩ := open_run_spec (fun _ => []) 0 wf.nonempty
  obtain rfl := accepts.mpr wf
  have sum : ∀ stampNs ∈ recordStamps farApart.bytes, (0 : UInt64).toNat +
      (stampNs.toNat - (origin (recordStamps farApart.bytes)).toNat) < 2 ^ 64 := by
    intro stampNs _
    have bound := stampNs.toNat_lt
    have zero : (0 : UInt64).toNat = 0 := rfl
    omega
  obtain ⟨stop, t, ran, some_way, every_way⟩ :=
    replay_keeps_time farApart (fun _ => []) none () () r opened 0 sum
  obtain ⟨played, performs⟩ := some_way 0 0 0
  obtain ⟨-, -, notBefore, -⟩ := every_way 0 0 0 played performs
  rw [recordStamps_farApart] at notBefore
  exact ⟨r, stop, t, opened, ran, played, performs, notBefore⟩

end ChronoCap.ReplayClock

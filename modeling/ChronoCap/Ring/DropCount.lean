/- module: ChronoCap/Ring/DropCount
   source: include/chrono_cap/record_writer.hpp, include/chrono_cap/mpsc_ring_buffer.hpp
   digest: Push calls against DroppedCount: a push refused for its length is not counted. -/

import ChronoCap.Ring.Ledger
import Mathlib.Data.Bool.Count

set_option autoImplicit false
set_option relaxedAutoImplicit false

namespace ChronoCap.Ring

open ChronoCap.Foundation
open ChronoCap.WireFormat

/-- The ring with what each Push call so far has returned. -/
structure Tally (cap : Capacity) where
  ring : MpscRingBuffer cap
  answers : List Bool

namespace Tally

variable {cap : Capacity}

def init : Tally cap := ⟨.init, []⟩

def machine (cap : Capacity) : Machine (Tally cap) Op where
  Enabled _ _ := True
  next t
    | .push a => ⟨(t.ring.tryPush a).2, t.answers ++ [(t.ring.tryPush a).1]⟩
    | .pop out => ⟨(t.ring.tryPop out).2.2, t.answers⟩

/-- `DroppedCount` -/
def dropped (t : Tally cap) : UInt64 := t.ring.droppedCount

def refused (t : Tally cap) : Nat := t.answers.count false

def recorded (t : Tally cap) : Nat := t.answers.count true

/-- Every refused call is counted, so that the counter makes up for what was not recorded. -/
structure Counted (t : Tally cap) : Prop where
  refused : t.dropped = UInt64.ofNat t.refused
  made : UInt64.ofNat t.answers.length = UInt64.ofNat t.recorded + t.dropped

instance (t : Tally cap) : Decidable t.Counted :=
  decidable_of_iff (t.dropped = UInt64.ofNat t.refused ∧
      UInt64.ofNat t.answers.length = UInt64.ofNat t.recorded + t.dropped)
    ⟨fun h => ⟨h.1, h.2⟩, fun h => ⟨h.1, h.2⟩⟩

/-- The payload has room in a slot. -/
def Fitting (_ : Tally cap) : Op → Prop
  | .push a => a.len.toNat ≤ kMaxPayloadBytes
  | .pop _ => True

variable {t : Tally cap}

/-- Every call was answered, one way or the other: the second equation follows from the first. -/
theorem counted_iff : t.Counted ↔ t.dropped = UInt64.ofNat t.refused := by
  constructor
  · exact Counted.refused
  · intro refused
    refine ⟨refused, ?_⟩
    rw [refused, ← UInt64.ofNat_add, recorded, Tally.refused, List.count_true_add_count_false]

theorem counted_init : (init : Tally cap).Counted := counted_iff.mpr rfl

theorem refused_push (a : PushArgs) : ((machine cap).next t (.push a)).refused =
    if (t.ring.tryPush a).1 then t.refused else t.refused + 1 := by
  change (t.answers ++ [(t.ring.tryPush a).1]).count false = _
  rw [List.count_append]
  cases (t.ring.tryPush a).1 <;> rfl

/-- A push keeps the account exactly if its payload fits. -/
theorem counted_push_iff (counted : t.Counted) (a : PushArgs) :
    ((machine cap).next t (.push a)).Counted ↔ a.len.toNat ≤ kMaxPayloadBytes := by
  have before := counted.refused
  rw [counted_iff, refused_push]
  change (t.ring.tryPush a).2.droppedCount = _ ↔ _
  by_cases fits : a.len.toNat ≤ kMaxPayloadBytes
  · cases busy : (t.ring.slots (cap.slot t.ring.writeIndex)).ready with
    | true =>
        rw [MpscRingBuffer.tryPush_rejected fits busy]
        change t.dropped + 1 = UInt64.ofNat (t.refused + 1) ↔ _
        rw [before, UInt64.ofNat_add]
        exact iff_of_true rfl fits
    | false =>
        rw [MpscRingBuffer.tryPush_accepted fits busy]
        exact iff_of_true before fits
  · -- the early return for a payload without room leaves the counter as it was
    rw [MpscRingBuffer.tryPush_oversized (Nat.lt_of_not_le fits)]
    change t.dropped = UInt64.ofNat (t.refused + 1) ↔ _
    rw [before, UInt64.ofNat_add]
    refine iff_of_false ?_ fits
    intro same
    exact absurd (UInt64.left_eq_add.mp same) (by decide)

theorem counted_pop (counted : t.Counted) (out : PoppedRecord) :
    ((machine cap).next t (.pop out)).Counted := by
  have before := counted.refused
  rw [counted_iff]
  change (t.ring.tryPop out).2.2.droppedCount = UInt64.ofNat t.refused
  cases ready : (t.ring.slots (cap.slot t.ring.readIndex)).ready with
  | true =>
      rw [MpscRingBuffer.tryPop_ready ready]
      exact before
  | false =>
      rw [MpscRingBuffer.tryPop_empty ready]
      exact before

/-- The ring after a sequence of calls on a new writer, with their answers. -/
def after (ops : List Op) : Tally cap := ops.foldl (machine cap).next init

theorem fires_fitting_iff (t : Tally cap) (ops : List Op) :
    (machine cap).Fires Fitting t ops ↔
      ∀ a, Op.push a ∈ ops → a.len.toNat ≤ kMaxPayloadBytes := by
  induction ops generalizing t with
  | nil => simp [Machine.Fires]
  | cons op ops ih =>
      rw [Machine.Fires, ih]
      cases op with
      | push a => simp [machine, Fitting]
      | pop out => simp [machine, Fitting]

/-- Refused calls and DroppedCount agree at every point of a run exactly if no payload of the run
is longer than a slot. -/
theorem counted_iff_fitting (cap : Capacity) (ops : List Op) :
    (∀ made, made <+: ops → (after made : Tally cap).Counted) ↔
      ∀ a, Op.push a ∈ ops → a.len.toNat ≤ kMaxPayloadBytes := by
  rw [← fires_fitting_iff (init : Tally cap)]
  apply Machine.always_iff_fires (fun _ _ => trivial) (fun _ => True) trivial counted_init
  · intro t op _ counted
    cases op with
    | push a => exact counted_push_iff counted a
    | pop out => exact iff_of_true (counted_pop counted out) trivial
  · exact fun _ _ _ _ _ => trivial

/-- A payload of one byte more than a slot holds. -/
def oversized : PushArgs := ⟨1, 0, 0, List.replicate 65 0, 65, by decide⟩

/-- It is refused, and nothing counts it. -/
theorem oversized_not_counted :
    (after [.push oversized] : Tally pair).answers = [false] ∧
      (after [.push oversized] : Tally pair).dropped = 0 ∧
      ¬ (after [.push oversized] : Tally pair).Counted := by
  refine ⟨by decide, by decide, by decide⟩

end Tally

end ChronoCap.Ring

/- module: ChronoCap/Ring/Ledger
   source: include/chrono_cap/mpsc_ring_buffer.hpp
   digest: Runs of whole pushes and pops, with a ledger of which push sits in which slot. -/

import ChronoCap.Foundation.Machine
import ChronoCap.Ring.MpscRingBuffer
import Mathlib.Algebra.BigOperators.Group.Finset.Basic
import Mathlib.Algebra.Order.BigOperators.Group.Finset
import Mathlib.Data.Fintype.BigOperators
import Mathlib.Tactic.Abel

set_option autoImplicit false
set_option relaxedAutoImplicit false

namespace ChronoCap.Ring

open ChronoCap.Foundation
open ChronoCap.WireFormat

/-- One call, taken as one step. A pop names the caller's buffer it is given. -/
inductive Op where
  | push (a : PushArgs)
  | pop (out : PoppedRecord)

/-- The ring with its history. Accepted pushes are numbered in the order of acceptance; `owner`
is the number of the push whose data a slot holds, `popped` lists each pop with the number of
the push it drained, and `behind` the pushes that were accepted behind an empty slot. -/
structure Ledger (cap : Capacity) where
  ring : MpscRingBuffer cap
  accepted : List PushArgs
  owner : Fin cap.val → Nat
  popped : List (Nat × PoppedRecord)
  behind : List Nat

namespace Ledger

variable {cap : Capacity}

def init : Ledger cap := ⟨.init, [], fun _ => 0, [], []⟩

def push (t : Ledger cap) (a : PushArgs) : Ledger cap :=
  match t.ring.tryPush a with
  | (true, ring) =>
      { ring
        accepted := t.accepted ++ [a]
        owner := Function.update t.owner (cap.slot t.ring.writeIndex) t.accepted.length
        popped := t.popped
        behind := if t.ring.NoGap then t.behind else t.behind ++ [t.accepted.length] }
  | (false, ring) => { t with ring }

def pop (t : Ledger cap) (out : PoppedRecord) : Ledger cap :=
  match t.ring.tryPop out with
  | (true, out, ring) =>
      { t with ring, popped := t.popped ++ [(t.owner (cap.slot t.ring.readIndex), out)] }
  | (false, _, ring) => { t with ring }

def machine (cap : Capacity) : Machine (Ledger cap) Op where
  Enabled _ _ := True
  next t
    | .push a => t.push a
    | .pop out => t.pop out

variable (t : Ledger cap)

/-- The push that `n` numbers, as the record it hands over. -/
def record (n : Nat) : Option Record := (t.accepted.map PushArgs.record)[n]?

def Ready (i : Fin cap.val) : Prop := (t.ring.slots i).ready = true

instance (i : Fin cap.val) : Decidable (t.Ready i) := inferInstanceAs (Decidable (_ = _))

/-- A push is accepted: its slot was free, and it fills that slot and becomes its owner. -/
structure Accepts (a : PushArgs) : Prop where
  fits : a.len.toNat ≤ kMaxPayloadBytes
  free : ¬ t.Ready (cap.slot t.ring.writeIndex)

instance (a : PushArgs) : Decidable (t.Accepts a) :=
  decidable_of_iff (a.len.toNat ≤ kMaxPayloadBytes ∧ ¬ t.Ready (cap.slot t.ring.writeIndex))
    ⟨fun h => ⟨h.1, h.2⟩, fun h => ⟨h.1, h.2⟩⟩

theorem push_accepted {a : PushArgs} (h : t.Accepts a) :
    t.push a =
      { ring := { t.ring with
          writeIndex := t.ring.writeIndex + 1
          slots := Function.update t.ring.slots (cap.slot t.ring.writeIndex)
            ((t.ring.slots (cap.slot t.ring.writeIndex)).fill a) }
        accepted := t.accepted ++ [a]
        owner := Function.update t.owner (cap.slot t.ring.writeIndex) t.accepted.length
        popped := t.popped
        behind := if t.ring.NoGap then t.behind else t.behind ++ [t.accepted.length] } := by
  have free : (t.ring.slots (cap.slot t.ring.writeIndex)).ready = false := by
    simpa [Ready] using h.free
  rw [push, MpscRingBuffer.tryPush_accepted h.fits free]

theorem push_oversized {a : PushArgs} (large : kMaxPayloadBytes < a.len.toNat) : t.push a = t := by
  rw [push, MpscRingBuffer.tryPush_oversized large]

theorem push_rejected {a : PushArgs} (fits : a.len.toNat ≤ kMaxPayloadBytes)
    (busy : t.Ready (cap.slot t.ring.writeIndex)) :
    t.push a = { t with ring := { t.ring with
      writeIndex := t.ring.writeIndex + 1, droppedCount := t.ring.droppedCount + 1 } } := by
  rw [push, MpscRingBuffer.tryPush_rejected fits busy]

/-- A refused push moves cursors and counters only. -/
theorem push_refused {a : PushArgs} (h : ¬ t.Accepts a) :
    ∃ w d, t.push a = { t with ring := { t.ring with writeIndex := w, droppedCount := d } } := by
  by_cases fits : a.len.toNat ≤ kMaxPayloadBytes
  · have busy : t.Ready (cap.slot t.ring.writeIndex) := by
      by_contra free
      exact h ⟨fits, free⟩
    exact ⟨_, _, t.push_rejected fits busy⟩
  · exact ⟨_, _, t.push_oversized (Nat.lt_of_not_le fits)⟩

theorem pop_ready (h : t.Ready (cap.slot t.ring.readIndex)) (out : PoppedRecord) :
    t.pop out =
      { t with
        ring := { t.ring with
          slots := Function.update t.ring.slots (cap.slot t.ring.readIndex)
            { t.ring.slots (cap.slot t.ring.readIndex) with ready := false }
          readIndex := t.ring.readIndex + 1 }
        popped := t.popped ++ [(t.owner (cap.slot t.ring.readIndex),
          (t.ring.slots (cap.slot t.ring.readIndex)).readInto out)] } := by
  rw [pop, MpscRingBuffer.tryPop_ready h]

theorem pop_empty (h : ¬ t.Ready (cap.slot t.ring.readIndex)) (out : PoppedRecord) :
    t.pop out = t := by
  have free : (t.ring.slots (cap.slot t.ring.readIndex)).ready = false := by
    simpa [Ready] using h
  rw [pop, MpscRingBuffer.tryPop_empty free]

theorem accepted_push (a : PushArgs) :
    (t.push a).accepted = if t.Accepts a then t.accepted ++ [a] else t.accepted := by
  split
  · rename_i h
    rw [t.push_accepted h]
  · rename_i h
    obtain ⟨_, _, eq⟩ := t.push_refused h
    rw [eq]

theorem popped_push (a : PushArgs) : (t.push a).popped = t.popped := by
  by_cases h : t.Accepts a
  · rw [t.push_accepted h]
  · obtain ⟨_, _, eq⟩ := t.push_refused h
    rw [eq]

theorem accepted_pop (out : PoppedRecord) : (t.pop out).accepted = t.accepted := by
  by_cases h : t.Ready (cap.slot t.ring.readIndex)
  · rw [t.pop_ready h]
  · rw [t.pop_empty h]

/-- The numbers of the pushes a slot holds: its owner while it is ready, nothing else. -/
def holding (i : Fin cap.val) : Multiset Nat :=
  bif (t.ring.slots i).ready then {t.owner i} else 0

/-- What the ready slots hold. -/
def contents (i : Fin cap.val) : Multiset Record :=
  bif (t.ring.slots i).ready then {(t.ring.slots i).record} else 0

/-- Every number is either popped once or held by one slot, and stands for the record there. -/
structure Conserved : Prop where
  held : ∀ i, t.Ready i → t.record (t.owner i) = some (t.ring.slots i).record ∧
    (t.ring.slots i).payloadLen.toNat ≤ kMaxPayloadBytes
  drained : ∀ p ∈ t.popped, t.record p.1 = some p.2.record ∧
    p.2.payloadLen.toNat ≤ kMaxPayloadBytes
  count : (t.popped.map Prod.fst : Multiset Nat) + ∑ i, t.holding i =
    Multiset.range t.accepted.length

/-- Replacing one term of a sum trades that term for the new one. -/
theorem sum_update_add {ι M : Type*} [Fintype ι] [DecidableEq ι] [AddCommMonoid M]
    (f : ι → M) (i : ι) (v : M) :
    ∑ x, Function.update f i v x + f i = ∑ x, f x + v := by
  rw [Finset.sum_update_of_mem (Finset.mem_univ i), add_assoc, add_comm v]
  congr 1
  rw [add_comm, ← Finset.erase_eq]
  exact Finset.add_sum_erase _ _ (Finset.mem_univ i)

variable {t}

theorem record_append {n : Nat} {x : Record} (h : t.record n = some x) (a : PushArgs) :
    ((t.accepted ++ [a]).map PushArgs.record)[n]? = some x := by
  obtain ⟨bound, -⟩ := List.getElem?_eq_some_iff.mp h
  rw [List.map_append, List.getElem?_append_left bound]
  exact h

theorem conserved_init : Conserved (init : Ledger cap) where
  held i h := by simp [Ready, init, MpscRingBuffer.init] at h
  drained := by simp [init]
  count := by simp [init, holding, MpscRingBuffer.init]

theorem Conserved.push_accepted (inv : Conserved t) {a : PushArgs} (h : t.Accepts a) :
    Conserved (t.push a) := by
  rw [t.push_accepted h]
  refine ⟨?_, ?_, ?_⟩
  · intro i ready
    by_cases hi : i = cap.slot t.ring.writeIndex
    · subst hi
      simp only [Function.update_self, record, Slot.record_fill _ h.fits]
      exact ⟨by simp, h.fits⟩
    · simp only [Ready, Function.update_of_ne hi] at ready
      obtain ⟨number, fits⟩ := inv.held i ready
      simp only [Function.update_of_ne hi, record]
      exact ⟨record_append number a, fits⟩
  · intro p hp
    obtain ⟨number, fits⟩ := inv.drained p hp
    exact ⟨record_append number a, fits⟩
  · have holding_eq : ∀ i, holding (t.push a) i = Function.update t.holding
        (cap.slot t.ring.writeIndex) {t.accepted.length} i := by
      intro i
      rw [t.push_accepted h]
      by_cases hi : i = cap.slot t.ring.writeIndex
      · subst hi
        simp [holding, Slot.fill]
      · simp [holding, Function.update_of_ne hi]
    have free : (t.ring.slots (cap.slot t.ring.writeIndex)).ready = false := by
      simpa [Ready] using h.free
    have free : t.holding (cap.slot t.ring.writeIndex) = 0 := by simp [holding, free]
    have total := sum_update_add t.holding (cap.slot t.ring.writeIndex) {t.accepted.length}
    rw [free, add_zero] at total
    rw [← t.push_accepted h, Finset.sum_congr rfl (fun i _ => holding_eq i), total, ← add_assoc]
    rw [t.popped_push, t.accepted_push, if_pos h, inv.count, List.length_append,
      List.length_singleton, Multiset.range_succ, add_comm, Multiset.singleton_add]

theorem Conserved.pop_ready (inv : Conserved t) (h : t.Ready (cap.slot t.ring.readIndex))
    (out : PoppedRecord) : Conserved (t.pop out) := by
  obtain ⟨front, fits⟩ := inv.held _ h
  refine ⟨?_, ?_, ?_⟩
  · intro i ready
    rw [t.pop_ready h] at ready ⊢
    by_cases hi : i = cap.slot t.ring.readIndex
    · subst hi
      simp [Ready] at ready
    · simp only [Ready, Function.update_of_ne hi] at ready ⊢
      exact inv.held i ready
  · intro p hp
    rw [t.pop_ready h] at hp ⊢
    rcases List.mem_append.mp hp with old | new
    · exact inv.drained p old
    · obtain rfl := List.mem_singleton.mp new
      rw [Slot.record_readInto fits]
      exact ⟨front, fits⟩
  · have holding_eq : ∀ i, holding (t.pop out) i =
        Function.update t.holding (cap.slot t.ring.readIndex) 0 i := by
      intro i
      rw [t.pop_ready h]
      by_cases hi : i = cap.slot t.ring.readIndex
      · subst hi
        simp [holding]
      · simp [holding, Function.update_of_ne hi]
    have front : t.holding (cap.slot t.ring.readIndex) =
        {t.owner (cap.slot t.ring.readIndex)} := by
      simp [holding, show (t.ring.slots (cap.slot t.ring.readIndex)).ready = true from h]
    have total := sum_update_add t.holding (cap.slot t.ring.readIndex) 0
    rw [add_zero, front] at total
    have popped : (t.pop out).popped.map Prod.fst =
        t.popped.map Prod.fst ++ [t.owner (cap.slot t.ring.readIndex)] := by
      rw [t.pop_ready h, List.map_append]
      rfl
    rw [Finset.sum_congr rfl (fun i _ => holding_eq i), popped, t.accepted_pop, ← inv.count,
      ← total, ← Multiset.coe_add, Multiset.coe_singleton]
    abel

theorem Conserved.push (inv : Conserved t) (a : PushArgs) : Conserved (t.push a) := by
  by_cases h : t.Accepts a
  · exact inv.push_accepted h
  · obtain ⟨w, d, eq⟩ := t.push_refused h
    rw [eq]
    exact ⟨inv.held, inv.drained, inv.count⟩

theorem Conserved.pop (inv : Conserved t) (out : PoppedRecord) : Conserved (t.pop out) := by
  by_cases h : t.Ready (cap.slot t.ring.readIndex)
  · exact inv.pop_ready h out
  · rw [t.pop_empty h]
    exact inv

theorem conserved_of_run {ops : List Op} (run : (machine cap).Run Machine.Free init ops t) :
    Conserved t := by
  apply run.invariant conserved_init
  intro t op inv _ _
  cases op with
  | push a => exact inv.push a
  | pop out => exact inv.pop out

/-- What is known of each record that lies in the ring, and of the number of its push. -/
def Holds (t : Ledger cap) (Q : Nat → Record → Prop) : Prop :=
  ∀ i, t.Ready i → Q (t.owner i) (t.ring.slots i).record

theorem Holds.push {Q : Nat → Record → Prop} (holds : t.Holds Q) {a : PushArgs}
    (new : t.Accepts a → Q t.accepted.length a.record) : (t.push a).Holds Q := by
  by_cases h : t.Accepts a
  · rw [t.push_accepted h]
    intro i ready
    by_cases hi : i = cap.slot t.ring.writeIndex
    · subst hi
      simp only [Function.update_self, Slot.record_fill _ h.fits]
      exact new h
    · simp only [Ready, Function.update_of_ne hi] at ready
      simp only [Function.update_of_ne hi]
      exact holds i ready
  · obtain ⟨w, d, eq⟩ := t.push_refused h
    rw [eq]
    exact holds

theorem Holds.pop {Q : Nat → Record → Prop} (holds : t.Holds Q) (out : PoppedRecord) :
    (t.pop out).Holds Q := by
  by_cases h : t.Ready (cap.slot t.ring.readIndex)
  · rw [t.pop_ready h]
    intro i ready
    by_cases hi : i = cap.slot t.ring.readIndex
    · subst hi
      simp [Ready] at ready
    · simp only [Ready, Function.update_of_ne hi] at ready
      simp only [Function.update_of_ne hi]
      exact holds i ready
  · rw [t.pop_empty h]
    exact holds

/-- What a pop hands over was in the ring. -/
theorem Holds.popped {Q : Nat → Record → Prop} (holds : t.Holds Q) (inv : Conserved t)
    {out : PoppedRecord} {p : Nat × PoppedRecord}
    (popped : (t.pop out).popped = t.popped ++ [p]) : Q p.1 p.2.record := by
  by_cases h : t.Ready (cap.slot t.ring.readIndex)
  · rw [t.pop_ready h] at popped
    obtain rfl := List.singleton_inj.mp (List.append_cancel_left popped)
    rw [Slot.record_readInto (inv.held _ h).2]
    exact holds _ h
  · rw [t.pop_empty h] at popped
    simp at popped

/-- The ledger after a sequence of calls on a new ring. -/
def after (ops : List Op) : Ledger cap := ops.foldl (machine cap).next init

theorem run_after (ops : List Op) : (machine cap).Run Machine.Free init ops (after ops) :=
  Machine.run_foldl (fun _ _ => trivial) init ops

/-- A pop agrees with the push it drained. -/
structure Agrees (p : PoppedRecord) (a : PushArgs) : Prop where
  topicId : p.topicId = a.topicId
  stampNs : p.stampNs = a.stampNs
  seq : p.seq = a.seq
  payloadLen : p.payloadLen = a.len
  fits : p.payloadLen.toNat ≤ kMaxPayloadBytes
  payload : p.payload.toList.take p.payloadLen.toNat = a.data.take a.len.toNat

theorem Conserved.agrees (inv : Conserved t) {p : Nat × PoppedRecord} (hp : p ∈ t.popped) :
    ∃ a, t.accepted[p.1]? = some a ∧ Agrees p.2 a := by
  obtain ⟨number, fits⟩ := inv.drained p hp
  rw [record, List.getElem?_map] at number
  obtain ⟨a, found, same⟩ := Option.map_eq_some_iff.mp number
  injection same with topicId stampNs seq payloadLen payload
  exact ⟨a, found, topicId.symm, stampNs.symm, seq.symm, payloadLen.symm, fits, payload.symm⟩

theorem Conserved.records (inv : Conserved t) :
    (t.accepted.map PushArgs.record : Multiset Record) =
      t.popped.map (fun p => p.2.record) + ∑ i, t.contents i := by
  -- read every number of the count as the record it stands for
  have count := congrArg (Multiset.map t.record) inv.count
  have held : ∀ i, (t.holding i).map t.record = (t.contents i).map some := by
    intro i
    by_cases ready : (t.ring.slots i).ready = true
    · simp [holding, contents, ready, (inv.held i ready).1]
    · simp [holding, contents, ready]
  have sum : (∑ i, t.holding i).map t.record = (∑ i, t.contents i).map some := by
    have left := map_sum (Multiset.mapAddMonoidHom t.record) t.holding Finset.univ
    have right :=
      map_sum (Multiset.mapAddMonoidHom (some : Record → Option Record)) t.contents Finset.univ
    simp only [Multiset.coe_mapAddMonoidHom] at left right
    rw [left, right]
    exact Finset.sum_congr rfl (fun i _ => held i)
  have popped : (t.popped.map Prod.fst).map t.record =
      (t.popped.map (fun p => p.2.record)).map some := by
    rw [List.map_map, List.map_map]
    exact List.map_congr_left (fun p hp => (inv.drained p hp).1)
  have accepted : (Multiset.range t.accepted.length).map t.record =
      (t.accepted.map PushArgs.record : Multiset Record).map some := by
    rw [← Multiset.coe_range, Multiset.map_coe, Multiset.map_coe]
    congr 1
    apply List.ext_getElem
    · simp
    · intro n hn _
      have hn : n < t.accepted.length := by simpa using hn
      simp [record, hn]
  rw [Multiset.map_add, sum, Multiset.map_coe, popped, accepted, ← Multiset.map_coe,
    ← Multiset.map_add] at count
  exact (Multiset.map_injective (Option.some_injective Record) count).symm

theorem Conserved.numbers_nodup (inv : Conserved t) : (t.popped.map Prod.fst).Nodup := by
  have whole : ((t.popped.map Prod.fst : Multiset Nat) + ∑ i, t.holding i).Nodup := by
    rw [inv.count]
    exact Multiset.nodup_range _
  exact Multiset.coe_nodup.mp (Multiset.nodup_of_le (Multiset.le_add_right _ _) whole)

theorem Conserved.length_le (inv : Conserved t) :
    t.accepted.length ≤ t.popped.length + cap.val := by
  have total := congrArg Multiset.card inv.count
  have each : ∀ i, (t.holding i).card ≤ 1 := by
    intro i
    unfold holding
    cases (t.ring.slots i).ready <;> simp
  have held : ∑ i, (t.holding i).card ≤ cap.val := by
    simpa using Finset.sum_le_sum (fun i (_ : i ∈ Finset.univ) => each i)
  simp only [Multiset.card_add, Multiset.coe_card, List.length_map, Multiset.card_range,
    Multiset.card_sum] at total
  omega

/-- Nothing a ring accepted is lost, made up, doubled or overwritten: at every point of every
run the accepted records are the popped ones and those the ready slots hold. -/
theorem accepted_eq_popped_add_contents (cap : Capacity) (ops : List Op) :
    let t : Ledger cap := after ops
    (t.accepted.map PushArgs.record : Multiset Record) =
        t.popped.map (fun p => p.2.record) + ∑ i, t.contents i ∧
      t.accepted.length ≤ t.popped.length + cap.val ∧
      (t.popped.map Prod.fst).Nodup ∧
      ∀ p ∈ t.popped, ∃ a, t.accepted[p.1]? = some a ∧ Agrees p.2 a := by
  have inv : Conserved (after ops : Ledger cap) := conserved_of_run (run_after ops)
  exact ⟨inv.records, inv.length_le, inv.numbers_nodup, fun p hp => inv.agrees hp⟩

end Ledger

end ChronoCap.Ring

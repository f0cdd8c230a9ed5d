/- module: ChronoCap/Ring/MpscRingBuffer
   source: include/chrono_cap/mpsc_ring_buffer.hpp
   digest: The bounded ring buffer, its cursors and slots, and one whole TryPush or TryPop. -/

import ChronoCap.WireFormat
import Mathlib.Data.Nat.ModEq

set_option autoImplicit false
set_option relaxedAutoImplicit false

namespace ChronoCap.Ring

open ChronoCap.WireFormat

/-- The template argument: a `std::size_t` that is a power of two and not zero. -/
structure Capacity where
  val : Nat
  pos : 0 < val
  static_assert : val &&& (val - 1) = 0
  lt_size : val < 2 ^ 64

namespace Capacity

variable (cap : Capacity)

theorem exists_eq_two_pow : ∃ k < 64, cap.val = 2 ^ k := by
  obtain ⟨k, hk⟩ := (Nat.and_sub_one_eq_zero_iff_isPowerOfTwo cap.pos.ne').mp cap.static_assert
  refine ⟨k, ?_, hk⟩
  by_contra large
  have := Nat.pow_le_pow_right (show 0 < 2 by decide) (Nat.le_of_not_lt large)
  have := cap.lt_size
  omega

theorem dvd_size : cap.val ∣ 2 ^ 64 := by
  obtain ⟨k, hk, eq⟩ := cap.exists_eq_two_pow
  exact eq ▸ Nat.pow_dvd_pow 2 hk.le

/-- `idx & (Capacity - 1)` -/
def slot (idx : UInt64) : Fin cap.val :=
  ⟨(idx &&& UInt64.ofNat (cap.val - 1)).toNat, by
    have bound : (UInt64.ofNat (cap.val - 1)).toNat ≤ cap.val - 1 := by
      rw [UInt64.toNat_ofNat']
      exact Nat.mod_le _ _
    have := Nat.and_le_right (n := idx.toNat) (m := (UInt64.ofNat (cap.val - 1)).toNat)
    have := cap.pos
    rw [UInt64.toNat_and]
    omega⟩

/-- Masking a cursor keeps it modulo the capacity. -/
theorem slot_val (idx : UInt64) : (cap.slot idx).val = idx.toNat % cap.val := by
  obtain ⟨k, -, eq⟩ := cap.exists_eq_two_pow
  have small : (UInt64.ofNat (cap.val - 1)).toNat = 2 ^ k - 1 := by
    rw [UInt64.toNat_ofNat', ← eq]
    have := cap.lt_size
    exact Nat.mod_eq_of_lt (by omega)
  change (idx &&& UInt64.ofNat (cap.val - 1)).toNat = _
  rw [UInt64.toNat_and, small, Nat.and_two_pow_sub_one_eq_mod, eq]

/-- The slot `j` places after the one a cursor points at. -/
def ahead (idx : UInt64) (j : Nat) : Fin cap.val := cap.slot (idx + UInt64.ofNat j)

theorem ahead_val (idx : UInt64) (j : Nat) :
    (cap.ahead idx j).val = (idx.toNat + j) % cap.val := by
  rw [ahead, slot_val, UInt64.toNat_add, UInt64.toNat_ofNat', Nat.mod_mod_of_dvd _ cap.dvd_size,
    Nat.add_mod, Nat.mod_mod_of_dvd _ cap.dvd_size, ← Nat.add_mod]

@[simp] theorem ahead_zero (idx : UInt64) : cap.ahead idx 0 = cap.slot idx := by
  apply Fin.ext
  rw [ahead_val, slot_val, Nat.add_zero]

/-- Moving the cursor by one shifts every distance from it by one, also over the wrap. -/
theorem ahead_succ (idx : UInt64) (j : Nat) : cap.ahead (idx + 1) j = cap.ahead idx (j + 1) := by
  apply Fin.ext
  rw [ahead_val, ahead_val, UInt64.toNat_add, Nat.add_mod, Nat.mod_mod_of_dvd _ cap.dvd_size,
    ← Nat.add_mod, show idx.toNat + (1 : UInt64).toNat + j = idx.toNat + (j + 1) by
      simp
      omega]

theorem ahead_cap (idx : UInt64) : cap.ahead idx cap.val = cap.slot idx := by
  apply Fin.ext
  rw [ahead_val, slot_val, Nat.add_mod_right]

theorem ahead_inj {idx : UInt64} {i j : Nat} (hi : i < cap.val) (hj : j < cap.val)
    (h : cap.ahead idx i = cap.ahead idx j) : i = j := by
  have eq := congrArg Fin.val h
  rw [ahead_val, ahead_val] at eq
  have cancel := Nat.ModEq.add_left_cancel' idx.toNat eq
  exact Nat.ModEq.eq_of_lt_of_lt cancel hi hj

/-- How far a slot lies after the one the cursor points at. -/
def distance (idx : UInt64) (i : Fin cap.val) : Nat :=
  (i.val + (cap.val - idx.toNat % cap.val)) % cap.val

theorem distance_lt (idx : UInt64) (i : Fin cap.val) : cap.distance idx i < cap.val :=
  Nat.mod_lt _ cap.pos

@[simp] theorem ahead_distance (idx : UInt64) (i : Fin cap.val) :
    cap.ahead idx (cap.distance idx i) = i := by
  apply Fin.ext
  have low : idx.toNat % cap.val < cap.val := Nat.mod_lt _ cap.pos
  rw [ahead_val, distance, Nat.add_mod_mod, ← Nat.mod_add_mod,
    show idx.toNat % cap.val + (i.val + (cap.val - idx.toNat % cap.val)) = i.val + cap.val by omega,
    Nat.add_mod_right, Nat.mod_eq_of_lt i.isLt]

end Capacity

/-- What one record carries: the fields, and the first `payload_len` payload bytes. -/
structure Record where
  topicId : UInt16
  stampNs : UInt64
  seq : UInt64
  payloadLen : UInt32
  bytes : List UInt8
  deriving DecidableEq, Repr

/-- The arguments of a push; `data` points at `len` readable bytes at least. -/
structure PushArgs where
  topicId : UInt16
  stampNs : UInt64
  seq : UInt64
  data : List UInt8
  len : UInt32
  readable : len.toNat ≤ data.length
  deriving DecidableEq

def PushArgs.record (a : PushArgs) : Record :=
  ⟨a.topicId, a.stampNs, a.seq, a.len, a.data.take a.len.toNat⟩

structure PoppedRecord where
  topicId : UInt16 := 0
  stampNs : UInt64 := 0
  seq : UInt64 := 0
  payloadLen : UInt32 := 0
  payload : Vector UInt8 kMaxPayloadBytes := Vector.replicate kMaxPayloadBytes 0
  deriving DecidableEq, Repr

def PoppedRecord.record (p : PoppedRecord) : Record :=
  ⟨p.topicId, p.stampNs, p.seq, p.payloadLen, p.payload.toList.take p.payloadLen.toNat⟩

structure Slot where
  ready : Bool := false
  topicId : UInt16 := 0
  stampNs : UInt64 := 0
  seq : UInt64 := 0
  payloadLen : UInt32 := 0
  payload : Vector UInt8 kMaxPayloadBytes := Vector.replicate kMaxPayloadBytes 0
  deriving DecidableEq, Repr

def Slot.record (s : Slot) : Record :=
  ⟨s.topicId, s.stampNs, s.seq, s.payloadLen, s.payload.toList.take s.payloadLen.toNat⟩

/-- `memcpy` of the first `len` bytes of `src` into an array. -/
def memcpy {n : Nat} (dst : Vector UInt8 n) (src : List UInt8) (len : Nat) : Vector UInt8 n :=
  Vector.ofFn (fun i => if i.val < len then src.getD i.val 0 else dst[i])

theorem take_memcpy {n : Nat} (dst : Vector UInt8 n) {src : List UInt8} {len : Nat}
    (fits : len ≤ n) (readable : len ≤ src.length) :
    (memcpy dst src len).toList.take len = src.take len := by
  apply List.ext_getElem
  · simp [fits, readable]
  · intro i hi _
    have hlen : i < len := by
      simp only [List.length_take] at hi
      omega
    have hsrc : i < src.length := by omega
    simp [memcpy, hlen, hsrc, List.getD]

structure MpscRingBuffer (cap : Capacity) where
  slots : Fin cap.val → Slot
  writeIndex : UInt64
  readIndex : UInt64
  droppedCount : UInt64

namespace MpscRingBuffer

variable {cap : Capacity}

def init : MpscRingBuffer cap := ⟨fun _ => {}, 0, 0, 0⟩

def tryPush (r : MpscRingBuffer cap) (a : PushArgs) : Bool × MpscRingBuffer cap :=
  if a.len.toNat > kMaxPayloadBytes then
    (false, r)
  else
    let idx := r.writeIndex
    let r := { r with writeIndex := idx + 1 }
    let slot := r.slots (cap.slot idx)
    if slot.ready then
      (false, { r with droppedCount := r.droppedCount + 1 })
    else
      let slot := { slot with
        topicId := a.topicId, stampNs := a.stampNs, seq := a.seq, payloadLen := a.len
        payload := memcpy slot.payload a.data a.len.toNat }
      (true, { r with slots := Function.update r.slots (cap.slot idx) { slot with ready := true } })

def tryPop (r : MpscRingBuffer cap) (out : PoppedRecord) :
    Bool × PoppedRecord × MpscRingBuffer cap :=
  let slot := r.slots (cap.slot r.readIndex)
  if !slot.ready then
    (false, out, r)
  else
    let out := { out with
      topicId := slot.topicId, stampNs := slot.stampNs, seq := slot.seq
      payloadLen := slot.payloadLen
      payload := memcpy out.payload slot.payload.toList slot.payloadLen.toNat }
    (true, out, { r with
      slots := Function.update r.slots (cap.slot r.readIndex) { slot with ready := false }
      readIndex := r.readIndex + 1 })

/-- No slot from the one to be popped next up to the one the next push claims is empty. -/
def NoGap (r : MpscRingBuffer cap) : Prop :=
  ∀ j < cap.distance r.readIndex (cap.slot r.writeIndex),
    (r.slots (cap.ahead r.readIndex j)).ready = true

instance (r : MpscRingBuffer cap) : Decidable r.NoGap :=
  inferInstanceAs (Decidable (∀ j < _, _))

end MpscRingBuffer

/-! The slot after a push went through it, and the record a pop reads out of it. -/

def Slot.fill (s : Slot) (a : PushArgs) : Slot :=
  ⟨true, a.topicId, a.stampNs, a.seq, a.len, memcpy s.payload a.data a.len.toNat⟩

def Slot.readInto (s : Slot) (out : PoppedRecord) : PoppedRecord :=
  ⟨s.topicId, s.stampNs, s.seq, s.payloadLen,
    memcpy out.payload s.payload.toList s.payloadLen.toNat⟩

/-- Older bytes of the slot do not show in the record it holds. -/
theorem Slot.record_fill (s : Slot) {a : PushArgs} (fits : a.len.toNat ≤ kMaxPayloadBytes) :
    (s.fill a).record = a.record := by
  simp only [Slot.record, Slot.fill, PushArgs.record, take_memcpy _ fits a.readable]

/-- Older bytes of the caller's buffer do not show in the record it receives. -/
theorem Slot.record_readInto {s : Slot} (fits : s.payloadLen.toNat ≤ kMaxPayloadBytes)
    (out : PoppedRecord) : (s.readInto out).record = s.record := by
  simp only [PoppedRecord.record, Slot.readInto, Slot.record,
    take_memcpy _ fits (show s.payloadLen.toNat ≤ s.payload.toList.length by simpa using fits)]

namespace MpscRingBuffer

variable {cap : Capacity} {r : MpscRingBuffer cap} {a : PushArgs}

theorem tryPush_oversized (large : kMaxPayloadBytes < a.len.toNat) :
    r.tryPush a = (false, r) := by
  simp [tryPush, large]

theorem tryPush_rejected (fits : a.len.toNat ≤ kMaxPayloadBytes)
    (busy : (r.slots (cap.slot r.writeIndex)).ready = true) :
    r.tryPush a = (false, { r with
      writeIndex := r.writeIndex + 1, droppedCount := r.droppedCount + 1 }) := by
  simp [tryPush, Nat.not_lt.mpr fits, busy]

theorem tryPush_accepted (fits : a.len.toNat ≤ kMaxPayloadBytes)
    (free : (r.slots (cap.slot r.writeIndex)).ready = false) :
    r.tryPush a = (true, { r with
      writeIndex := r.writeIndex + 1
      slots := Function.update r.slots (cap.slot r.writeIndex)
        ((r.slots (cap.slot r.writeIndex)).fill a) }) := by
  simp [tryPush, Nat.not_lt.mpr fits, free, Slot.fill]

theorem tryPop_empty (free : (r.slots (cap.slot r.readIndex)).ready = false)
    (out : PoppedRecord) : r.tryPop out = (false, out, r) := by
  simp [tryPop, free]

theorem tryPop_ready (busy : (r.slots (cap.slot r.readIndex)).ready = true)
    (out : PoppedRecord) :
    r.tryPop out = (true, (r.slots (cap.slot r.readIndex)).readInto out, { r with
      slots := Function.update r.slots (cap.slot r.readIndex)
        { r.slots (cap.slot r.readIndex) with ready := false }
      readIndex := r.readIndex + 1 }) := by
  simp [tryPop, busy, Slot.readInto]

end MpscRingBuffer

/-- A ring of two slots. -/
def pair : Capacity := ⟨2, by decide, by decide, by decide⟩

/-- A push of an empty payload, told apart by its stamp. -/
def stamped (n : UInt64) : PushArgs := ⟨1, n, 0, [], 0, Nat.le_refl _⟩

end ChronoCap.Ring

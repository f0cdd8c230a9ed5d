/- module: ChronoCap/Ring/Interleaving
   source: include/chrono_cap/mpsc_ring_buffer.hpp
   digest: TryPush and TryPop broken into their single loads and stores, for any number of
           producers and one consumer, and who may touch a slot when. -/

import ChronoCap.Foundation.Machine
import ChronoCap.Ring.Ledger

set_option autoImplicit false
set_option relaxedAutoImplicit false

namespace ChronoCap.Ring.Interleaving

open ChronoCap.Foundation
open ChronoCap.WireFormat

/-- The stores of a push into its slot, in program order; the payload goes byte by byte. -/
inductive StoreAt where
  | topicId
  | stampNs
  | seq
  | payloadLen
  | byte (i : Nat)
  | ready
  deriving DecidableEq, Repr

/-- `memcpy` has copied `i` bytes of `len`: the next byte, or the store of the flag. -/
def StoreAt.copy (len i : Nat) : StoreAt := if i < len then .byte i else .ready

def StoreAt.next (a : PushArgs) : StoreAt → StoreAt
  | .topicId => .stampNs
  | .stampNs => .seq
  | .seq => .payloadLen
  | .payloadLen => .copy a.len.toNat 0
  | .byte i => .copy a.len.toNat (i + 1)
  | .ready => .ready

def storeField (s : Slot) (a : PushArgs) : StoreAt → Slot
  | .topicId => { s with topicId := a.topicId }
  | .stampNs => { s with stampNs := a.stampNs }
  | .seq => { s with seq := a.seq }
  | .payloadLen => { s with payloadLen := a.len }
  | .byte i => { s with payload := s.payload.setIfInBounds i (a.data.getD i 0) }
  | .ready => { s with ready := true }

/-- The loads of a pop from its slot, in program order; `count` loads the length again, as the
third argument of `memcpy`, and `ready` is the store that gives the slot back. -/
inductive LoadAt where
  | topicId
  | stampNs
  | seq
  | payloadLen
  | count
  | byte (n i : Nat)
  | ready
  deriving DecidableEq, Repr

def LoadAt.copy (n i : Nat) : LoadAt := if i < n then .byte n i else .ready

def LoadAt.next (s : Slot) : LoadAt → LoadAt
  | .topicId => .stampNs
  | .stampNs => .seq
  | .seq => .payloadLen
  | .payloadLen => .count
  | .count => .copy s.payloadLen.toNat 0
  | .byte n i => .copy n (i + 1)
  | .ready => .ready

def loadField (s : Slot) (out : PoppedRecord) : LoadAt → PoppedRecord
  | .topicId => { out with topicId := s.topicId }
  | .stampNs => { out with stampNs := s.stampNs }
  | .seq => { out with seq := s.seq }
  | .payloadLen => { out with payloadLen := s.payloadLen }
  | .count => out
  | .byte _ i => { out with payload := out.payload.setIfInBounds i (s.payload.toList.getD i 0) }
  | .ready => out

inductive ProducerPc where
  | idle
  /-- the length was checked, `fetch_add` on the write cursor comes next -/
  | claim (a : PushArgs)
  /-- an index is claimed, the load of its slot's flag comes next -/
  | check (a : PushArgs) (idx : UInt64)
  /-- the flag was set: `fetch_add` on the drop counter comes next -/
  | drop
  | store (a : PushArgs) (idx : UInt64) (field : StoreAt)
  deriving DecidableEq

inductive ConsumerPc where
  | idle
  | check (out : PoppedRecord)
  | load (out : PoppedRecord) (field : LoadAt)
  /-- the slot was given back, the increment of the read cursor comes next -/
  | advance
  deriving DecidableEq

/-- The shared ring, a program counter per thread, and the history: the pushes that stored their
flag (and so return true) in that order, which of them filled a slot last, and the pops with
the number of the push they drained. -/
structure World (cap : Capacity) (Tid : Type) where
  ring : MpscRingBuffer cap
  producer : Tid → ProducerPc
  consumer : ConsumerPc
  accepted : List PushArgs
  owner : Fin cap.val → Nat
  popped : List (Nat × PoppedRecord)

inductive Action (Tid : Type) where
  /-- a producer thread calls TryPush -/
  | call (p : Tid) (a : PushArgs)
  /-- a producer thread makes its next step -/
  | produce (p : Tid)
  /-- the consumer thread calls TryPop -/
  | request (out : PoppedRecord)
  /-- the consumer thread makes its next step -/
  | consume

namespace World

variable {cap : Capacity} {Tid : Type} [DecidableEq Tid]

def init : World cap Tid := ⟨.init, fun _ => .idle, .idle, [], fun _ => 0, []⟩

def setProducer (w : World cap Tid) (p : Tid) (pc : ProducerPc) : World cap Tid :=
  { w with producer := Function.update w.producer p pc }

def setSlot (w : World cap Tid) (i : Fin cap.val) (s : Slot) : World cap Tid :=
  { w with ring := { w.ring with slots := Function.update w.ring.slots i s } }

def produce (w : World cap Tid) (p : Tid) : World cap Tid :=
  match w.producer p with
  | .idle => w
  | .claim a =>
      { w with ring := { w.ring with writeIndex := w.ring.writeIndex + 1 } }.setProducer p
        (.check a w.ring.writeIndex)
  | .check a idx =>
      if (w.ring.slots (cap.slot idx)).ready then w.setProducer p .drop
      else w.setProducer p (.store a idx .topicId)
  | .drop =>
      { w with ring := { w.ring with droppedCount := w.ring.droppedCount + 1 } }.setProducer p
        .idle
  | .store a idx .ready =>
      { w.setSlot (cap.slot idx) (storeField (w.ring.slots (cap.slot idx)) a .ready) with
        accepted := w.accepted ++ [a]
        owner := Function.update w.owner (cap.slot idx) w.accepted.length }.setProducer p .idle
  | .store a idx field =>
      (w.setSlot (cap.slot idx) (storeField (w.ring.slots (cap.slot idx)) a field)).setProducer p
        (.store a idx (field.next a))

def consume (w : World cap Tid) : World cap Tid :=
  let i := cap.slot w.ring.readIndex
  match w.consumer with
  | .idle => w
  | .check out =>
      if (w.ring.slots i).ready then { w with consumer := .load out .topicId }
      else { w with consumer := .idle }
  | .load out .ready =>
      { w.setSlot i { w.ring.slots i with ready := false } with
        consumer := .advance
        popped := w.popped ++ [(w.owner i, out)] }
  | .load out field =>
      { w with
        consumer := .load (loadField (w.ring.slots i) out field) (field.next (w.ring.slots i)) }
  | .advance =>
      { w with
        ring := { w.ring with readIndex := w.ring.readIndex + 1 }
        consumer := .idle }

def machine (cap : Capacity) (Tid : Type) [DecidableEq Tid] :
    Machine (World cap Tid) (Action Tid) where
  Enabled w
    | .call p _ => w.producer p = .idle
    | .produce p => w.producer p ≠ .idle
    | .request _ => w.consumer = .idle
    | .consume => w.consumer ≠ .idle
  next w
    -- an oversized push returns false before it touches anything shared
    | .call p a => if a.len.toNat > kMaxPayloadBytes then w else w.setProducer p (.claim a)
    | .produce p => w.produce p
    | .request out => { w with consumer := .check out }
    | .consume => w.consume

instance (w : World cap Tid) : DecidablePred ((machine cap Tid).Enabled w)
  | .call p _ => inferInstanceAs (Decidable (w.producer p = .idle))
  | .produce p => inferInstanceAs (Decidable (w.producer p ≠ .idle))
  | .request _ => inferInstanceAs (Decidable (w.consumer = .idle))
  | .consume => inferInstanceAs (Decidable (w.consumer ≠ .idle))

end World

/-! The data section of a slot: from seeing the flag as awaited to storing it. -/

variable {cap : Capacity} {Tid : Type} [DecidableEq Tid]

/-- The push has claimed slot `i` and may still fill it. -/
def Claims (i : Fin cap.val) : ProducerPc → Prop
  | .check _ idx => cap.slot idx = i
  | .store _ idx _ => cap.slot idx = i
  | _ => False

/-- The push is in the data section of slot `i`. -/
def Fills (i : Fin cap.val) : ProducerPc → Prop
  | .store _ idx _ => cap.slot idx = i
  | _ => False

/-- The pop is in the data section of the slot it reads. -/
def Drains : ConsumerPc → Prop
  | .load _ _ => True
  | _ => False

theorem Fills.claims {i : Fin cap.val} {pc : ProducerPc} (h : Fills i pc) : Claims i pc := by
  cases pc with
  | store => exact h
  | _ => exact h.elim

/-- No two threads are in the data section of one slot. -/
structure Exclusive (w : World cap Tid) : Prop where
  producers : ∀ p q (i : Fin cap.val), p ≠ q → Fills i (w.producer p) → ¬ Fills i (w.producer q)
  consumer : ∀ p, Fills (cap.slot w.ring.readIndex) (w.producer p) → ¬ Drains w.consumer

/-- No push finds the flag of its slot clear while another push, which found it clear too, has not
stored it yet. -/
def Unshared (w : World cap Tid) : Action Tid → Prop
  | .produce p => ∀ a idx, w.producer p = .check a idx →
      (w.ring.slots (cap.slot idx)).ready = false →
        ∀ q, q ≠ p → ¬ Fills (cap.slot idx) (w.producer q)
  | _ => True

/-- No push claims an index whose slot a push still in flight has claimed: the pushes started
while one is in flight do not go round a whole lap. -/
def Unlapped (w : World cap Tid) : Action Tid → Prop
  | .produce p => ∀ a, w.producer p = .claim a → ∀ q, q ≠ p →
      ¬ Claims (cap.slot w.ring.writeIndex) (w.producer q)
  | _ => True

/-! How far a slot, or the caller's record, has been filled at each point of the copy. -/

structure HeaderStored (s : Slot) (a : PushArgs) : Prop where
  topicId : s.topicId = a.topicId
  stampNs : s.stampNs = a.stampNs
  seq : s.seq = a.seq
  payloadLen : s.payloadLen = a.len

def BytesStored (s : Slot) (a : PushArgs) (n : Nat) : Prop :=
  ∀ j < n, s.payload[j]? = a.data[j]?

def Stored (s : Slot) (a : PushArgs) : StoreAt → Prop
  | .topicId => True
  | .stampNs => s.topicId = a.topicId
  | .seq => s.topicId = a.topicId ∧ s.stampNs = a.stampNs
  | .payloadLen => s.topicId = a.topicId ∧ s.stampNs = a.stampNs ∧ s.seq = a.seq
  | .byte i => HeaderStored s a ∧ i < a.len.toNat ∧ BytesStored s a i
  | .ready => HeaderStored s a ∧ BytesStored s a a.len.toNat

theorem stored_copy {s : Slot} {a : PushArgs} {i : Nat} (header : HeaderStored s a)
    (le : i ≤ a.len.toNat) (bytes : BytesStored s a i) : Stored s a (.copy a.len.toNat i) := by
  unfold StoreAt.copy
  split
  · rename_i lt
    exact ⟨header, lt, bytes⟩
  · rename_i ge
    have last : i = a.len.toNat := by omega
    exact ⟨header, last ▸ bytes⟩

/-- One store more, and the slot is filled one step further. -/
theorem Stored.next {s : Slot} {a : PushArgs} {field : StoreAt}
    (fits : a.len.toNat ≤ kMaxPayloadBytes) (h : Stored s a field) (data : field ≠ .ready) :
    Stored (storeField s a field) a (field.next a) := by
  cases field with
  | topicId => rfl
  | stampNs => exact ⟨h, rfl⟩
  | seq => exact ⟨h.1, h.2, rfl⟩
  | payloadLen =>
      have header : HeaderStored (storeField s a .payloadLen) a := ⟨h.1, h.2.1, h.2.2, rfl⟩
      exact stored_copy header (Nat.zero_le _) (fun j hj => absurd hj (Nat.not_lt_zero j))
  | byte i =>
      obtain ⟨⟨topicId, stampNs, seq, payloadLen⟩, lt, bytes⟩ := h
      have inside : i < kMaxPayloadBytes := lt.trans_le fits
      have readable : i < a.data.length := lt.trans_le a.readable
      have header : HeaderStored (storeField s a (.byte i)) a :=
        ⟨topicId, stampNs, seq, payloadLen⟩
      apply stored_copy header lt
      intro j hj
      change (s.payload.setIfInBounds i (a.data.getD i 0))[j]? = a.data[j]?
      by_cases here : j = i
      · subst here
        simp [inside, readable, List.getD]
      · rw [Vector.getElem?_setIfInBounds_ne (Ne.symm here)]
        exact bytes j (by omega)
  | ready => exact absurd rfl data

structure HeaderLoaded (s : Slot) (out : PoppedRecord) : Prop where
  topicId : out.topicId = s.topicId
  stampNs : out.stampNs = s.stampNs
  seq : out.seq = s.seq
  payloadLen : out.payloadLen = s.payloadLen

def BytesLoaded (s : Slot) (out : PoppedRecord) (n : Nat) : Prop :=
  ∀ j < n, out.payload[j]? = s.payload[j]?

def Loaded (s : Slot) (out : PoppedRecord) : LoadAt → Prop
  | .topicId => True
  | .stampNs => out.topicId = s.topicId
  | .seq => out.topicId = s.topicId ∧ out.stampNs = s.stampNs
  | .payloadLen => out.topicId = s.topicId ∧ out.stampNs = s.stampNs ∧ out.seq = s.seq
  | .count => HeaderLoaded s out
  | .byte n i => HeaderLoaded s out ∧ n = s.payloadLen.toNat ∧ i < n ∧ BytesLoaded s out i
  | .ready => HeaderLoaded s out ∧ BytesLoaded s out s.payloadLen.toNat

theorem loaded_copy {s : Slot} {out : PoppedRecord} {i : Nat} (header : HeaderLoaded s out)
    (le : i ≤ s.payloadLen.toNat) (bytes : BytesLoaded s out i) :
    Loaded s out (.copy s.payloadLen.toNat i) := by
  unfold LoadAt.copy
  split
  · rename_i lt
    exact ⟨header, rfl, lt, bytes⟩
  · rename_i ge
    have last : i = s.payloadLen.toNat := by omega
    exact ⟨header, last ▸ bytes⟩

/-- One load more, and the record is filled one step further. -/
theorem Loaded.next {s : Slot} {out : PoppedRecord} {field : LoadAt}
    (fits : s.payloadLen.toNat ≤ kMaxPayloadBytes) (h : Loaded s out field)
    (data : field ≠ .ready) : Loaded s (loadField s out field) (field.next s) := by
  cases field with
  | topicId => rfl
  | stampNs => exact ⟨h, rfl⟩
  | seq => exact ⟨h.1, h.2, rfl⟩
  | payloadLen => exact ⟨h.1, h.2.1, h.2.2, rfl⟩
  | count =>
      have header : HeaderLoaded s (loadField s out .count) := h
      exact loaded_copy header (Nat.zero_le _) (fun j hj => absurd hj (Nat.not_lt_zero j))
  | byte n i =>
      obtain ⟨⟨topicId, stampNs, seq, payloadLen⟩, rfl, lt, bytes⟩ := h
      have inside : i < kMaxPayloadBytes := lt.trans_le fits
      have header : HeaderLoaded s (loadField s out (.byte s.payloadLen.toNat i)) :=
        ⟨topicId, stampNs, seq, payloadLen⟩
      apply loaded_copy header lt
      intro j hj
      change (out.payload.setIfInBounds i (s.payload.toList.getD i 0))[j]? = s.payload[j]?
      by_cases here : j = i
      · subst here
        simp [inside, List.getD]
      · rw [Vector.getElem?_setIfInBounds_ne (Ne.symm here)]
        exact bytes j (by omega)
  | ready => exact absurd rfl data

/-- A fully loaded record of a fully stored slot agrees with the push. -/
theorem agrees_of_loaded {s : Slot} {a : PushArgs} {out : PoppedRecord}
    (fits : a.len.toNat ≤ kMaxPayloadBytes) (stored : Stored s a .ready)
    (loaded : Loaded s out .ready) : Ledger.Agrees out a := by
  obtain ⟨header, bytes⟩ := stored
  obtain ⟨header', bytes'⟩ := loaded
  have len : out.payloadLen = a.len := header'.payloadLen.trans header.payloadLen
  refine ⟨header'.topicId.trans header.topicId, header'.stampNs.trans header.stampNs,
    header'.seq.trans header.seq, len, len ▸ fits, ?_⟩
  apply List.ext_getElem?
  intro j
  rw [len, List.getElem?_take, List.getElem?_take]
  split
  · rename_i hj
    rw [header.payloadLen] at bytes'
    rw [← bytes j hj, ← bytes' j hj, Vector.getElem?_toList]
  · rfl

end ChronoCap.Ring.Interleaving

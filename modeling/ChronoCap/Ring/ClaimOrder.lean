/- module: ChronoCap/Ring/ClaimOrder
   source: include/chrono_cap/mpsc_ring_buffer.hpp
   digest: While the write cursor stays within a lap of the read cursor the ring is a queue, for
           any interleaving: records leave it in the order in which their indices were claimed. -/

import ChronoCap.Ring.Accounting
import ChronoCap.Ring.WaitFreedom

set_option autoImplicit false
set_option relaxedAutoImplicit false

namespace ChronoCap.Ring.Interleaving

open ChronoCap.Foundation
open ChronoCap.WireFormat

/-! Slots of numbered claims. -/

section Slots

variable (cap : Capacity)

/-- The slot that the claim with this number gets. -/
def slotOf (n : Nat) : Fin cap.val := cap.slot (UInt64.ofNat n)

theorem slotOf_add (n j : Nat) : slotOf cap (n + j) = cap.ahead (UInt64.ofNat n) j := by
  rw [slotOf, UInt64.ofNat_add, Capacity.ahead]

theorem slotOf_add_cap (n : Nat) : slotOf cap (n + cap.val) = slotOf cap n := by
  rw [slotOf_add, cap.ahead_cap, slotOf]

variable {cap}

/-- Claims less than a lap apart get different slots. -/
theorem slotOf_inj {n i j : Nat} (hi : n ≤ i) (hi' : i < n + cap.val) (hj : n ≤ j)
    (hj' : j < n + cap.val) (same : slotOf cap i = slotOf cap j) : i = j := by
  obtain ⟨i, rfl⟩ := Nat.exists_eq_add_of_le hi
  obtain ⟨j, rfl⟩ := Nat.exists_eq_add_of_le hj
  rw [slotOf_add, slotOf_add] at same
  rw [cap.ahead_inj (by omega) (by omega) same]

end Slots

variable {cap : Capacity} {Tid : Type} [DecidableEq Tid]

/-! The conditions on a step. -/

/-- Every push finds the flag of its slot clear. -/
def Unrefused (w : World cap Tid) : Action Tid → Prop
  | .produce p => ∀ a idx, w.producer p = .check a idx →
      (w.ring.slots (cap.slot idx)).ready = false
  | _ => True

/-- No push is lapped and none is refused. -/
def Orderly (w : World cap Tid) (action : Action Tid) : Prop :=
  Unlapped w action ∧ Unrefused w action

def ProducerPc.claims : ProducerPc → Bool
  | .claim _ => true
  | _ => false

/-- A push claims an index only while the cursors are less than a lap apart. -/
def Roomy (w : World cap Tid) : Action Tid → Prop
  | .produce p => (w.producer p).claims = true →
      (w.ring.writeIndex - w.ring.readIndex).toNat < cap.val
  | _ => True

instance (w : World cap Tid) : DecidablePred (Roomy w)
  | .call _ _ => .isTrue trivial
  | .produce p => inferInstanceAs (Decidable ((w.producer p).claims = true → _ < _))
  | .request _ => .isTrue trivial
  | .consume => .isTrue trivial

/-- The push in flight, and the index it claimed. -/
def ProducerPc.flight : ProducerPc → Option (PushArgs × UInt64)
  | .check a idx => some (a, idx)
  | .store a idx _ => some (a, idx)
  | _ => none

theorem claims_of_flight {pc : ProducerPc} {a : PushArgs} {idx : UInt64}
    (flight : pc.flight = some (a, idx)) : Claims (cap.slot idx) pc := by
  cases pc with
  | check b i =>
      obtain ⟨-, rfl⟩ := Prod.mk.inj (Option.some.inj flight)
      exact rfl
  | store b i field =>
      obtain ⟨-, rfl⟩ := Prod.mk.inj (Option.some.inj flight)
      exact rfl
  | _ => cases flight

theorem flight_of_claims {pc : ProducerPc} {i : Fin cap.val} (claims : Claims i pc) :
    ∃ a idx, pc.flight = some (a, idx) ∧ cap.slot idx = i := by
  cases pc with
  | check a idx => exact ⟨a, idx, rfl, claims⟩
  | store a idx field => exact ⟨a, idx, rfl, claims⟩
  | _ => exact claims.elim

/-! The queue: the claims from the first unread one on, each in flight or stored in its slot. -/

/-- The claim with this number is held, complete, by its slot. -/
structure Shelved (log : List (Tid × PushArgs)) (w : World cap Tid) (n : Nat) : Prop where
  ready : (w.ring.slots (slotOf cap n)).ready = true
  window : w.popped.length ≤ n ∧ n < w.popped.length + cap.val
  holds : ∃ c, log[n]? = some c ∧ Fits c.2 ∧ Stored (w.ring.slots (slotOf cap n)) c.2 .ready

/-- `number` tells which claim a push in flight is. -/
structure Queue (log : List (Tid × PushArgs)) (number : Tid → Nat) (w : World cap Tid) :
    Prop where
  flying : ∀ p a idx, (w.producer p).flight = some (a, idx) →
    idx = UInt64.ofNat (number p) ∧ w.popped.length ≤ number p ∧ log[number p]? = some (p, a)
  near : ∀ p a idx field, w.producer p = .store a idx field →
    number p < w.popped.length + cap.val
  shelved : ∀ i, (w.ring.slots i).ready = true → ∃ n, slotOf cap n = i ∧ Shelved log w n ∧
    ∀ p, (w.producer p).flight ≠ none → number p ≠ n
  covered : ∀ n, w.popped.length ≤ n → n < log.length →
    (∃ p, (w.producer p).flight ≠ none ∧ number p = n) ∨ Shelved log w n
  popped : List.Forall₂ (fun x c => Ledger.Agrees x.2 c.2) w.popped
    (log.take w.popped.length)

variable {w : World cap Tid} {log : List (Tid × PushArgs)} {number : Tid → Nat}

omit [DecidableEq Tid] in
theorem queue_init : Queue [] (fun _ => 0) (World.init : World cap Tid) where
  flying p a idx h := by cases h
  near p a idx field h := by cases h
  shelved i h := by simp [World.init, MpscRingBuffer.init] at h
  covered n _ h := absurd h (Nat.not_lt_zero n)
  popped := .nil

omit [DecidableEq Tid] in
theorem Queue.popped_le (queue : Queue log number w) : w.popped.length ≤ log.length := by
  have same := queue.popped.length_eq
  rw [List.length_take] at same
  omega

omit [DecidableEq Tid] in
/-- What is shelved stays so while its slot does. -/
theorem Shelved.frame {v : World cap Tid} {n : Nat} (shelved : Shelved log w n)
    (popped : v.popped = w.popped)
    (slot : v.ring.slots (slotOf cap n) = w.ring.slots (slotOf cap n)) : Shelved log v n := by
  refine ⟨?_, ?_, ?_⟩
  · rw [slot]
    exact shelved.ready
  · rw [popped]
    exact shelved.window
  · rw [slot]
    exact shelved.holds

/-- A step of a thread whose push is in flight before and after it, or neither, and that touches
no slot that is ready. -/
theorem Queue.pass (queue : Queue log number w) {p : Tid} {pc : ProducerPc}
    {ring : MpscRingBuffer cap} (flight : pc.flight = (w.producer p).flight)
    (near : ∀ a idx field, pc = .store a idx field → number p < w.popped.length + cap.val)
    (ready : ∀ i, (ring.slots i).ready = (w.ring.slots i).ready)
    (kept : ∀ i, (w.ring.slots i).ready = true → ring.slots i = w.ring.slots i) :
    Queue log number ({ w with ring }.setProducer p pc) := by
  have flights : ∀ q, (Function.update w.producer p pc q).flight = (w.producer q).flight := by
    intro q
    by_cases same : q = p
    · subst same
      rw [Function.update_self, flight]
    · rw [Function.update_of_ne same]
  have shelved : ∀ n, Shelved log w n → Shelved log ({ w with ring }.setProducer p pc) n := by
    intro n h
    exact h.frame rfl (kept _ h.ready)
  refine ⟨?_, ?_, ?_, ?_, queue.popped⟩
  · intro q a idx h
    exact queue.flying q a idx ((flights q).symm.trans h)
  · intro q a idx field h
    change Function.update w.producer p pc q = _ at h
    by_cases same : q = p
    · subst same
      rw [Function.update_self] at h
      exact near a idx field h
    · rw [Function.update_of_ne same] at h
      exact queue.near q a idx field h
  · intro i h
    obtain ⟨n, slot, held, alone⟩ := queue.shelved i ((ready i).symm.trans h)
    refine ⟨n, slot, shelved n held, ?_⟩
    intro q inFlight
    exact alone q ((flights q) ▸ inFlight)
  · intro n le lt
    rcases queue.covered n le lt with ⟨q, inFlight, same⟩ | held
    · exact .inl ⟨q, (flights q).symm ▸ inFlight, same⟩
    · exact .inr (shelved n held)

/-- `fetch_add` hands out the next number. -/
theorem Queue.claim (queue : Queue log number w) {p : Tid} {a : PushArgs}
    (pc : w.producer p = .claim a) (write : w.ring.writeIndex = UInt64.ofNat log.length) :
    Queue (log ++ [(p, a)]) (Function.update number p log.length) (w.produce p) := by
  have le := queue.popped_le
  have older : ∀ {n : Nat} {c : Tid × PushArgs}, log[n]? = some c →
      (log ++ [(p, a)])[n]? = some c := by
    intro n c h
    obtain ⟨bound, -⟩ := List.getElem?_eq_some_iff.mp h
    rw [List.getElem?_append_left bound]
    exact h
  have shelved : ∀ n, Shelved log w n → Shelved (log ++ [(p, a)]) (w.produce p) n := by
    intro n held
    obtain ⟨c, found, stored⟩ := held.holds
    refine Shelved.frame ⟨held.ready, held.window, c, older found, stored⟩ ?_ ?_
    · simp only [World.produce, pc, World.setProducer]
    · simp only [World.produce, pc, World.setProducer]
  have moved : (w.produce p).producer =
      Function.update w.producer p (.check a w.ring.writeIndex) := by
    simp only [World.produce, pc, World.setProducer]
  have slots : (w.produce p).ring.slots = w.ring.slots := by
    simp only [World.produce, pc, World.setProducer]
  have popped : (w.produce p).popped = w.popped := by
    simp only [World.produce, pc, World.setProducer]
  refine ⟨?_, ?_, ?_, ?_, ?_⟩
  · intro q b idx h
    rw [moved] at h
    rw [popped]
    by_cases same : q = p
    · subst same
      rw [Function.update_self] at h
      obtain ⟨rfl, rfl⟩ := Prod.mk.inj (Option.some.inj h)
      rw [Function.update_self]
      exact ⟨write, le, by simp⟩
    · rw [Function.update_of_ne same] at h
      obtain ⟨index, bound, found⟩ := queue.flying q b idx h
      rw [Function.update_of_ne same]
      exact ⟨index, bound, older found⟩
  · intro q b idx field h
    rw [moved] at h
    rw [popped]
    by_cases same : q = p
    · subst same
      rw [Function.update_self] at h
      cases h
    · rw [Function.update_of_ne same] at h ⊢
      exact queue.near q b idx field h
  · intro i h
    rw [slots] at h
    obtain ⟨n, slot, held, alone⟩ := queue.shelved i h
    refine ⟨n, slot, shelved n held, ?_⟩
    intro q inFlight
    rw [moved] at inFlight
    by_cases same : q = p
    · subst same
      obtain ⟨c, found, -⟩ := held.holds
      obtain ⟨bound, -⟩ := List.getElem?_eq_some_iff.mp found
      rw [Function.update_self]
      exact bound.ne'
    · rw [Function.update_of_ne same] at inFlight ⊢
      exact alone q inFlight
  · intro n low high
    rw [popped] at low
    rw [moved]
    rw [List.length_append, List.length_singleton] at high
    by_cases last : n = log.length
    · subst last
      refine .inl ⟨p, ?_, Function.update_self ..⟩
      rw [Function.update_self]
      exact Option.some_ne_none _
    · rcases queue.covered n low (by omega) with ⟨q, inFlight, same⟩ | held
      · have other : q ≠ p := by
          rintro rfl
          rw [pc] at inFlight
          exact inFlight rfl
        refine .inl ⟨q, ?_, ?_⟩
        · rw [Function.update_of_ne other]
          exact inFlight
        · rw [Function.update_of_ne other]
          exact same
      · exact .inr (shelved n held)
  · rw [popped, List.take_append_of_le_length le]
    exact queue.popped

omit [DecidableEq Tid] in
theorem Queue.claims (queue : Queue log number w) {p : Tid} {a : PushArgs} {idx : UInt64}
    (flight : (w.producer p).flight = some (a, idx)) :
    Claims (slotOf cap (number p)) (w.producer p) := by
  rw [slotOf, ← (queue.flying p a idx flight).1]
  exact claims_of_flight flight

omit [DecidableEq Tid] in
/-- A push that finds its flag clear is less than a lap ahead of the pops: what is one lap before
it would be in flight, and apart from it, or hold the slot. -/
theorem Queue.near_of_clear (queue : Queue log number w) (apart : Apart (@Claims cap) w.producer)
    {p : Tid} {a : PushArgs} {idx : UInt64} (pc : w.producer p = .check a idx)
    (clear : (w.ring.slots (cap.slot idx)).ready = false) :
    number p < w.popped.length + cap.val := by
  have flight : (w.producer p).flight = some (a, idx) := by rw [pc]; rfl
  obtain ⟨index, -, found⟩ := queue.flying p a idx flight
  obtain ⟨bound, -⟩ := List.getElem?_eq_some_iff.mp found
  by_contra far
  obtain ⟨n, lap⟩ := Nat.exists_eq_add_of_le' (show cap.val ≤ number p by omega)
  have pos := cap.pos
  have slot : slotOf cap n = slotOf cap (number p) := by rw [lap, slotOf_add_cap]
  rcases queue.covered n (by omega) (by omega) with ⟨q, inFlight, same⟩ | held
  · have other : p ≠ q := by
      rintro rfl
      omega
    obtain ⟨⟨b, idx'⟩, flight'⟩ := Option.ne_none_iff_exists'.mp inFlight
    have theirs := queue.claims flight'
    rw [same, slot] at theirs
    exact apart p q _ other (queue.claims flight) theirs
  · have ready := held.ready
    rw [slot, slotOf, ← index, clear] at ready
    exact Bool.false_ne_true ready

theorem Queue.check (queue : Queue log number w) (apart : Apart (@Claims cap) w.producer)
    {p : Tid} {a : PushArgs} {idx : UInt64} (pc : w.producer p = .check a idx)
    (clear : (w.ring.slots (cap.slot idx)).ready = false) :
    Queue log number (w.produce p) := by
  have near := queue.near_of_clear apart pc clear
  have moved : w.produce p = w.setProducer p (.store a idx .topicId) := by
    simp only [World.produce, pc, clear, Bool.false_eq_true, if_false]
  rw [moved]
  exact queue.pass (by rw [pc]; rfl) (fun _ _ _ _ => near) (fun _ => rfl) (fun _ _ => rfl)

/-- The store of the flag shelves the push. -/
theorem Queue.publish (queue : Queue log number w) (sound : Sound w)
    (apart : Apart (@Claims cap) w.producer) {p : Tid} {a : PushArgs} {idx : UInt64}
    (pc : w.producer p = .store a idx .ready) : Queue log number (w.produce p) := by
  have flight : (w.producer p).flight = some (a, idx) := by rw [pc]; rfl
  obtain ⟨rfl, low, found⟩ := queue.flying p a idx flight
  have high := queue.near p _ _ _ pc
  have filled := sound.producers p
  rw [pc] at filled
  obtain ⟨fits, clear, stored⟩ := filled
  have moved : (w.produce p).producer = Function.update w.producer p .idle := by
    simp only [World.produce, pc, World.setProducer, World.setSlot]
  have slots : (w.produce p).ring.slots = Function.update w.ring.slots (slotOf cap (number p))
      (storeField (w.ring.slots (slotOf cap (number p))) a .ready) := by
    simp only [World.produce, pc, World.setProducer, World.setSlot, slotOf]
  have popped : (w.produce p).popped = w.popped := by
    simp only [World.produce, pc, World.setProducer, World.setSlot]
  have still : ∀ q, (Function.update w.producer p .idle q).flight ≠ none →
      q ≠ p ∧ (w.producer q).flight ≠ none := by
    intro q inFlight
    by_cases same : q = p
    · subst same
      rw [Function.update_self] at inFlight
      exact absurd rfl inFlight
    · rw [Function.update_of_ne same] at inFlight
      exact ⟨same, inFlight⟩
  have new : Shelved log (w.produce p) (number p) := by
    refine ⟨?_, ?_, (p, a), found, fits, ?_⟩
    · rw [slots, Function.update_self]
      rfl
    · rw [popped]
      exact ⟨low, high⟩
    · rw [slots, Function.update_self]
      exact ⟨⟨stored.1.topicId, stored.1.stampNs, stored.1.seq, stored.1.payloadLen⟩, stored.2⟩
  have old : ∀ n, Shelved log w n → Shelved log (w.produce p) n := by
    intro n held
    refine held.frame popped ?_
    rw [slots, Function.update_of_ne]
    intro same
    have ready := held.ready
    rw [same] at ready
    exact Bool.false_ne_true (clear.symm.trans ready)
  refine ⟨?_, ?_, ?_, ?_, ?_⟩
  · intro q b idx' h
    rw [moved] at h
    obtain ⟨other, -⟩ := still q (by rw [h]; exact Option.some_ne_none _)
    rw [Function.update_of_ne other] at h
    rw [popped]
    exact queue.flying q b idx' h
  · intro q b idx' field h
    rw [moved] at h
    have other : q ≠ p := by
      rintro rfl
      rw [Function.update_self] at h
      cases h
    rw [Function.update_of_ne other] at h
    rw [popped]
    exact queue.near q b idx' field h
  · intro i h
    by_cases here : slotOf cap (number p) = i
    · refine ⟨number p, here, new, ?_⟩
      intro q inFlight same
      rw [moved] at inFlight
      obtain ⟨other, inFlight⟩ := still q inFlight
      obtain ⟨⟨b, idx'⟩, flight'⟩ := Option.ne_none_iff_exists'.mp inFlight
      have theirs := queue.claims flight'
      rw [same] at theirs
      exact apart p q _ other.symm (queue.claims flight) theirs
    · rw [slots, Function.update_of_ne (Ne.symm here)] at h
      obtain ⟨n, slot, held, alone⟩ := queue.shelved i h
      refine ⟨n, slot, old n held, ?_⟩
      intro q inFlight
      rw [moved] at inFlight
      exact alone q (still q inFlight).2
  · intro n le lt
    rw [popped] at le
    rw [moved]
    rcases queue.covered n le lt with ⟨q, inFlight, same⟩ | held
    · by_cases here : q = p
      · subst here
        exact .inr (same ▸ new)
      · refine .inl ⟨q, ?_, same⟩
        rw [Function.update_of_ne here]
        exact inFlight
    · exact .inr (old n held)
  · rw [popped]
    exact queue.popped

omit [DecidableEq Tid] in
/-- The store that gives the slot back takes the first claim that is not popped yet. -/
theorem Queue.giveBack (queue : Queue log number w) (sound : Sound w) {out : PoppedRecord}
    (pc : w.consumer = .load out .ready)
    (read : w.ring.readIndex = UInt64.ofNat w.popped.length) :
    Queue log number w.consume := by
  have loaded := sound.consumer
  rw [pc, read] at loaded
  obtain ⟨ready, loaded⟩ := loaded
  have slots : w.consume.ring.slots = Function.update w.ring.slots (slotOf cap w.popped.length)
      { w.ring.slots (slotOf cap w.popped.length) with ready := false } := by
    simp only [World.consume, pc, World.setSlot, slotOf, read]
  have popped : w.consume.popped =
      w.popped ++ [(w.owner (slotOf cap w.popped.length), out)] := by
    simp only [World.consume, pc, slotOf, read]
  have length : w.consume.popped.length = w.popped.length + 1 := by
    rw [popped, List.length_append, List.length_singleton]
  obtain ⟨n, slot, front, alone⟩ := queue.shelved _ ready
  have first : n = w.popped.length := by
    obtain ⟨low, high⟩ := front.window
    exact slotOf_inj low high (Nat.le_refl _) (Nat.lt_add_of_pos_right cap.pos) slot
  subst first
  obtain ⟨c, found, fits, stored⟩ := front.holds
  have later : ∀ n, n ≠ w.popped.length → Shelved log w n → Shelved log w.consume n := by
    intro n ne held
    obtain ⟨low, high⟩ := held.window
    have other : slotOf cap n ≠ slotOf cap w.popped.length := by
      intro same
      exact ne (slotOf_inj low high (Nat.le_refl _) (Nat.lt_add_of_pos_right cap.pos) same)
    have kept : w.consume.ring.slots (slotOf cap n) = w.ring.slots (slotOf cap n) := by
      rw [slots, Function.update_of_ne other]
    refine ⟨?_, ?_, ?_⟩
    · rw [kept]
      exact held.ready
    · rw [length]
      omega
    · rw [kept]
      exact held.holds
  refine ⟨?_, ?_, ?_, ?_, ?_⟩
  · intro p a idx h
    rw [consume_producer] at h
    obtain ⟨index, low, found⟩ := queue.flying p a idx h
    have ne := alone p (by rw [h]; exact Option.some_ne_none _)
    rw [length]
    exact ⟨index, by omega, found⟩
  · intro p a idx field h
    rw [consume_producer] at h
    have near := queue.near p a idx field h
    rw [length]
    omega
  · intro i h
    have other : i ≠ slotOf cap w.popped.length := by
      rintro rfl
      rw [slots, Function.update_self] at h
      cases h
    rw [slots, Function.update_of_ne other] at h
    obtain ⟨n, slot, held, alone⟩ := queue.shelved i h
    rw [consume_producer]
    refine ⟨n, slot, later n ?_ held, alone⟩
    rintro rfl
    exact other slot.symm
  · intro n low high
    rw [length] at low
    rw [consume_producer]
    rcases queue.covered n (by omega) high with flying | held
    · exact .inl flying
    · exact .inr (later n (by omega) held)
  · obtain ⟨bound, same⟩ := List.getElem?_eq_some_iff.mp found
    rw [length, List.take_succ_eq_append_getElem bound, popped]
    refine List.rel_append queue.popped (.cons ?_ .nil)
    rw [same]
    exact agrees_of_loaded fits stored loaded

omit [DecidableEq Tid] in
theorem Queue.frame (queue : Queue log number w) {v : World cap Tid}
    (producer : v.producer = w.producer) (popped : v.popped = w.popped)
    (slots : v.ring.slots = w.ring.slots) : Queue log number v := by
  have shelved : ∀ n, Shelved log w n → Shelved log v n :=
    fun n held => held.frame popped (congrFun slots _)
  refine ⟨?_, ?_, ?_, ?_, ?_⟩
  · rw [producer, popped]
    exact queue.flying
  · rw [producer, popped]
    exact queue.near
  · rw [producer, slots]
    intro i h
    obtain ⟨n, slot, held, alone⟩ := queue.shelved i h
    exact ⟨n, slot, shelved n held, alone⟩
  · rw [producer, popped]
    intro n low high
    exact (queue.covered n low high).imp_right (shelved n)
  · rw [popped]
    exact queue.popped

theorem Queue.produce (queue : Queue log number w) (sound : Sound w)
    (apart : Apart (@Claims cap) w.producer)
    (write : w.ring.writeIndex = UInt64.ofNat log.length) {p : Tid}
    (unrefused : Unrefused w (.produce p)) :
    ∃ number', Queue (log ++ claimOf w (.produce p)) number' (w.produce p) := by
  cases pc : w.producer p with
  | claim a =>
      simp only [claimOf, pc]
      exact ⟨_, queue.claim pc write⟩
  | check a idx =>
      simp only [claimOf, pc, List.append_nil]
      exact ⟨number, queue.check apart pc (unrefused a idx pc)⟩
  | idle =>
      simp only [claimOf, World.produce, pc, List.append_nil]
      exact ⟨number, queue⟩
  | drop =>
      simp only [claimOf, World.produce, pc, List.append_nil]
      exact ⟨number, queue.pass (by rw [pc]; rfl) (fun _ _ _ h => by cases h) (fun _ => rfl)
        (fun _ _ => rfl)⟩
  | store a idx field =>
      have filled := sound.producers p
      rw [pc] at filled
      obtain ⟨-, clear, -⟩ := filled
      have near := queue.near p a idx field pc
      by_cases last : field = .ready
      · subst last
        simp only [claimOf, pc, List.append_nil]
        exact ⟨number, queue.publish sound apart pc⟩
      · have same := ready_storeField (s := w.ring.slots (cap.slot idx)) (a := a) last
        have moved : w.produce p = { w with ring := { w.ring with
            slots := Function.update w.ring.slots (cap.slot idx)
              (storeField (w.ring.slots (cap.slot idx)) a field) } }.setProducer p
                (.store a idx (field.next a)) := by
          cases field with
          | ready => exact absurd rfl last
          | _ => simp only [World.produce, pc, World.setSlot]
        rw [moved]
        simp only [claimOf, pc, List.append_nil]
        refine ⟨number, queue.pass (by rw [pc]; rfl) (fun _ _ _ _ => near) ?_ ?_⟩
        · intro i
          by_cases here : i = cap.slot idx
          · subst here
            simpa using same
          · simp [here]
        · intro i ready
          have here : i ≠ cap.slot idx := by
            rintro rfl
            exact Bool.false_ne_true (clear.symm.trans ready)
          exact Function.update_of_ne here _ _

omit [DecidableEq Tid] in
theorem Queue.consume (queue : Queue log number w) (sound : Sound w)
    (read : w.ring.readIndex + UInt64.ofNat w.consumer.ahead = UInt64.ofNat w.popped.length) :
    Queue log number w.consume := by
  cases pc : w.consumer with
  | load out field =>
      have read : w.ring.readIndex = UInt64.ofNat w.popped.length := by
        rw [← read, pc]
        exact (UInt64.add_zero _).symm
      cases field with
      | ready => exact queue.giveBack sound pc read
      | _ =>
          refine queue.frame (consume_producer w) ?_ ?_
          · simp only [World.consume, pc]
          · simp only [World.consume, pc]
  | check out =>
      refine queue.frame (consume_producer w) ?_ ?_
      · simp only [World.consume, pc]
        split <;> rfl
      · simp only [World.consume, pc]
        split <;> rfl
  | _ =>
      refine queue.frame (consume_producer w) ?_ ?_
      · simp only [World.consume, pc]
      · simp only [World.consume, pc]

theorem Queue.next (queue : Queue log number w) (sound : Sound w)
    (apart : Apart (@Claims cap) w.producer) {refused : Nat}
    (cursors : Cursors log.length refused w) {action : Action Tid}
    (enabled : (World.machine cap Tid).Enabled w action) (unrefused : Unrefused w action) :
    ∃ number', Queue (log ++ claimOf w action) number' ((World.machine cap Tid).next w action) := by
  cases action with
  | call p a =>
      simp only [claimOf, List.append_nil, World.machine]
      split
      · exact ⟨number, queue⟩
      · exact ⟨number, queue.pass (by rw [show w.producer p = .idle from enabled]; rfl)
          (fun _ _ _ h => by cases h) (fun _ => rfl) (fun _ _ => rfl)⟩
  | produce p => exact queue.produce sound apart cursors.writeIndex unrefused
  | request out =>
      simp only [claimOf, List.append_nil]
      exact ⟨number, queue.frame rfl rfl rfl⟩
  | consume =>
      simp only [claimOf, List.append_nil]
      exact ⟨number, queue.consume sound cursors.readIndex⟩

theorem apart_of_run {actions : List (Action Tid)}
    (run : (World.machine cap Tid).Run Unlapped World.init actions w) :
    Apart (@Claims cap) w.producer := by
  induction run with
  | nil => exact fun p q i _ h => h.elim
  | @snoc _ w action prior enabled unlapped ih =>
      cases action with
      | call p a =>
          change Apart (@Claims cap)
            (if a.len.toNat > kMaxPayloadBytes then w else w.setProducer p (.claim a)).producer
          split
          · exact ih
          · exact ih.update (fun _ h => h.elim)
      | produce p => exact claims_apart_produce ih unlapped
      | request out => exact ih
      | consume =>
          change Apart (@Claims cap) w.consume.producer
          rw [consume_producer]
          exact ih

theorem queue_of_run {actions : List (Action Tid)}
    (run : (World.machine cap Tid).Run Orderly World.init actions w) :
    ∃ number, Queue (claims cap actions) number w := by
  induction run with
  | nil => exact ⟨_, queue_init⟩
  | @snoc _ w action prior enabled orderly ih =>
      obtain ⟨number, queue⟩ := ih
      have unlapped := prior.weaken (fun _ _ _ orderly => orderly.1)
      have sound := sound_of_run (unshared_of_unlapped unlapped)
      rw [claims, prior.log_snoc]
      exact queue.next sound (apart_of_run unlapped) (cursors_of_run prior) enabled orderly.2

/-! Room for every claim. -/

/-- The claims are at most a lap ahead of the read cursor. -/
def Within (claimed : Nat) (w : World cap Tid) : Prop :=
  claimed + w.consumer.ahead ≤ w.popped.length + cap.val

omit [DecidableEq Tid] in
/-- The wrapping difference of the cursors is their distance. -/
theorem distance_of_within {claimed refused : Nat} (cursors : Cursors claimed refused w)
    (within : Within claimed w) (le : w.popped.length ≤ claimed) :
    (w.ring.writeIndex - w.ring.readIndex).toNat =
      claimed - w.popped.length + w.consumer.ahead := by
  have apart : UInt64.ofNat claimed =
      UInt64.ofNat (claimed - w.popped.length) + UInt64.ofNat w.popped.length := by
    rw [← UInt64.ofNat_add, Nat.sub_add_cancel le]
  have distance : w.ring.writeIndex - w.ring.readIndex =
      UInt64.ofNat (claimed - w.popped.length + w.consumer.ahead) := by
    rw [cursors.writeIndex, apart, ← cursors.readIndex, UInt64.ofNat_add,
      UInt64.add_comm w.ring.readIndex, ← UInt64.add_assoc, UInt64.add_sub_cancel]
  rw [distance, UInt64.toNat_ofNat']
  apply Nat.mod_eq_of_lt
  have small := cap.lt_size
  have bound : claimed + w.consumer.ahead ≤ w.popped.length + cap.val := within
  omega

omit [DecidableEq Tid] in
theorem Queue.unlapped (queue : Queue log number w)
    (write : w.ring.writeIndex = UInt64.ofNat log.length)
    (room : log.length < w.popped.length + cap.val) (q : Tid) :
    ¬ Claims (cap.slot w.ring.writeIndex) (w.producer q) := by
  intro claims
  obtain ⟨a, idx, flight, slot⟩ := flight_of_claims claims
  obtain ⟨index, low, found⟩ := queue.flying q a idx flight
  obtain ⟨bound, -⟩ := List.getElem?_eq_some_iff.mp found
  rw [index, write] at slot
  have same := slotOf_inj low (by omega) queue.popped_le room slot
  omega

omit [DecidableEq Tid] in
theorem Queue.unrefused (queue : Queue log number w)
    (room : log.length ≤ w.popped.length + cap.val) {p : Tid} {a : PushArgs} {idx : UInt64}
    (pc : w.producer p = .check a idx) : (w.ring.slots (cap.slot idx)).ready = false := by
  have flight : (w.producer p).flight = some (a, idx) := by rw [pc]; rfl
  obtain ⟨rfl, low, found⟩ := queue.flying p a idx flight
  obtain ⟨bound, -⟩ := List.getElem?_eq_some_iff.mp found
  by_contra set
  obtain ⟨n, slot, held, alone⟩ := queue.shelved _ (eq_true_of_ne_false set)
  have same := slotOf_inj held.window.1 held.window.2 low (by omega) slot
  exact alone p (by rw [flight]; exact Option.some_ne_none _) same.symm

omit [DecidableEq Tid] in
theorem Within.consume {claimed : Nat} (within : Within claimed w) : Within claimed w.consume := by
  have gains : w.popped.length + w.consume.consumer.ahead ≤
      w.consume.popped.length + w.consumer.ahead := by
    cases pc : w.consumer with
    | check out =>
        simp only [World.consume, pc]
        split <;> exact Nat.le_refl _
    | load out field =>
        cases field with
        | ready => simp [World.consume, pc, ConsumerPc.ahead]
        | _ => simp [World.consume, pc, ConsumerPc.ahead]
    | _ => simp [World.consume, pc, ConsumerPc.ahead]
  have bound : claimed + w.consumer.ahead ≤ w.popped.length + cap.val := within
  change claimed + w.consume.consumer.ahead ≤ w.consume.popped.length + cap.val
  omega

theorem popped_produce (p : Tid) : (w.produce p).popped = w.popped := by
  rcases held_produce (w := w) p with ⟨-, popped, -⟩ | ⟨_, _, _, _, popped, _⟩
  · exact popped
  · exact popped

/-- While no push claims an index a whole lap ahead, no push is lapped and none is refused. -/
theorem orderly_of_roomy {actions : List (Action Tid)}
    (run : (World.machine cap Tid).Run Roomy World.init actions w) :
    (World.machine cap Tid).Run Orderly World.init actions w ∧
      Within (claims cap actions).length w := by
  induction run with
  | nil => exact ⟨.nil, Nat.zero_le _⟩
  | @snoc actions w action prior enabled roomy ih =>
      obtain ⟨run, within⟩ := ih
      obtain ⟨number, queue⟩ := queue_of_run run
      have cursors := cursors_of_run run
      have bound : (claims cap actions).length + w.consumer.ahead ≤ w.popped.length + cap.val :=
        within
      have claimed : claims cap (actions ++ [action]) = claims cap actions ++ claimOf w action :=
        prior.log_snoc claimOf action
      rw [claimed, List.length_append]
      cases action with
      | call p a =>
          refine ⟨run.snoc enabled ⟨trivial, trivial⟩, ?_⟩
          simp only [World.machine]
          split <;> exact within
      | request out =>
          have idle : w.consumer = .idle := enabled
          rw [Within, idle] at within
          exact ⟨run.snoc enabled ⟨trivial, trivial⟩, within⟩
      | consume => exact ⟨run.snoc enabled ⟨trivial, trivial⟩, within.consume⟩
      | produce p =>
          have room : ∀ a, w.producer p = .claim a →
              (claims cap actions).length + w.consumer.ahead < w.popped.length + cap.val := by
            intro a pc
            have less := roomy (by rw [pc]; rfl)
            rw [distance_of_within cursors within queue.popped_le] at less
            have le := queue.popped_le
            omega
          refine ⟨run.snoc enabled ⟨?_, ?_⟩, ?_⟩
          · intro a pc q ne
            have less := room a pc
            exact queue.unlapped cursors.writeIndex (by omega) q
          · intro a idx pc
            exact queue.unrefused (by omega) pc
          · change _ + (w.produce p).consumer.ahead ≤ (w.produce p).popped.length + cap.val
            rw [popped_produce, consumer_produce]
            cases pc : w.producer p with
            | claim a =>
                have less := room a pc
                simp only [claimOf, pc, List.length_singleton]
                omega
            | _ =>
                simp only [claimOf, pc, List.length_nil]
                exact bound

/-! What each thread pushed. -/

/-- The push that is waiting for its index. -/
def ProducerPc.pending (p : Tid) : ProducerPc → List (Tid × PushArgs)
  | .claim a => [(p, a)]
  | _ => []

def ownedBy (p : Tid) (log : List (Tid × PushArgs)) : List (Tid × PushArgs) :=
  log.filter (fun c => decide (c.1 = p))

theorem ownedBy_append (p : Tid) (log log' : List (Tid × PushArgs)) :
    ownedBy p (log ++ log') = ownedBy p log ++ ownedBy p log' := List.filter_append _ _

/-- A thread makes one call at a time, so that it claims in the order of its calls. -/
theorem pending_next (p : Tid) {action : Action Tid}
    (enabled : (World.machine cap Tid).Enabled w action) :
    (w.producer p).pending p ++ ownedBy p (callOf w action) =
      ownedBy p (claimOf w action) ++
        (((World.machine cap Tid).next w action).producer p).pending p := by
  cases action with
  | call q a =>
      have idle : w.producer q = .idle := enabled
      simp only [callOf, claimOf, World.machine]
      split
      · simp [ownedBy]
      · by_cases same : p = q
        · subst same
          simp [ownedBy, World.setProducer, idle, ProducerPc.pending]
        · simp [ownedBy, World.setProducer, same, Ne.symm same]
  | produce q =>
      change _ = _ ++ ((w.produce q).producer p).pending p
      by_cases same : p = q
      · subst same
        cases pc : w.producer p with
        | idle => simp [World.produce, pc, claimOf, callOf, ownedBy, ProducerPc.pending]
        | check a idx =>
            by_cases set : (w.ring.slots (cap.slot idx)).ready = true
            · simp [World.produce, pc, set, claimOf, callOf, ownedBy, World.setProducer,
                ProducerPc.pending]
            · simp [World.produce, pc, set, claimOf, callOf, ownedBy, World.setProducer,
                ProducerPc.pending]
        | store a idx field =>
            cases field with
            | _ => simp [World.produce, pc, claimOf, callOf, ownedBy, World.setProducer,
                ProducerPc.pending]
        | _ => simp [World.produce, pc, claimOf, callOf, ownedBy, World.setProducer,
            ProducerPc.pending]
      · rw [producer_produce_of_ne same]
        cases pc : w.producer q with
        | claim a => simp [claimOf, callOf, ownedBy, pc, Ne.symm same]
        | _ => simp [claimOf, callOf, ownedBy, pc]
  | request out => simp [World.machine, callOf, claimOf, ownedBy]
  | consume =>
      change _ = _ ++ (w.consume.producer p).pending p
      rw [consume_producer]
      simp [callOf, claimOf, ownedBy]

theorem calls_of_run {allowed : World cap Tid → Action Tid → Prop} {actions : List (Action Tid)}
    (run : (World.machine cap Tid).Run allowed World.init actions w) (p : Tid) :
    ownedBy p (calls cap actions) =
      ownedBy p (claims cap actions) ++ (w.producer p).pending p := by
  induction run with
  | nil => rfl
  | @snoc actions w action prior enabled _ ih =>
      rw [calls, claims, prior.log_snoc, prior.log_snoc, ownedBy_append, ownedBy_append,
        List.append_assoc, ← pending_next p enabled, ← List.append_assoc]
      exact congrArg (· ++ _) ih

/-- Only a push that finds its flag set goes on to the drop counter. -/
theorem producer_ne_drop {p : Tid} (unrefused : Unrefused w (.produce p)) :
    (w.produce p).producer p ≠ .drop := by
  cases pc : w.producer p with
  | check a idx =>
      have clear := unrefused a idx pc
      simp [World.produce, pc, clear, World.setProducer]
  | idle => simp [World.produce, pc]
  | store a idx field =>
      cases field with
      | _ => simp [World.produce, pc, World.setProducer]
  | _ => simp [World.produce, pc, World.setProducer]

theorem refusals_of_run {actions : List (Action Tid)}
    (run : (World.machine cap Tid).Run Unrefused World.init actions w) :
    refusals cap actions = [] ∧ ∀ p, w.producer p ≠ .drop := by
  induction run with
  | nil => exact ⟨rfl, fun _ h => by cases h⟩
  | @snoc actions w action prior enabled unrefused ih =>
      obtain ⟨none, busy⟩ := ih
      refine ⟨?_, ?_⟩
      · have quiet : refusalOf w action = [] := by
          cases action with
          | produce p =>
              cases pc : w.producer p with
              | drop => exact absurd pc (busy p)
              | _ => simp only [refusalOf, pc]
          | _ => rfl
        rw [refusals, prior.log_snoc, quiet, List.append_nil]
        exact none
      · intro p
        cases action with
        | call q a =>
            simp only [World.machine]
            split
            · exact busy p
            · by_cases same : p = q
              · subst same
                simp [World.setProducer]
              · simpa [World.setProducer, same] using busy p
        | produce q =>
            by_cases same : p = q
            · subst same
              exact producer_ne_drop unrefused
            · change (w.produce q).producer p ≠ .drop
              rw [producer_produce_of_ne same]
              exact busy p
        | request out => exact busy p
        | consume =>
            change w.consume.producer p ≠ .drop
            rw [consume_producer]
            exact busy p

/-- The order of any interleaving. While the cursors are less than a lap apart at every claim, no
push is lapped and none refused. As long as none is, the counter of drops stays at zero, the
records popped are the first claims, in the order of their indices, and those of one thread are
its first pushes, in program order. -/
theorem pops_in_claim_order (cap : Capacity) (actions : List (Action Tid)) (w : World cap Tid) :
    ((World.machine cap Tid).Run Roomy World.init actions w →
      (World.machine cap Tid).Run Orderly World.init actions w) ∧
    ((World.machine cap Tid).Run Orderly World.init actions w →
      w.ring.droppedCount = 0 ∧
      List.Forall₂ (fun x c => Ledger.Agrees x.2 c.2) w.popped
        ((claims cap actions).take w.popped.length) ∧
      ∀ p, ownedBy p ((claims cap actions).take w.popped.length) <+:
        ownedBy p (calls cap actions)) := by
  refine ⟨fun run => (orderly_of_roomy run).1, ?_⟩
  intro run
  obtain ⟨number, queue⟩ := queue_of_run run
  refine ⟨?_, queue.popped, ?_⟩
  · rw [(cursors_of_run run).droppedCount,
      (refusals_of_run (run.weaken (fun _ _ _ orderly => orderly.2))).1]
    rfl
  · intro p
    rw [calls_of_run run p]
    exact ((List.take_prefix _ _).filter _).trans (List.prefix_append _ _)

/-- Two pushes overlap: the one that claimed its index second is stored first. -/
def overtaken : List (Action Bool) :=
  [.call false (stamped 1), .produce false, .call true (stamped 2)] ++
    List.replicate 7 (.produce true) ++ List.replicate 6 (.produce false) ++
    [.request {}] ++ List.replicate 8 .consume ++ [.request {}] ++ List.replicate 8 .consume

/-- They are popped in the order of the claims, not in the order of the stores. -/
theorem pops_in_claim_order_overtaken :
    (overtaken.foldl (World.machine pair Bool).next World.init).accepted.map PushArgs.stampNs =
        [2, 1] ∧
      List.Forall₂ (fun x c => Ledger.Agrees x.2 c.2)
        (overtaken.foldl (World.machine pair Bool).next World.init).popped
        [(false, stamped 1), (true, stamped 2)] := by
  have roomy : (World.machine pair Bool).Run Roomy World.init overtaken _ :=
    Machine.run_of_fires (by decide)
  have order := pops_in_claim_order pair overtaken
    (overtaken.foldl (World.machine pair Bool).next World.init)
  have first : (claims pair overtaken).take
      (overtaken.foldl (World.machine pair Bool).next World.init).popped.length =
        [(false, stamped 1), (true, stamped 2)] := by
    decide
  refine ⟨by decide, ?_⟩
  rw [← first]
  exact (order.2 (order.1 roomy)).2.1

end ChronoCap.Ring.Interleaving

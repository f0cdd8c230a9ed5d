/- module: ChronoCap/Ring/SlotOwnership
   source: include/chrono_cap/mpsc_ring_buffer.hpp
   digest: While no push is lapped a slot has one user at a time and each pop drains one push;
           a stalled push that is lapped shares its slot. -/

import ChronoCap.Ring.Interleaving

set_option autoImplicit false
set_option relaxedAutoImplicit false

namespace ChronoCap.Ring.Interleaving

open ChronoCap.Foundation
open ChronoCap.WireFormat

variable {cap : Capacity} {Tid : Type}

def Fits (a : PushArgs) : Prop := a.len.toNat ≤ kMaxPayloadBytes

/-- What a push knows about its slot at each point. -/
def ProducerSound (slots : Fin cap.val → Slot) : ProducerPc → Prop
  | .idle => True
  | .claim a => Fits a
  | .check a _ => Fits a
  | .drop => True
  | .store a idx field => Fits a ∧ (slots (cap.slot idx)).ready = false ∧
      Stored (slots (cap.slot idx)) a field

/-- What the pop knows about the slot it reads. -/
def ConsumerSound (s : Slot) : ConsumerPc → Prop
  | .load out field => s.ready = true ∧ Loaded s out field
  | _ => True

/-- A ready slot holds, complete, the push that owns it. -/
def Holds (w : World cap Tid) (i : Fin cap.val) : Prop :=
  ∃ a, w.accepted[w.owner i]? = some a ∧ Fits a ∧ Stored (w.ring.slots i) a .ready

/-- No two pushes are related to one slot. -/
def Apart (R : Fin cap.val → ProducerPc → Prop) (producer : Tid → ProducerPc) : Prop :=
  ∀ p q (i : Fin cap.val), p ≠ q → R i (producer p) → ¬ R i (producer q)

/-- Moving one producer keeps the pushes apart if what it moves to is nobody else's. -/
theorem Apart.update [DecidableEq Tid] {R : Fin cap.val → ProducerPc → Prop}
    {producer : Tid → ProducerPc} (apart : Apart R producer) {p : Tid} {pc : ProducerPc}
    (alone : ∀ i, R i pc → ∀ q, q ≠ p → ¬ R i (producer q)) :
    Apart R (Function.update producer p pc) := by
  intro q q' i ne hq hq'
  rw [Function.update_apply] at hq hq'
  split at hq <;> split at hq'
  · rename_i h h'
    exact ne (h.trans h'.symm)
  · rename_i h'
    exact alone i hq q' h' hq'
  · rename_i h _
    exact alone i hq' q h hq
  · exact apart q q' i ne hq hq'

structure Sound (w : World cap Tid) : Prop where
  apart : Apart (@Fills cap) w.producer
  producers : ∀ p, ProducerSound w.ring.slots (w.producer p)
  consumer : ConsumerSound (w.ring.slots (cap.slot w.ring.readIndex)) w.consumer
  held : ∀ i, (w.ring.slots i).ready = true → Holds w i
  distinct : ∀ i j, (w.ring.slots i).ready = true → (w.ring.slots j).ready = true →
    w.owner i = w.owner j → i = j
  kept : ∀ i, (w.ring.slots i).ready = true → w.owner i ∉ w.popped.map Prod.fst
  drained : ∀ x ∈ w.popped, ∃ a, w.accepted[x.1]? = some a ∧ Ledger.Agrees x.2 a
  once : (w.popped.map Prod.fst).Nodup

theorem sound_init : Sound (World.init : World cap Tid) where
  apart p q i _ h := h.elim
  producers p := trivial
  consumer := trivial
  held i h := by simp [World.init, MpscRingBuffer.init] at h
  distinct i j h := by simp [World.init, MpscRingBuffer.init] at h
  kept i h := by simp [World.init, MpscRingBuffer.init] at h
  drained x hx := by simp [World.init] at hx
  once := List.nodup_nil

/-- A producer's view only depends on the slot it is filling. -/
theorem ProducerSound.frame {slots slots' : Fin cap.val → Slot} {pc : ProducerPc}
    (h : ProducerSound slots pc) (same : ∀ i, Fills i pc → slots' i = slots i) :
    ProducerSound slots' pc := by
  cases pc with
  | store a idx field =>
      obtain ⟨fits, free, stored⟩ := h
      rw [← same _ rfl] at free stored
      exact ⟨fits, free, stored⟩
  | _ => exact h

theorem ready_storeField {s : Slot} {a : PushArgs} {field : StoreAt} (data : field ≠ .ready) :
    (storeField s a field).ready = s.ready := by
  cases field with
  | ready => exact absurd rfl data
  | _ => rfl

variable {w : World cap Tid}

/-- The data sections are disjoint: the flag of a slot tells a filling push from the pop. -/
theorem Sound.exclusive (inv : Sound w) : Exclusive w where
  producers := inv.apart
  consumer p hp hc := by
    have free : (w.ring.slots (cap.slot w.ring.readIndex)).ready = false := by
      have sound := inv.producers p
      cases pc : w.producer p with
      | store a idx field =>
          rw [pc] at hp sound
          have slot : cap.slot idx = cap.slot w.ring.readIndex := hp
          rw [← slot]
          exact sound.2.1
      | _ =>
          rw [pc] at hp
          exact hp.elim
    have busy := inv.consumer
    cases pc : w.consumer with
    | load out field =>
        rw [pc] at busy
        simp [busy.1] at free
    | _ =>
        rw [pc] at hc
        exact hc

/-- A step that only moves one producer's program counter. -/
theorem Sound.setProducer [DecidableEq Tid] (inv : Sound w) {p : Tid} {pc : ProducerPc}
    (alone : ∀ i : Fin cap.val, Fills i pc → ∀ q, q ≠ p → ¬ Fills i (w.producer q))
    (sound : ProducerSound w.ring.slots pc) : Sound (w.setProducer p pc) where
  apart := inv.apart.update alone
  producers := by
    intro q
    simp only [World.setProducer, Function.update_apply]
    split
    · exact sound
    · exact inv.producers q
  consumer := inv.consumer
  held := inv.held
  distinct := inv.distinct
  kept := inv.kept
  drained := inv.drained
  once := inv.once

section Store

variable {p : Tid} {a : PushArgs} {idx : UInt64} {field : StoreAt}

/-- Another push in its data section fills another slot. -/
private theorem Sound.other_slot (inv : Sound w) (at_store : w.producer p = .store a idx field)
    {q : Tid} (ne : q ≠ p) {i : Fin cap.val} (h : Fills i (w.producer q)) :
    i ≠ cap.slot idx := by
  rintro rfl
  apply inv.apart q p _ ne h
  rw [at_store]
  exact rfl

/-- The slot a push is filling is not ready, so the pop is not reading it. -/
private theorem Sound.free_slot (inv : Sound w) (at_store : w.producer p = .store a idx field) :
    Fits a ∧ (w.ring.slots (cap.slot idx)).ready = false ∧
      Stored (w.ring.slots (cap.slot idx)) a field := by
  have sound := inv.producers p
  rw [at_store] at sound
  exact sound

/-- The slot a push is filling nobody else fills. -/
private theorem Sound.own_slot (inv : Sound w) (at_store : w.producer p = .store a idx field)
    (i : Fin cap.val) (fills : cap.slot idx = i) (q : Tid) (ne : q ≠ p) :
    ¬ Fills i (w.producer q) := by
  rintro hq
  exact inv.other_slot at_store ne hq fills.symm

private theorem Sound.consumer_frame (inv : Sound w)
    (free : (w.ring.slots (cap.slot idx)).ready = false) (s : Slot) :
    ConsumerSound (Function.update w.ring.slots (cap.slot idx) s
      (cap.slot w.ring.readIndex)) w.consumer := by
  have sound := inv.consumer
  cases pc : w.consumer with
  | load out field =>
      rw [pc] at sound
      have ne : cap.slot w.ring.readIndex ≠ cap.slot idx := by
        intro eq
        have busy := sound.1
        rw [eq, free] at busy
        exact Bool.false_ne_true busy
      rw [Function.update_of_ne ne]
      exact sound
  | _ => trivial

/-- A store of a field or a payload byte. -/
theorem Sound.store [DecidableEq Tid] (inv : Sound w) (at_store : w.producer p = .store a idx field)
    (data : field ≠ .ready) :
    Sound ((w.setSlot (cap.slot idx) (storeField (w.ring.slots (cap.slot idx)) a field)).setProducer
      p (.store a idx (field.next a))) := by
  obtain ⟨fits, free, stored⟩ := inv.free_slot at_store
  have still_free := (ready_storeField (s := w.ring.slots (cap.slot idx)) (a := a) data).trans free
  have ready_iff : ∀ i, (Function.update w.ring.slots (cap.slot idx)
      (storeField (w.ring.slots (cap.slot idx)) a field) i).ready = true →
        i ≠ cap.slot idx ∧ (w.ring.slots i).ready = true := by
    intro i ready
    by_cases hi : i = cap.slot idx
    · subst hi
      simp [still_free] at ready
    · rw [Function.update_of_ne hi] at ready
      exact ⟨hi, ready⟩
  refine ⟨inv.apart.update (inv.own_slot at_store), ?_, ?_, ?_, ?_, ?_, inv.drained, inv.once⟩
  · intro q
    simp only [World.setProducer, World.setSlot]
    by_cases hq : q = p
    · subst hq
      rw [Function.update_self]
      refine ⟨fits, ?_, ?_⟩
      · rw [Function.update_self]
        exact still_free
      · rw [Function.update_self]
        exact stored.next fits data
    · rw [Function.update_of_ne hq]
      apply (inv.producers q).frame
      intro i fills
      rw [Function.update_of_ne (inv.other_slot at_store hq fills)]
  · exact inv.consumer_frame free _
  · intro i ready
    obtain ⟨hi, ready⟩ := ready_iff i ready
    obtain ⟨b, found, bfits, bstored⟩ := inv.held i ready
    refine ⟨b, found, bfits, ?_⟩
    change Stored (Function.update w.ring.slots (cap.slot idx) _ i) b .ready
    rw [Function.update_of_ne hi]
    exact bstored
  · intro i j hi hj
    exact inv.distinct i j (ready_iff i hi).2 (ready_iff j hj).2
  · intro i hi
    exact inv.kept i (ready_iff i hi).2

private theorem getElem?_snoc {as : List PushArgs} {n : Nat} {x : PushArgs}
    (h : as[n]? = some x) (b : PushArgs) : (as ++ [b])[n]? = some x := by
  obtain ⟨bound, -⟩ := List.getElem?_eq_some_iff.mp h
  rw [List.getElem?_append_left bound]
  exact h

theorem Sound.owner_lt (inv : Sound w) {i : Fin cap.val} (ready : (w.ring.slots i).ready = true) :
    w.owner i < w.accepted.length := by
  obtain ⟨a, found, -⟩ := inv.held i ready
  exact (List.getElem?_eq_some_iff.mp found).1

/-- The store of the flag: the push is accepted and owns its slot. -/
theorem Sound.publish [DecidableEq Tid] (inv : Sound w)
    (at_store : w.producer p = .store a idx .ready) :
    Sound ({ w.setSlot (cap.slot idx) (storeField (w.ring.slots (cap.slot idx)) a .ready) with
      accepted := w.accepted ++ [a]
      owner := Function.update w.owner (cap.slot idx) w.accepted.length }.setProducer p .idle) := by
  obtain ⟨fits, free, stored⟩ := inv.free_slot at_store
  have others : ∀ i, i ≠ cap.slot idx → (Function.update w.ring.slots (cap.slot idx)
      (storeField (w.ring.slots (cap.slot idx)) a .ready) i).ready = true →
        (w.ring.slots i).ready = true := by
    intro i hi ready
    rwa [Function.update_of_ne hi] at ready
  refine ⟨inv.apart.update (fun _ h => h.elim), ?_, inv.consumer_frame free _, ?_, ?_, ?_, ?_,
    inv.once⟩
  · intro q
    simp only [World.setProducer, World.setSlot]
    by_cases hq : q = p
    · subst hq
      rw [Function.update_self]
      trivial
    · rw [Function.update_of_ne hq]
      apply (inv.producers q).frame
      intro i fills
      rw [Function.update_of_ne (inv.other_slot at_store hq fills)]
  · intro i ready
    by_cases hi : i = cap.slot idx
    · subst hi
      refine ⟨a, ?_, fits, ?_⟩
      · simp [World.setProducer, World.setSlot]
      · simp only [World.setProducer, World.setSlot, Function.update_self]
        exact ⟨⟨stored.1.topicId, stored.1.stampNs, stored.1.seq, stored.1.payloadLen⟩, stored.2⟩
    · obtain ⟨b, found, bfits, bstored⟩ := inv.held i (others i hi ready)
      refine ⟨b, ?_, bfits, ?_⟩
      · simp only [World.setProducer, World.setSlot, Function.update_of_ne hi]
        exact getElem?_snoc found a
      · simp only [World.setProducer, World.setSlot, Function.update_of_ne hi]
        exact bstored
  · intro i j hi hj same
    simp only [World.setProducer, World.setSlot] at same hi hj
    by_cases ei : i = cap.slot idx <;> by_cases ej : j = cap.slot idx
    · exact ei.trans ej.symm
    · rw [ei, Function.update_self, Function.update_of_ne ej] at same
      exact absurd same (inv.owner_lt (others j ej hj)).ne'
    · rw [ej, Function.update_self, Function.update_of_ne ei] at same
      exact absurd same (inv.owner_lt (others i ei hi)).ne
    · rw [Function.update_of_ne ei, Function.update_of_ne ej] at same
      exact inv.distinct i j (others i ei hi) (others j ej hj) same
  · intro i ready
    simp only [World.setProducer, World.setSlot]
    by_cases hi : i = cap.slot idx
    · rw [hi, Function.update_self]
      intro popped
      obtain ⟨x, hx, number⟩ := List.mem_map.mp popped
      obtain ⟨b, found, -⟩ := inv.drained x hx
      have := (List.getElem?_eq_some_iff.mp found).1
      omega
    · rw [Function.update_of_ne hi]
      exact inv.kept i (others i hi ready)
  · intro x hx
    obtain ⟨b, found, agrees⟩ := inv.drained x hx
    exact ⟨b, getElem?_snoc found a, agrees⟩

end Store

/-- Every step of a producer that enters no data section another push is in. -/
theorem Sound.produce [DecidableEq Tid] (inv : Sound w) {p : Tid}
    (unshared : Unshared w (.produce p)) : Sound (w.produce p) := by
  have sound := inv.producers p
  cases pc : w.producer p with
  | idle => simpa only [World.produce, pc] using inv
  | claim a =>
      rw [pc] at sound
      have moved : Sound { w with ring := { w.ring with writeIndex := w.ring.writeIndex + 1 } } :=
        ⟨inv.apart, inv.producers, inv.consumer, inv.held, inv.distinct, inv.kept, inv.drained,
          inv.once⟩
      simp only [World.produce, pc]
      exact moved.setProducer (fun _ h => h.elim) sound
  | check a idx =>
      rw [pc] at sound
      simp only [World.produce, pc]
      split
      · exact inv.setProducer (fun _ h => h.elim) trivial
      · rename_i clear
        have free : (w.ring.slots (cap.slot idx)).ready = false := by simpa using clear
        refine inv.setProducer ?_ ⟨sound, free, trivial⟩
        rintro i rfl q ne
        exact unshared a idx pc free q ne
  | drop =>
      have counted : Sound
          { w with ring := { w.ring with droppedCount := w.ring.droppedCount + 1 } } :=
        ⟨inv.apart, inv.producers, inv.consumer, inv.held, inv.distinct, inv.kept, inv.drained,
          inv.once⟩
      simp only [World.produce, pc]
      exact counted.setProducer (fun _ h => h.elim) trivial
  | store a idx field =>
      cases field with
      | ready =>
          simp only [World.produce, pc]
          exact inv.publish pc
      | _ =>
          simp only [World.produce, pc]
          exact inv.store pc (by simp)

/-- The store that gives the slot back: the record is drained once, and only here. -/
theorem Sound.giveBack (inv : Sound w) {out : PoppedRecord}
    (at_store : w.consumer = .load out .ready) :
    Sound { w.setSlot (cap.slot w.ring.readIndex)
      { w.ring.slots (cap.slot w.ring.readIndex) with ready := false } with
        consumer := .advance
        popped := w.popped ++ [(w.owner (cap.slot w.ring.readIndex), out)] } := by
  have sound := inv.consumer
  rw [at_store] at sound
  obtain ⟨busy, loaded⟩ := sound
  have others : ∀ i, (Function.update w.ring.slots (cap.slot w.ring.readIndex)
      { w.ring.slots (cap.slot w.ring.readIndex) with ready := false } i).ready = true →
        i ≠ cap.slot w.ring.readIndex ∧ (w.ring.slots i).ready = true := by
    intro i ready
    by_cases hi : i = cap.slot w.ring.readIndex
    · subst hi
      simp at ready
    · rw [Function.update_of_ne hi] at ready
      exact ⟨hi, ready⟩
  refine ⟨inv.apart, ?_, trivial, ?_, ?_, ?_, ?_, ?_⟩
  · intro q
    apply (inv.producers q).frame
    intro i fills
    have ne : i ≠ cap.slot w.ring.readIndex := by
      rintro rfl
      apply inv.exclusive.consumer q fills
      rw [at_store]
      trivial
    exact Function.update_of_ne ne _ _
  · intro i ready
    obtain ⟨hi, ready⟩ := others i ready
    obtain ⟨a, found, fits, stored⟩ := inv.held i ready
    refine ⟨a, found, fits, ?_⟩
    simp only [World.setSlot, Function.update_of_ne hi]
    exact stored
  · intro i j hi hj
    exact inv.distinct i j (others i hi).2 (others j hj).2
  · intro i ready
    obtain ⟨hi, ready⟩ := others i ready
    rw [List.map_append, List.mem_append, not_or]
    refine ⟨inv.kept i ready, ?_⟩
    simp only [List.map_cons, List.map_nil, List.mem_singleton]
    exact fun same => hi (inv.distinct i _ ready busy same)
  · intro x hx
    rcases List.mem_append.mp hx with old | new
    · exact inv.drained x old
    · obtain rfl := List.mem_singleton.mp new
      obtain ⟨a, found, fits, stored⟩ := inv.held _ busy
      exact ⟨a, found, agrees_of_loaded fits stored loaded⟩
  · rw [List.map_append, List.nodup_append]
    refine ⟨inv.once, by simp, ?_⟩
    intro n hn m hm
    obtain rfl := List.mem_singleton.mp hm
    rintro rfl
    exact inv.kept _ busy hn

theorem Sound.consume (inv : Sound w) : Sound w.consume := by
  have sound := inv.consumer
  cases pc : w.consumer with
  | idle => simpa only [World.consume, pc] using inv
  | check out =>
      simp only [World.consume, pc]
      split
      · rename_i busy
        exact { inv with consumer := ⟨busy, trivial⟩ }
      · exact { inv with consumer := trivial }
  | load out field =>
      rw [pc] at sound
      obtain ⟨busy, loaded⟩ := sound
      obtain ⟨a, -, fits, stored⟩ := inv.held _ busy
      have small : (w.ring.slots (cap.slot w.ring.readIndex)).payloadLen.toNat ≤
          kMaxPayloadBytes := by
        rw [stored.1.payloadLen]
        exact fits
      cases field with
      | ready =>
          simp only [World.consume, pc]
          exact inv.giveBack pc
      | _ =>
          simp only [World.consume, pc]
          exact { inv with consumer := ⟨busy, loaded.next small (by simp)⟩ }
  | advance =>
      simp only [World.consume, pc]
      exact { inv with consumer := trivial }

theorem sound_of_run [DecidableEq Tid] {actions : List (Action Tid)}
    (run : (World.machine cap Tid).Run Unshared World.init actions w) : Sound w := by
  apply run.invariant sound_init
  intro w action inv enabled unshared
  cases action with
  | call p a =>
      change Sound (if a.len.toNat > kMaxPayloadBytes then w else w.setProducer p (.claim a))
      split
      · exact inv
      · rename_i fits
        exact inv.setProducer (fun _ h => h.elim) (Nat.le_of_not_lt fits)
  | produce p => exact inv.produce unshared
  | request out => exact { inv with consumer := trivial }
  | consume => exact inv.consume

theorem consume_producer (w : World cap Tid) : w.consume.producer = w.producer := by
  cases pc : w.consumer with
  | idle => simp only [World.consume, pc]
  | check out =>
      simp only [World.consume, pc]
      split <;> rfl
  | load out field =>
      cases field with
      | _ => simp only [World.consume, pc, World.setSlot]
  | advance => simp only [World.consume, pc]

/-- A step lapping nobody keeps the claimed slots apart. -/
theorem claims_apart_produce [DecidableEq Tid] (apart : Apart (@Claims cap) w.producer)
    {p : Tid} (unlapped : Unlapped w (.produce p)) :
    Apart (@Claims cap) (w.produce p).producer := by
  have same_claim : ∀ {pc : ProducerPc},
      (∀ i : Fin cap.val, Claims i pc → Claims i (w.producer p)) →
      Apart (@Claims cap) (Function.update w.producer p pc) := by
    intro pc kept
    apply apart.update
    intro i claims q ne hq
    exact apart p q i ne.symm (kept i claims) hq
  cases pc : w.producer p with
  | idle => simpa only [World.produce, pc] using apart
  | claim a =>
      simp only [World.produce, pc]
      apply apart.update
      rintro i rfl q ne
      exact unlapped a pc q ne
  | check a idx =>
      simp only [World.produce, pc]
      split
      · exact same_claim (fun _ h => h.elim)
      · refine same_claim (fun i h => ?_)
        rw [pc]
        exact h
  | drop =>
      simp only [World.produce, pc]
      exact same_claim (fun _ h => h.elim)
  | store a idx field =>
      cases field with
      | ready =>
          simp only [World.produce, pc]
          exact same_claim (fun _ h => h.elim)
      | _ =>
          simp only [World.produce, pc]
          refine same_claim (fun i h => ?_)
          rw [pc]
          exact h

/-- Pushes that lap nobody never meet in a data section. -/
theorem unshared_of_unlapped [DecidableEq Tid] {actions : List (Action Tid)}
    (run : (World.machine cap Tid).Run Unlapped World.init actions w) :
    (World.machine cap Tid).Run Unshared World.init actions w := by
  have both : (World.machine cap Tid).Run Unshared World.init actions w ∧
      Apart (@Claims cap) w.producer := by
    induction run with
    | nil => exact ⟨.nil, fun p q i _ h => h.elim⟩
    | snoc _ enabled unlapped ih =>
        rename_i t action _
        obtain ⟨run, apart⟩ := ih
        cases action with
        | call p a =>
            refine ⟨run.snoc enabled trivial, ?_⟩
            change Apart (@Claims cap)
              (if a.len.toNat > kMaxPayloadBytes then t else t.setProducer p (.claim a)).producer
            split
            · exact apart
            · exact apart.update (fun _ h => h.elim)
        | produce p =>
            refine ⟨run.snoc enabled ?_, claims_apart_produce apart unlapped⟩
            intro a idx pc _ q ne fills
            refine apart p q _ ne.symm ?_ fills.claims
            rw [pc]
            exact rfl
        | request out => exact ⟨run.snoc enabled trivial, apart⟩
        | consume =>
            refine ⟨run.snoc enabled trivial, ?_⟩
            change Apart (@Claims cap) t.consume.producer
            rw [consume_producer]
            exact apart
  exact both.1

/-- Every state the run reaches is exclusive. -/
def StaysExclusive [DecidableEq Tid] (w : World cap Tid) (action : Action Tid) : Prop :=
  Exclusive ((World.machine cap Tid).next w action)

/-- A push that shares a slot breaks exclusion in the very next state. -/
theorem unshared_of_staysExclusive [DecidableEq Tid] {action : Action Tid}
    (stays : StaysExclusive w action) : Unshared w action := by
  cases action with
  | produce p =>
      intro a idx pc free q ne fills
      have moved : (w.produce p).producer =
          Function.update w.producer p (.store a idx .topicId) := by
        simp [World.produce, pc, free, World.setProducer]
      have apart := stays.producers p q (cap.slot idx) ne.symm
      change Fills _ ((w.produce p).producer p) → ¬ Fills _ ((w.produce p).producer q) at apart
      rw [moved, Function.update_self, Function.update_of_ne ne] at apart
      exact apart rfl fills
  | _ => trivial

/-- One push stalls after it claimed the first slot of two, the next one fills the second slot,
and the third claims the first slot again before the first push looks at it. -/
def lapped : List (Action Bool) :=
  [.call false (stamped 1), .produce false, .call true (stamped 2)] ++
    List.replicate 7 (.produce true) ++
    [.call true (stamped 3), .produce true, .produce false, .produce true]

end ChronoCap.Ring.Interleaving

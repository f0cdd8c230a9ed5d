/- module: ChronoCap/Ring/WeakMemory
   source: include/chrono_cap/mpsc_ring_buffer.hpp
   digest: The ring under its memory orders: a thread may find an older store to a slot's flag, and
           what it knows of the other threads comes from the flags it found. -/

import ChronoCap.Foundation.Handover
import ChronoCap.Ring.SlotOwnership

set_option autoImplicit false
set_option relaxedAutoImplicit false

namespace ChronoCap.Ring.WeakMemory

open ChronoCap.Foundation
open ChronoCap.Foundation.ReleaseAcquire
open ChronoCap.Foundation.Handover (Guarded touch)
open ChronoCap.Ring.Interleaving
  (ProducerPc ConsumerPc StoreAt Fills Drains Sound ProducerSound)
open ChronoCap.WireFormat

/-- The interleaved ring, except for the flags of its slots: these are locations of a memory with
release stores and acquire loads, and no step reads the `ready` of `plain`, the store executed
last. The counters are relaxed: a `fetch_add` is atomic and tells its thread nothing else. The
consumer is the thread `none`. -/
structure World (cap : Capacity) (Tid : Type) where
  plain : Interleaving.World cap Tid
  memory : Memory (Fin cap.val) (Option Tid) Bool
  /-- the epoch in which a thread last accessed the data of a slot: one for all accesses of a push
  or pop. Any two threads conflict there, since only the consumer reads. -/
  touched : Fin cap.val → Option Tid → Nat

inductive Action (Tid : Type) where
  | call (p : Tid) (a : PushArgs)
  /-- a producer thread makes its next step: a load finds the store number `place`, a store comes
  at `place` in the modification order -/
  | produce (p : Tid) (place : Nat)
  | request (out : PoppedRecord)
  | consume (place : Nat)

/-- The step of the interleaved ring. -/
def Action.plain {Tid : Type} : Action Tid → Interleaving.Action Tid
  | .call p a => .call p a
  | .produce p _ => .produce p
  | .request out => .request out
  | .consume _ => .consume

variable {cap : Capacity} {Tid : Type}

/-- The slot that the next pop looks at. -/
def front (w : Interleaving.World cap Tid) : Fin cap.val := cap.slot w.ring.readIndex

/-- The thread finds the flag of its slot set or clear. -/
def look [DecidableEq Tid] (w : Interleaving.World cap Tid) (set : Bool) :
    Option Tid → Interleaving.World cap Tid
  | some p =>
      match w.producer p with
      | .check a idx => w.setProducer p (if set then .drop else .store a idx .topicId)
      | _ => w
  | none =>
      match w.consumer with
      | .check out => { w with consumer := if set then .load out .topicId else .idle }
      | _ => w

namespace World

def init [DecidableEq Tid] : World cap Tid := ⟨.init, .init false, fun _ _ => 0⟩

/-- What a step does with a flag. -/
def op (w : World cap Tid) :
    Action Tid → Option (ReleaseAcquire.Op (Fin cap.val) (Option Tid) Bool)
  | .produce p place =>
      match w.plain.producer p with
      | .check _ idx => some (.load (some p) (cap.slot idx) place)
      | .store _ idx .ready => some (.store (some p) (cap.slot idx) true place)
      | _ => none
  | .consume place =>
      match w.plain.consumer with
      | .check _ => some (.load none (front w.plain) place)
      | .load _ .ready => some (.store none (front w.plain) false place)
      | _ => none
  | _ => none

/-- The thread that a step is of and the slot whose data it accesses. -/
def access (w : World cap Tid) : Action Tid → Option (Option Tid × Fin cap.val)
  | .produce p _ =>
      match w.plain.producer p with
      | .store _ _ .ready => none
      | .store _ idx _ => some (some p, cap.slot idx)
      | _ => none
  | .consume _ =>
      match w.plain.consumer with
      | .load _ .ready => none
      | .load _ _ => some (none, front w.plain)
      | _ => none
  | _ => none

/-- The value that the store number `n` gave the flag. -/
def flag (w : World cap Tid) (i : Fin cap.val) (n : Nat) : Bool :=
  ((w.memory.messages i)[n]?.map Message.value).getD false

end World

def machine (cap : Capacity) (Tid : Type) [DecidableEq Tid] :
    Machine (World cap Tid) (Action Tid) where
  Enabled w action :=
    (Interleaving.World.machine cap Tid).Enabled w.plain action.plain ∧
      ∀ op ∈ w.op action, w.memory.Coherent op
  next w action :=
    { plain := match w.op action with
        | some (.load t i n) => look w.plain (w.flag i n) t
        | _ => (Interleaving.World.machine cap Tid).next w.plain action.plain
      memory := (w.op action).elim w.memory w.memory.next
      touched := (w.access action).elim w.touched (fun x => touch w.memory w.touched x.1 x.2) }

instance [DecidableEq Tid] (w : World cap Tid) : DecidablePred ((machine cap Tid).Enabled w) :=
  fun action => inferInstanceAs (Decidable (_ ∧ ∀ op ∈ w.op action, w.memory.Coherent op))

/-- No data race: whatever the other threads did with the data that the step accesses happened
before. -/
def Ordered (w : World cap Tid) (action : Action Tid) : Prop :=
  ∀ x ∈ w.access action, Handover.Ordered w.memory w.touched x.1 x.2

instance [Fintype Tid] [DecidableEq Tid] (w : World cap Tid) : DecidablePred (Ordered w) :=
  fun action => inferInstanceAs (Decidable (∀ x ∈ w.access action, Handover.Ordered _ _ x.1 x.2))

/-- A push that has found the flag clear and stored nothing yet counts as before its check. -/
def settle : ProducerPc → ProducerPc
  | .store a idx .topicId => .check a idx
  | pc => pc

/-- A push begins to fill its slot only if it has seen the last store to the flag, and no other push
is filling the slot. -/
def Fresh (w : World cap Tid) : Action Tid → Prop
  | .produce p _ => ∀ a idx, w.plain.producer p = .store a idx .topicId →
      (w.memory.latest (cap.slot idx)).stamp ≤ w.memory.view (some p) (.seen (cap.slot idx)) ∧
        ∀ q, q ≠ p → ¬ Fills (cap.slot idx) (settle (w.plain.producer q))
  | _ => True

/-! Who has found the flag at the value it waits for, and who has been at the data since. -/

def Reads : ConsumerPc → Prop
  | .load _ field => field ≠ .topicId
  | _ => False

def entered (w : Interleaving.World cap Tid) (i : Fin cap.val) : Option Tid → Prop
  | some p => Fills i (w.producer p)
  | none => front w = i ∧ Drains w.consumer

def inside (w : Interleaving.World cap Tid) (i : Fin cap.val) : Option Tid → Prop
  | some p => Fills i (settle (w.producer p))
  | none => front w = i ∧ Reads w.consumer

/-- The interleaved ring, with the pushes that have stored nothing yet before their checks. -/
def calm (w : Interleaving.World cap Tid) : Interleaving.World cap Tid :=
  { w with producer := fun p => settle (w.producer p) }

theorem calm_consume (w : Interleaving.World cap Tid) : calm w.consume = (calm w).consume := by
  cases pc : w.consumer with
  | check out =>
      simp only [Interleaving.World.consume, calm, pc]
      split <;> rfl
  | load out field =>
      cases field with
      | _ => simp only [Interleaving.World.consume, calm, pc, Interleaving.World.setSlot]
  | _ => simp only [Interleaving.World.consume, calm, pc]

theorem fills_of_settle {i : Fin cap.val} {pc : ProducerPc} (fills : Fills i (settle pc)) :
    Fills i pc := by
  cases pc with
  | store a idx field =>
      cases field with
      | topicId => exact fills.elim
      | _ => exact fills
  | _ => exact fills

theorem settle_of_begun {a : PushArgs} {idx : UInt64} {field : StoreAt}
    (begun : field ≠ .topicId) : settle (.store a idx field) = .store a idx field := by
  cases field with
  | topicId => exact absurd rfl begun
  | _ => rfl

theorem store_next_begun (a : PushArgs) (field : StoreAt) : field.next a ≠ .topicId := by
  cases field with
  | payloadLen =>
      simp only [StoreAt.next, StoreAt.copy]
      split <;> simp
  | byte i =>
      simp only [StoreAt.next, StoreAt.copy]
      split <;> simp
  | _ => simp [StoreAt.next]

theorem load_next_begun (s : Slot) (field : Interleaving.LoadAt) : field.next s ≠ .topicId := by
  cases field with
  | count =>
      simp only [Interleaving.LoadAt.next, Interleaving.LoadAt.copy]
      split <;> simp
  | byte n i =>
      simp only [Interleaving.LoadAt.next, Interleaving.LoadAt.copy]
      split <;> simp
  | _ => simp [Interleaving.LoadAt.next]

theorem inside_entered {w : Interleaving.World cap Tid} {i : Fin cap.val} {t : Option Tid}
    (within : inside w i t) : entered w i t := by
  cases t with
  | none =>
      obtain ⟨here, reads⟩ := within
      cases pc : w.consumer with
      | load out field => exact ⟨here, by rw [pc]; trivial⟩
      | _ =>
          rw [pc] at reads
          exact reads.elim
  | some p =>
      exact fills_of_settle within

theorem entered_iff_slot {w : Interleaving.World cap Tid} {p : Tid} {a : PushArgs} {idx : UInt64}
    {field : StoreAt} (pc : w.producer p = .store a idx field) (i : Fin cap.val) :
    entered w i (some p) ↔ cap.slot idx = i := by
  rw [entered, pc, Fills]

theorem drains_of_load {w : Interleaving.World cap Tid} {out : PoppedRecord}
    {field : Interleaving.LoadAt} (pc : w.consumer = .load out field) : Drains w.consumer := by
  rw [pc]
  trivial

/-- The `ready` of the interleaved ring is the store to the flag that was executed last. -/
def Tracks (u : Interleaving.World cap Tid) (M : Memory (Fin cap.val) (Option Tid) Bool) : Prop :=
  ∀ i, (u.ring.slots i).ready = (M.latest i).value

/-- The flags hand the slots over, and the data is as in the interleaved ring. -/
structure Handed (w : World cap Tid) : Prop where
  guarded : Guarded Option.isNone w.memory w.touched (entered w.plain) (inside w.plain)
  sound : Sound (calm w.plain)
  ready : Tracks w.plain w.memory

variable {w : World cap Tid}

/-- A push at the data of its slot: it stands behind the last store, which cleared the flag. -/
theorem Handed.clear_of_seen (inv : Handed w) {p : Tid} {a : PushArgs} {idx : UInt64}
    {field : StoreAt}
    (pc : w.plain.producer p = .store a idx field)
    (seen : (w.memory.latest (cap.slot idx)).stamp ≤
      w.memory.view (some p) (.seen (cap.slot idx))) :
    (w.plain.ring.slots (cap.slot idx)).ready = false := by
  have enters := (entered_iff_slot pc (cap.slot idx)).mpr rfl
  obtain ⟨m, found, value⟩ := inv.guarded.found _ _ enters
  obtain rfl := inv.guarded.latest_of_found found seen
  exact (inv.ready _).trans value

theorem Handed.pushes (inv : Handed w) {p : Tid} {pc : ProducerPc}
    (at_pc : w.plain.producer p = pc) : ProducerSound w.plain.ring.slots (settle pc) :=
  at_pc ▸ inv.sound.producers p

/-- The slot that a pop reads from is ready. -/
theorem Handed.busy (inv : Handed w) (drains : Drains w.plain.consumer) :
    (w.plain.ring.slots (front w.plain)).ready = true := by
  have sound := inv.sound.consumer
  change Interleaving.ConsumerSound (w.plain.ring.slots (front w.plain)) w.plain.consumer at sound
  cases pc : w.plain.consumer with
  | load out field =>
      rw [pc] at sound
      exact sound.1
  | _ =>
      rw [pc] at drains
      exact drains.elim

/-- The consumer is the only thread that waits for a set flag, so that it has seen the last store
when it finds one. -/
theorem Handed.latest_of_set (inv : Handed w) {i : Fin cap.val}
    {m : Message (Fin cap.val) (Option Tid) Bool} (mem : m ∈ w.memory.messages i)
    (set : m.value = true) (coherent : w.memory.view none (.seen i) ≤ m.stamp) :
    m = w.memory.latest i :=
  inv.guarded.latest_of_sole (t := none) (fun _ none => Option.isNone_iff_eq_none.mp none) mem set
    coherent

/-- A step of the consumer that touches neither a flag nor the data of a slot. -/
theorem Handed.setConsumer (inv : Handed w) {u : Interleaving.World cap Tid}
    (producers : u.producer = w.plain.producer) (drains : ¬ Drains w.plain.consumer)
    (drains' : ¬ Drains u.consumer) (slots : u.ring.slots = w.plain.ring.slots)
    (sound : Sound (calm u)) : Handed { w with plain := u } where
  guarded := by
    have reads : ∀ {c : ConsumerPc}, ¬ Drains c → ¬ Reads c := by
      intro c outside reads
      cases c with
      | load out field => exact outside trivial
      | _ => exact reads
    apply inv.guarded.congr
    · intro i t
      cases t with
      | none => exact iff_of_false (fun h => drains' h.2) (fun h => drains h.2)
      | some p => simp only [entered, producers]
    · intro i t
      cases t with
      | none => exact iff_of_false (fun h => reads drains' h.2) (fun h => reads drains h.2)
      | some p => simp only [inside, producers]
  sound := sound
  ready i := by
    change (u.ring.slots i).ready = _
    rw [slots]
    exact inv.ready i

theorem Handed.free (inv : Handed w) {p : Tid} {i : Fin cap.val}
    (clear : (w.plain.ring.slots i).ready = false)
    (free : ∀ q, q ≠ p → ¬ Fills i (settle (w.plain.producer q))) (t : Option Tid)
    (ne : t ≠ some p) : ¬ inside w.plain i t := by
  intro within
  cases t with
  | none =>
      have busy := inv.busy (inside_entered within).2
      obtain ⟨rfl, -⟩ := within
      rw [clear] at busy
      contradiction
  | some q => exact free q (fun same => ne (congrArg some same)) within

/-- A push that goes on filling its slot has seen the last store and is alone there. -/
theorem Handed.alone (inv : Handed w) {p : Tid} {a : PushArgs} {idx : UInt64} {field : StoreAt}
    (pc : w.plain.producer p = .store a idx field) (begun : field ≠ .topicId) :
    (w.memory.latest (cap.slot idx)).stamp ≤ w.memory.view (some p) (.seen (cap.slot idx)) ∧
      ∀ t, t ≠ some p → ¬ inside w.plain (cap.slot idx) t := by
  have here : inside w.plain (cap.slot idx) (some p) := by
    rw [inside, pc, settle_of_begun begun]
    rfl
  exact ⟨inv.guarded.holds _ _ here,
    fun t ne within => ne (inv.guarded.alone _ _ _ within here)⟩

theorem Handed.request (inv : Handed w) (out : PoppedRecord)
    (idle : w.plain.consumer = .idle) :
    Handed { w with plain := { w.plain with consumer := .check out } } := by
  have drains : ¬ Drains w.plain.consumer := by
    rw [idle]
    exact id
  exact inv.setConsumer (u := { w.plain with consumer := .check out }) rfl drains id rfl
    { inv.sound with consumer := trivial }

section Ops

variable {p : Tid} {a : PushArgs} {idx : UInt64} {out : PoppedRecord} {place : Nat}

theorem op_check (pc : w.plain.producer p = .check a idx) (place : Nat) :
    w.op (.produce p place) = some (.load (some p) (cap.slot idx) place) := by
  simp only [World.op, pc]

theorem op_publish (pc : w.plain.producer p = .store a idx .ready) (place : Nat) :
    w.op (.produce p place) = some (.store (some p) (cap.slot idx) true place) := by
  simp only [World.op, pc]

theorem op_store {field : StoreAt} (data : field ≠ .ready)
    (pc : w.plain.producer p = .store a idx field) (place : Nat) :
    w.op (.produce p place) = none ∧
      w.access (.produce p place) = some (some p, cap.slot idx) := by
  cases field with
  | ready => exact absurd rfl data
  | _ => simp only [World.op, World.access, pc, and_self]

theorem op_load {field : Interleaving.LoadAt} (data : field ≠ .ready)
    (pc : w.plain.consumer = .load out field) (place : Nat) :
    w.op (.consume place) = none ∧ w.access (.consume place) = some (none, front w.plain) := by
  cases field with
  | ready => exact absurd rfl data
  | _ => simp only [World.op, World.access, pc, and_self]

theorem ordered_of_access {action : Action Tid} {t : Option Tid} {i : Fin cap.val}
    (access : w.access action = some (t, i)) :
    Ordered w action ↔ Handover.Ordered w.memory w.touched t i := by
  simp only [Ordered, access, Option.mem_def, Option.some.injEq, forall_eq']

theorem ordered_of_no_access {action : Action Tid} (access : w.access action = none) :
    Ordered w action := by
  simp only [Ordered, access, Option.mem_def, reduceCtorEq, false_implies, implies_true]

theorem fresh_of_begun {field : StoreAt} (pc : w.plain.producer p = .store a idx field)
    (begun : field ≠ .topicId) : Fresh w (.produce p place) := by
  intro b j pc'
  obtain ⟨-, -, same⟩ := ProducerPc.store.inj (pc.symm.trans pc')
  exact absurd same begun

/-- Where a push begins to fill its slot, it is free of races exactly if it has seen the last store
to the flag and no other push is filling the slot. -/
theorem Handed.begins_iff (inv : Handed w) (pc : w.plain.producer p = .store a idx .topicId) :
    Handover.Ordered w.memory w.touched (some p) (cap.slot idx) ↔ Fresh w (.produce p place) := by
  have enters := (entered_iff_slot pc (cap.slot idx)).mpr rfl
  rw [inv.guarded.ordered_iff enters]
  constructor
  · rintro ⟨seen, free⟩ b j pc'
    obtain ⟨-, rfl, -⟩ := ProducerPc.store.inj (pc.symm.trans pc')
    exact ⟨seen, fun q ne => free (some q) fun same => ne (Option.some.inj same)⟩
  · intro fresh
    obtain ⟨seen, free⟩ := fresh a idx pc
    exact ⟨seen, inv.free (inv.clear_of_seen pc seen) free⟩

end Ops

/-! The steps of the interleaved ring at a slot. -/

section Steps

variable {u : Interleaving.World cap Tid} {M : Memory (Fin cap.val) (Option Tid) Bool}
  {p : Tid} {a : PushArgs} {idx : UInt64} {out : PoppedRecord}

theorem consume_load {field : Interleaving.LoadAt} (data : field ≠ .ready)
    (pc : u.consumer = .load out field) : u.consume = { u with
      consumer := .load (Interleaving.loadField (u.ring.slots (front u)) out field)
        (field.next (u.ring.slots (front u))) } := by
  cases field with
  | ready => exact absurd rfl data
  | _ => simp only [Interleaving.World.consume, pc, front]

theorem consume_giveBack (pc : u.consumer = .load out .ready) : u.consume =
    { u.setSlot (front u) { u.ring.slots (front u) with ready := false } with
      consumer := .advance
      popped := u.popped ++ [(u.owner (front u), out)] } := by
  simp only [Interleaving.World.consume, pc, front]

variable [DecidableEq Tid]

theorem produce_store {field : StoreAt} (data : field ≠ .ready)
    (pc : u.producer p = .store a idx field) : u.produce p =
      (u.setSlot (cap.slot idx)
        (Interleaving.storeField (u.ring.slots (cap.slot idx)) a field)).setProducer p
          (.store a idx (field.next a)) := by
  cases field with
  | ready => exact absurd rfl data
  | _ => simp only [Interleaving.World.produce, pc]

theorem produce_publish (pc : u.producer p = .store a idx .ready) : u.produce p =
    { u.setSlot (cap.slot idx)
        (Interleaving.storeField (u.ring.slots (cap.slot idx)) a .ready) with
      accepted := u.accepted ++ [a]
      owner := Function.update u.owner (cap.slot idx) u.accepted.length }.setProducer p
        .idle := by
  simp only [Interleaving.World.produce, pc]

theorem Tracks.store (tracks : Tracks u M) {field : StoreAt} (data : field ≠ .ready)
    (pc : u.producer p = .store a idx field) : Tracks (u.produce p) M := by
  intro i
  rw [← tracks i, produce_store data pc]
  by_cases here : i = cap.slot idx
  · subst here
    simp only [Interleaving.World.setProducer, Interleaving.World.setSlot, Function.update_self]
    exact Interleaving.ready_storeField data
  · simp only [Interleaving.World.setProducer, Interleaving.World.setSlot,
      Function.update_of_ne here]

theorem Tracks.publish (tracks : Tracks u M) (pc : u.producer p = .store a idx .ready)
    (stamp : Nat) : Tracks (u.produce p) (M.store (some p) (cap.slot idx) true stamp) := by
  intro i
  rw [produce_publish pc]
  by_cases here : i = cap.slot idx
  · subst here
    simp only [Interleaving.World.setProducer, Interleaving.World.setSlot, Memory.store,
      Function.update_self, Interleaving.storeField]
  · simp only [Interleaving.World.setProducer, Interleaving.World.setSlot, Memory.store,
      Function.update_of_ne here]
    exact tracks i

theorem Tracks.giveBack (tracks : Tracks u M) (pc : u.consumer = .load out .ready)
    (stamp : Nat) : Tracks u.consume (M.store none (front u) false stamp) := by
  intro i
  rw [consume_giveBack pc]
  by_cases here : i = front u
  · subst here
    simp only [Interleaving.World.setSlot, Memory.store, Function.update_self]
  · simp only [Interleaving.World.setSlot, Memory.store, Function.update_of_ne here]
    exact tracks i

end Steps

variable [DecidableEq Tid]

theorem handed_init : Handed (World.init : World cap Tid) where
  guarded := by
    apply Guarded.init
    · intro i t enters
      cases t with
      | none => exact enters.2
      | some p => exact enters
    · intro i t within
      cases t with
      | none => exact within.2
      | some p => exact within
  sound := Interleaving.sound_init
  ready _ := rfl

theorem calm_setProducer (w : Interleaving.World cap Tid) (p : Tid) (pc : ProducerPc) :
    calm (w.setProducer p pc) = (calm w).setProducer p (settle pc) := by
  simp only [calm, Interleaving.World.setProducer, Interleaving.World.mk.injEq, true_and, and_true]
  funext q
  by_cases mine : q = p
  · rw [mine, Function.update_self, Function.update_self]
  · rw [Function.update_of_ne mine, Function.update_of_ne mine]

theorem entered_setProducer (w : Interleaving.World cap Tid) (p : Tid) (pc : ProducerPc)
    (i : Fin cap.val) (t : Option Tid) :
    entered (w.setProducer p pc) i t ↔
      (t = some p ∧ Fills i pc) ∨ (t ≠ some p ∧ entered w i t) := by
  cases t with
  | none => simp [entered, front, Interleaving.World.setProducer]
  | some q =>
      by_cases mine : q = p
      · simp [entered, Interleaving.World.setProducer, mine]
      · simp [entered, Interleaving.World.setProducer, mine]

theorem inside_setProducer (w : Interleaving.World cap Tid) (p : Tid) (pc : ProducerPc)
    (i : Fin cap.val) (t : Option Tid) :
    inside (w.setProducer p pc) i t ↔
      (t = some p ∧ Fills i (settle pc)) ∨ (t ≠ some p ∧ inside w i t) := by
  cases t with
  | none => simp [inside, front, Interleaving.World.setProducer]
  | some q =>
      by_cases mine : q = p
      · simp [inside, Interleaving.World.setProducer, mine]
      · simp [inside, Interleaving.World.setProducer, mine]

section Producer

variable {p : Tid} {a : PushArgs} {idx : UInt64}

theorem entered_congr {u : Interleaving.World cap Tid} {pc : ProducerPc}
    (same : ∀ i : Fin cap.val, Fills i pc ↔ Fills i (u.producer p)) (i : Fin cap.val)
    (t : Option Tid) : entered (u.setProducer p pc) i t ↔ entered u i t := by
  rw [entered_setProducer]
  by_cases mine : t = some p
  · subst mine
    simpa [entered] using same i
  · simp [mine]

theorem inside_congr {u : Interleaving.World cap Tid} {pc : ProducerPc}
    (same : ∀ i : Fin cap.val, Fills i (settle pc) ↔ Fills i (settle (u.producer p)))
    (i : Fin cap.val) (t : Option Tid) : inside (u.setProducer p pc) i t ↔ inside u i t := by
  rw [inside_setProducer]
  by_cases mine : t = some p
  · subst mine
    simpa [inside] using same i
  · simp [mine]

/-- A step of a producer that touches neither a flag nor the data of a slot. -/
theorem Handed.setProducer (inv : Handed w) {pc : ProducerPc}
    (outside : ∀ i : Fin cap.val, ¬ Fills i (w.plain.producer p))
    (outside' : ∀ i : Fin cap.val, ¬ Fills i pc)
    (sound : ProducerSound w.plain.ring.slots (settle pc)) :
    Handed { w with plain := w.plain.setProducer p pc } where
  guarded := by
    apply inv.guarded.congr
    · exact entered_congr (fun i => iff_of_false (outside' i) (outside i))
    · exact inside_congr (fun i =>
        iff_of_false (mt fills_of_settle (outside' i)) (mt fills_of_settle (outside i)))
  sound := by
    rw [calm_setProducer]
    exact inv.sound.setProducer (fun i fills => absurd (fills_of_settle fills) (outside' i)) sound
  ready := inv.ready

theorem Handed.claim (inv : Handed w) (pc : w.plain.producer p = .claim a) :
    Handed { w with plain := w.plain.produce p } := by
  have outside : ∀ i : Fin cap.val, ¬ Fills i (w.plain.producer p) := by
    rw [pc]
    exact fun _ fills => fills
  have fits := inv.pushes pc
  have counted : Handed { w with
      plain := { w.plain with
        ring := { w.plain.ring with writeIndex := w.plain.ring.writeIndex + 1 } } } :=
    ⟨inv.guarded, { inv.sound with }, inv.ready⟩
  simp only [Interleaving.World.produce, pc]
  exact counted.setProducer outside (fun _ fills => fills) fits

theorem Handed.drop (inv : Handed w) (pc : w.plain.producer p = .drop) :
    Handed { w with plain := w.plain.produce p } := by
  have outside : ∀ i : Fin cap.val, ¬ Fills i (w.plain.producer p) := by
    rw [pc]
    exact fun _ fills => fills
  have counted : Handed { w with
      plain := { w.plain with
        ring := { w.plain.ring with droppedCount := w.plain.ring.droppedCount + 1 } } } :=
    ⟨inv.guarded, { inv.sound with }, inv.ready⟩
  simp only [Interleaving.World.produce, pc]
  exact counted.setProducer outside (fun _ fills => fills) trivial

/-- The load of the flag. -/
theorem Handed.check (inv : Handed w) (pc : w.plain.producer p = .check a idx)
    {m : Message (Fin cap.val) (Option Tid) Bool} (mem : m ∈ w.memory.messages (cap.slot idx))
    (coherent : w.memory.view (some p) (.seen (cap.slot idx)) ≤ m.stamp) :
    Handed { w with
      plain := w.plain.setProducer p (if m.value then .drop else .store a idx .topicId)
      memory := w.memory.acquire (some p) m } where
  guarded := by
    have outside : ∀ i : Fin cap.val, ¬ Fills i (settle (w.plain.producer p)) := by
      rw [pc]
      exact fun _ fills => fills
    generalize next : (if m.value then ProducerPc.drop else .store a idx .topicId) = pc'
    have enters : ∀ i : Fin cap.val, Fills i pc' → m.value = false ∧ i = cap.slot idx := by
      intro i fills
      rw [← next] at fills
      split at fills
      · exact fills.elim
      · rename_i clear
        exact ⟨by simpa using clear, fills.symm⟩
    have waits : ∀ i : Fin cap.val, ¬ Fills i (settle pc') := by
      rw [← next]
      split <;> exact fun _ fills => fills
    have same := inside_congr (fun i => iff_of_false (waits i) (outside i))
    have found : Guarded Option.isNone (w.memory.acquire (some p) m) w.touched
        (entered (w.plain.setProducer p pc')) (inside w.plain) := by
      apply inv.guarded.find mem coherent outside
      · intro i t enters'
        rcases (entered_setProducer _ _ _ _ _).mp enters' with ⟨rfl, fills⟩ | other
        · obtain ⟨clear, here⟩ := enters i fills
          exact .inr ⟨rfl, here, clear⟩
        · exact .inl other
      · intro i t within
        exact inside_entered ((same i t).mpr within)
    exact found.congr (fun _ _ => Iff.rfl) same
  sound := by
    have fits := inv.pushes pc
    rw [calm_setProducer]
    apply inv.sound.setProducer
    · split <;> exact fun _ fills => fills.elim
    · split
      · trivial
      · exact fits
  ready := inv.ready

/-- A push that may begin to fill its slot, or goes on with it, is alone there. -/
theorem Handed.filling (inv : Handed w) {field : StoreAt}
    (pc : w.plain.producer p = .store a idx field)
    (clear : (w.plain.ring.slots (cap.slot idx)).ready = false)
    (free : ∀ q, q ≠ p → ¬ Fills (cap.slot idx) (settle (w.plain.producer q))) :
    Sound ((calm w.plain).setProducer p (.store a idx field)) := by
  have sound := inv.pushes pc
  apply inv.sound.setProducer
  · rintro i rfl q ne
    exact free q ne
  · cases field with
    | topicId => exact ⟨sound, clear, trivial⟩
    | _ => exact sound

/-- A store of a field or a payload byte, by a push that may. -/
theorem Handed.store (inv : Handed w) {field : StoreAt} (data : field ≠ .ready)
    (pc : w.plain.producer p = .store a idx field)
    (seen : (w.memory.latest (cap.slot idx)).stamp ≤
      w.memory.view (some p) (.seen (cap.slot idx)))
    (free : ∀ q, q ≠ p → ¬ Fills (cap.slot idx) (settle (w.plain.producer q))) :
    Handed { w with
      plain := w.plain.produce p
      touched := touch w.memory w.touched (some p) (cap.slot idx) } := by
  have clear := inv.clear_of_seen pc seen
  have moved := produce_store data pc
  have begun : settle (.store a idx (field.next a)) = .store a idx (field.next a) :=
    settle_of_begun (store_next_begun a field)
  rw [moved]
  refine ⟨?_, ?_, ?_⟩
  · have enters := (entered_iff_slot pc (cap.slot idx)).mpr rfl
    have stays := @entered_congr cap Tid _ p w.plain (.store a idx (field.next a)) (by
      intro i
      rw [pc]
      exact Iff.rfl)
    have goes : ∀ i t, inside (w.plain.setProducer p (.store a idx (field.next a))) i t ↔
        inside w.plain i t ∨ (t = some p ∧ i = cap.slot idx) := by
      intro i t
      rw [inside_setProducer, begun]
      by_cases mine : t = some p
      · subst mine
        have before : inside w.plain i (some p) → cap.slot idx = i :=
          fun within => (entered_iff_slot pc i).mp (inside_entered within)
        simp only [Fills, ne_eq, not_true_eq_false, false_and, or_false, true_and]
        exact ⟨fun here => .inr here.symm, fun h => h.elim before Eq.symm⟩
      · simp [mine]
    exact (inv.guarded.access enters seen (inv.free clear free) goes).congr stays
      (fun _ _ => Iff.rfl)
  · have filled := (inv.filling pc clear free).store (Function.update_self p _ _) data
    rw [calm_setProducer, begun]
    simpa only [calm, Interleaving.World.setProducer, Interleaving.World.setSlot,
      Function.update_idem] using filled
  · rw [← moved]
    exact inv.ready.store data pc

/-- The store of the flag. -/
theorem Handed.publish (inv : Handed w) (pc : w.plain.producer p = .store a idx .ready)
    {stamp : Nat} (later : w.memory.view (some p) (.seen (cap.slot idx)) < stamp) :
    Handed { w with
      plain := w.plain.produce p
      memory := w.memory.store (some p) (cap.slot idx) true stamp } := by
  have here : inside w.plain (cap.slot idx) (some p) := by
    rw [inside, pc]
    exact rfl
  have clear := inv.clear_of_seen pc (inv.guarded.holds _ _ here)
  have at_store : (calm w.plain).producer p = .store a idx .ready := by
    simp only [calm, pc, settle]
  refine ⟨?_, ?_, inv.ready.publish pc stamp⟩
  · rw [produce_publish pc]
    apply inv.guarded.store here
    · exact fun i within => ((entered_iff_slot pc i).mp (inside_entered within)).symm
    · exact later
    · exact (inv.ready _).symm.trans clear
    · intro i t enters
      exact ((entered_setProducer _ _ _ _ _).mp enters).resolve_left fun other => other.2
    · intro i t
      refine (inside_setProducer _ _ _ _ _).trans ?_
      exact or_iff_right fun other => other.2
    · exact fun _ _ => inside_entered
  · have published := inv.sound.publish at_store
    rw [produce_publish pc, calm_setProducer]
    exact published

end Producer

section Consumer

/-- The load of the flag. -/
theorem Handed.peek (inv : Handed w) {out : PoppedRecord} (pc : w.plain.consumer = .check out)
    {m : Message (Fin cap.val) (Option Tid) Bool}
    (mem : m ∈ w.memory.messages (front w.plain))
    (coherent : w.memory.view none (.seen (front w.plain)) ≤ m.stamp) :
    Handed { w with
      plain := { w.plain with consumer := if m.value then .load out .topicId else .idle }
      memory := w.memory.acquire none m } where
  guarded := by
    have outside : ∀ i, ¬ inside w.plain i none := by
      rintro i ⟨-, reads⟩
      rw [pc] at reads
      exact reads
    generalize next : (if m.value then ConsumerPc.load out .topicId else .idle) = pc'
    have sets : Drains pc' → m.value = true := by
      intro drains
      by_contra clear
      rw [← next, if_neg clear] at drains
      exact drains
    have waits : ¬ Reads pc' := by
      rw [← next]
      split
      · exact fun reads => reads rfl
      · exact fun reads => reads
    have same : ∀ i t, inside { w.plain with consumer := pc' } i t ↔ inside w.plain i t := by
      intro i t
      cases t with
      | none => exact iff_of_false (fun h => waits h.2) (outside i)
      | some p => exact Iff.rfl
    have found : Guarded Option.isNone (w.memory.acquire none m) w.touched
        (entered { w.plain with consumer := pc' }) (inside w.plain) := by
      apply inv.guarded.find mem coherent outside
      · intro i t enters
        cases t with
        | none => exact .inr ⟨rfl, enters.1.symm, sets enters.2⟩
        | some p => exact .inl ⟨Option.some_ne_none p, enters⟩
      · intro i t within
        exact inside_entered ((same i t).mpr within)
    exact found.congr (fun _ _ => Iff.rfl) same
  sound := by
    refine { inv.sound with consumer := ?_ }
    change Interleaving.ConsumerSound (w.plain.ring.slots (front w.plain)) (ite _ _ _)
    split
    · rename_i set
      obtain rfl := inv.latest_of_set mem set coherent
      exact ⟨(inv.ready _).trans set, trivial⟩
    · trivial
  ready := inv.ready

/-- A load of the data of a slot. -/
theorem Handed.load (inv : Handed w) {out : PoppedRecord} {field : Interleaving.LoadAt}
    (data : field ≠ .ready) (pc : w.plain.consumer = .load out field) :
    (w.memory.latest (front w.plain)).stamp ≤ w.memory.view none (.seen (front w.plain)) ∧
      (∀ t, t ≠ none → ¬ inside w.plain (front w.plain) t) ∧
      Handed { w with
        plain := w.plain.consume
        touched := touch w.memory w.touched none (front w.plain) } := by
  have drains := drains_of_load pc
  have enters : entered w.plain (front w.plain) none := ⟨rfl, drains⟩
  have seen : (w.memory.latest (front w.plain)).stamp ≤
      w.memory.view none (.seen (front w.plain)) := by
    obtain ⟨m, found, set⟩ := inv.guarded.found _ _ enters
    rw [← inv.latest_of_set found.mem set found.stamp.ge]
    exact found.stamp.le
  have free : ∀ t, t ≠ none → ¬ inside w.plain (front w.plain) t := by
    intro t ne within
    obtain ⟨p, rfl⟩ := Option.ne_none_iff_exists'.mp ne
    exact inv.sound.exclusive.consumer p within drains
  have moved := consume_load data pc
  refine ⟨seen, free, ?_, ?_, ?_⟩
  · have stays : ∀ i t, entered w.plain.consume i t ↔ entered w.plain i t := by
      intro i t
      rw [moved]
      cases t with
      | none =>
          rw [entered, entered, pc]
          exact Iff.rfl
      | some p => exact Iff.rfl
    have goes : ∀ i t, inside w.plain.consume i t ↔
        inside w.plain i t ∨ (t = none ∧ i = front w.plain) := by
      intro i t
      rw [moved]
      cases t with
      | none =>
          constructor
          · exact fun within => .inr ⟨rfl, within.1.symm⟩
          · intro either
            have here : front w.plain = i := either.elim And.left fun both => both.2.symm
            exact ⟨here, load_next_begun _ _⟩
      | some p => simp [inside]
    exact (inv.guarded.access enters seen free goes).congr stays (fun _ _ => Iff.rfl)
  · rw [calm_consume]
    exact inv.sound.consume
  · intro i
    rw [moved]
    exact inv.ready i

/-- The store that gives the slot back. -/
theorem Handed.giveBack (inv : Handed w) {out : PoppedRecord}
    (pc : w.plain.consumer = .load out .ready) {stamp : Nat}
    (later : w.memory.view none (.seen (front w.plain)) < stamp) :
    Handed { w with
      plain := w.plain.consume
      memory := w.memory.store none (front w.plain) false stamp } := by
  have drains := drains_of_load pc
  have here : inside w.plain (front w.plain) none := by
    rw [inside, pc]
    exact ⟨rfl, by simp [Reads]⟩
  refine ⟨?_, ?_, inv.ready.giveBack pc stamp⟩
  · rw [consume_giveBack pc]
    apply inv.guarded.store here
    · exact fun i within => within.1.symm
    · exact later
    · exact (inv.ready _).symm.trans (inv.busy drains)
    · intro i t enters
      cases t with
      | none => exact enters.2.elim
      | some p => exact ⟨Option.some_ne_none p, enters⟩
    · intro i t
      cases t with
      | none => exact iff_of_false (fun within => within.2) (fun both => both.1 rfl)
      | some p => exact (and_iff_right (Option.some_ne_none p)).symm
    · exact fun _ _ => inside_entered
  · rw [calm_consume]
    exact inv.sound.consume

end Consumer

/-! Every step that is enabled, and not the start of a race. -/

theorem Handed.call (inv : Handed w) {p : Tid} (a : PushArgs)
    (idle : w.plain.producer p = .idle) :
    Handed { w with plain := (Interleaving.World.machine cap Tid).next w.plain (.call p a) } := by
  change Handed { w with
    plain := if a.len.toNat > kMaxPayloadBytes then w.plain else w.plain.setProducer p (.claim a) }
  split
  · exact inv
  · rename_i fits
    apply inv.setProducer
    · rw [idle]
      exact fun _ fills => fills
    · exact fun _ fills => fills
    · exact Nat.le_of_not_lt fits

/-! The kinds of steps. -/

section Kinds

variable {action : Action Tid} {t : Option Tid} {i : Fin cap.val}

theorem next_quiet (op : w.op action = none) (access : w.access action = none) :
    (machine cap Tid).next w action =
      { w with plain := (Interleaving.World.machine cap Tid).next w.plain action.plain } := by
  simp only [machine, op, access, Option.elim_none]

theorem next_access (op : w.op action = none) (access : w.access action = some (t, i)) :
    (machine cap Tid).next w action =
      { w with
        plain := (Interleaving.World.machine cap Tid).next w.plain action.plain
        touched := touch w.memory w.touched t i } := by
  simp only [machine, op, access, Option.elim_none, Option.elim_some]

theorem next_store {set : Bool} {stamp : Nat} (op : w.op action = some (.store t i set stamp))
    (access : w.access action = none) :
    (machine cap Tid).next w action =
      { w with
        plain := (Interleaving.World.machine cap Tid).next w.plain action.plain
        memory := w.memory.store t i set stamp } := by
  simp only [machine, op, access, Option.elim_none, Option.elim_some, Memory.next]

theorem next_load {n : Nat} {m : Message (Fin cap.val) (Option Tid) Bool}
    (op : w.op action = some (.load t i n)) (access : w.access action = none)
    (found : (w.memory.messages i)[n]? = some m) :
    (machine cap Tid).next w action =
      { w with
        plain := look w.plain m.value t
        memory := w.memory.acquire t m } := by
  simp only [machine, op, access, Option.elim_none, Option.elim_some, Memory.next, World.flag,
    found, Option.map_some, Option.getD_some]

end Kinds

section Step

variable {p : Tid} {a : PushArgs} {idx : UInt64} {out : PoppedRecord} {place : Nat}

theorem Handed.produce (inv : Handed w)
    (enabled : (machine cap Tid).Enabled w (.produce p place))
    (fresh : Fresh w (.produce p place)) :
    Handed ((machine cap Tid).next w (.produce p place)) := by
  obtain ⟨busy, coherent⟩ := enabled
  cases pc : w.plain.producer p with
  | idle => exact absurd pc busy
  | claim a =>
      rw [next_quiet (by simp only [World.op, pc]) (by simp only [World.access, pc])]
      exact inv.claim pc
  | check a idx =>
      obtain ⟨m, found, le⟩ := coherent _ (op_check pc place)
      rw [next_load (op_check pc place) (by simp only [World.access, pc]) found, look, pc]
      exact inv.check pc (List.mem_of_getElem? found) le
  | drop =>
      rw [next_quiet (by simp only [World.op, pc]) (by simp only [World.access, pc])]
      exact inv.drop pc
  | store a idx field =>
      by_cases last : field = .ready
      · subst last
        rw [next_store (op_publish pc place) (by simp only [World.access, pc])]
        exact inv.publish pc (coherent _ (op_publish pc place)).1
      · obtain ⟨op, access⟩ := op_store last pc place
        rw [next_access op access]
        by_cases first : field = .topicId
        · subst first
          obtain ⟨seen, free⟩ := fresh a idx pc
          exact inv.store last pc seen free
        · obtain ⟨seen, free⟩ := inv.alone pc first
          exact inv.store last pc seen
            fun q ne => free (some q) fun same => ne (Option.some.inj same)

theorem Handed.consume (inv : Handed w) (enabled : (machine cap Tid).Enabled w (.consume place)) :
    Handed ((machine cap Tid).next w (.consume place)) := by
  obtain ⟨busy, coherent⟩ := enabled
  cases pc : w.plain.consumer with
  | idle => exact absurd pc busy
  | check out =>
      have op : w.op (.consume place) = some (.load none (front w.plain) place) := by
        simp only [World.op, pc]
      obtain ⟨m, found, le⟩ := coherent _ op
      rw [next_load op (by simp only [World.access, pc]) found, look, pc]
      exact inv.peek pc (List.mem_of_getElem? found) le
  | load out field =>
      by_cases last : field = .ready
      · subst last
        have op : w.op (.consume place) = some (.store none (front w.plain) false place) := by
          simp only [World.op, pc]
        rw [next_store op (by simp only [World.access, pc])]
        exact inv.giveBack pc (coherent _ op).1
      · obtain ⟨op, access⟩ := op_load last pc place
        rw [next_access op access]
        exact (inv.load last pc).2.2
  | advance =>
      rw [next_quiet (by simp only [World.op, pc]) (by simp only [World.access, pc])]
      have moved : w.plain.consume = { w.plain with
          ring := { w.plain.ring with readIndex := w.plain.ring.readIndex + 1 }
          consumer := .idle } := by
        simp only [Interleaving.World.consume, pc]
      apply inv.setConsumer
      · exact Interleaving.consume_producer w.plain
      · rw [pc]
        exact id
      · change ¬ Drains w.plain.consume.consumer
        rw [moved]
        exact id
      · change w.plain.consume.ring.slots = _
        rw [moved]
      · change Sound (calm w.plain.consume)
        rw [calm_consume]
        exact inv.sound.consume

theorem Handed.next (inv : Handed w) {action : Action Tid}
    (enabled : (machine cap Tid).Enabled w action) (fresh : Fresh w action) :
    Handed ((machine cap Tid).next w action) := by
  cases action with
  | call p a =>
      rw [next_quiet rfl rfl]
      exact inv.call a enabled.1
  | produce p place => exact inv.produce enabled fresh
  | request out =>
      rw [next_quiet rfl rfl]
      exact inv.request out enabled.1
  | consume place => exact inv.consume enabled

/-- A step is free of races exactly if it is no push that begins to fill a slot without having seen
the last store to its flag, or beside another push. -/
theorem Handed.ordered_iff_fresh (inv : Handed w) (action : Action Tid) :
    Ordered w action ↔ Fresh w action := by
  cases action with
  | call p a => exact iff_of_true (ordered_of_no_access rfl) trivial
  | request out => exact iff_of_true (ordered_of_no_access rfl) trivial
  | produce p place =>
      cases pc : w.plain.producer p with
      | store a idx field =>
          by_cases last : field = .ready
          · subst last
            exact iff_of_true (ordered_of_no_access (by simp only [World.access, pc]))
              (fresh_of_begun pc (by simp))
          · rw [ordered_of_access (op_store last pc place).2]
            by_cases first : field = .topicId
            · subst first
              exact inv.begins_iff pc
            · obtain ⟨seen, free⟩ := inv.alone pc first
              have enters := (entered_iff_slot pc (cap.slot idx)).mpr rfl
              exact iff_of_true ((inv.guarded.ordered_iff enters).mpr ⟨seen, free⟩)
                (fresh_of_begun pc first)
      | _ =>
          refine iff_of_true (ordered_of_no_access (by simp only [World.access, pc])) ?_
          intro a idx pc'
          rw [pc] at pc'
          contradiction
  | consume place =>
      refine iff_of_true ?_ trivial
      cases pc : w.plain.consumer with
      | load out field =>
          by_cases last : field = .ready
          · subst last
            exact ordered_of_no_access (by simp only [World.access, pc])
          · rw [ordered_of_access (op_load last pc place).2]
            obtain ⟨seen, free, -⟩ := inv.load last pc
            have enters : entered w.plain (front w.plain) none := ⟨rfl, drains_of_load pc⟩
            exact (inv.guarded.ordered_iff enters).mpr ⟨seen, free⟩
      | _ => exact ordered_of_no_access (by simp only [World.access, pc])

end Step

end ChronoCap.Ring.WeakMemory

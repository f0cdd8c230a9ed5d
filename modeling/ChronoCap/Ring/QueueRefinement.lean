/- module: ChronoCap/Ring/QueueRefinement
   source: include/chrono_cap/mpsc_ring_buffer.hpp
   digest: The ring's loads and stores refine a queue: a push takes effect once it and all that
           claimed their index before it have stored their flags. -/

import ChronoCap.Foundation.Dispatch
import ChronoCap.Foundation.Fifo
import ChronoCap.Ring.ClaimOrder
import Mathlib.Data.Nat.Find

set_option autoImplicit false
set_option relaxedAutoImplicit false

namespace ChronoCap.Ring.Interleaving

open ChronoCap.Foundation
open ChronoCap.WireFormat

variable {cap : Capacity} {Tid : Type} [DecidableEq Tid]

/-! The queue in a ring. -/

/-- The slot of the claim that is `j` behind the first one not popped. -/
def World.front (w : World cap Tid) (j : Nat) : Slot :=
  w.ring.slots (slotOf cap (w.popped.length + j))

/-- How many slots are ready in one stretch from there. -/
def World.stretch (w : World cap Tid) : Nat :=
  Nat.findGreatest (fun s => ∀ j < s, (w.front j).ready = true) cap.val

/-- How many claims have taken effect. -/
def World.visible (w : World cap Tid) : Nat := w.popped.length + w.stretch

def World.contents (w : World cap Tid) : List Record :=
  (List.range w.stretch).map (fun j => (w.front j).record)

/-- What TryPop answers: nothing, or the record it has loaded. -/
def answerOf (w : World cap Tid) : Action Tid → List (Option Record)
  | .consume =>
      match w.consumer with
      | .check _ => if (w.ring.slots (cap.slot w.ring.readIndex)).ready then [] else [none]
      | .load out .ready => [some out.record]
      | _ => []
  | _ => []

variable {w v : World cap Tid} {log : List (Tid × PushArgs)} {number : Tid → Nat}

section Stretch

omit [DecidableEq Tid]

theorem stretch_le (w : World cap Tid) : w.stretch ≤ cap.val := Nat.findGreatest_le _

theorem ready_of_lt_stretch {j : Nat} (hj : j < w.stretch) : (w.front j).ready = true := by
  have none : ∀ j < 0, (w.front j).ready = true := fun j h => absurd h (Nat.not_lt_zero j)
  exact Nat.findGreatest_spec (P := fun s => ∀ j < s, (w.front j).ready = true) (Nat.zero_le _)
    none j hj

theorem le_stretch {s : Nat} (le : s ≤ cap.val) (ready : ∀ j < s, (w.front j).ready = true) :
    s ≤ w.stretch := Nat.le_findGreatest le ready

theorem not_ready_stretch (short : w.stretch < cap.val) : (w.front w.stretch).ready = false := by
  by_contra set
  have longer : w.stretch + 1 ≤ w.stretch := by
    apply le_stretch short
    intro j hj
    rcases Nat.lt_succ_iff_lt_or_eq.mp hj with before | rfl
    · exact ready_of_lt_stretch before
    · exact eq_true_of_ne_false set
  omega

/-- It ends where a slot is not ready. -/
theorem stretch_eq {s : Nat} (le : s ≤ cap.val) (ready : ∀ j < s, (w.front j).ready = true)
    (ends : s = cap.val ∨ (w.front s).ready = false) : w.stretch = s := by
  apply Nat.le_antisymm _ (le_stretch le ready)
  rcases ends with rfl | clear
  · exact stretch_le w
  · by_contra more
    have set := ready_of_lt_stretch (Nat.lt_of_not_le more)
    exact Bool.false_ne_true (clear.symm.trans set)

theorem contents_frame (popped : v.popped = w.popped) (slots : v.ring.slots = w.ring.slots) :
    v.contents = w.contents := by
  have front : v.front = w.front := by
    funext j
    rw [World.front, popped, slots, World.front]
  rw [World.contents, World.stretch, front]
  rfl

/-- If ready slots stay as they are, the queue only grows. -/
theorem contents_grow (popped : v.popped = w.popped)
    (kept : ∀ i, (w.ring.slots i).ready = true → v.ring.slots i = w.ring.slots i) :
    ∃ more, v.contents = w.contents ++ more := by
  have same : ∀ j, (w.front j).ready = true → v.front j = w.front j := by
    intro j ready
    rw [World.front, popped]
    exact kept _ ready
  have longer : w.stretch ≤ v.stretch := by
    apply le_stretch (stretch_le w)
    intro j hj
    rw [same j (ready_of_lt_stretch hj)]
    exact ready_of_lt_stretch hj
  obtain ⟨d, more⟩ := Nat.exists_eq_add_of_le longer
  refine ⟨((List.range d).map (w.stretch + ·)).map (fun j => (v.front j).record), ?_⟩
  rw [World.contents, more, List.range_add, List.map_append, World.contents]
  congr 1
  apply List.map_congr_left
  intro j hj
  rw [same j (ready_of_lt_stretch (List.mem_range.mp hj))]

end Stretch

/-! The simulation. -/

/-- A producer stores into slots that are not ready. -/
theorem kept_produce (sound : Sound w) (p : Tid) {i : Fin cap.val}
    (ready : (w.ring.slots i).ready = true) : (w.produce p).ring.slots i = w.ring.slots i := by
  cases pc : w.producer p with
  | store a idx field =>
      have filled := sound.producers p
      rw [pc] at filled
      obtain ⟨-, clear, -⟩ := filled
      have other : i ≠ cap.slot idx := by
        rintro rfl
        exact Bool.false_ne_true (clear.symm.trans ready)
      cases field with
      | _ =>
          simp only [World.produce, pc, World.setProducer, World.setSlot,
            Function.update_of_ne other]
  | check a idx =>
      simp only [World.produce, pc]
      split <;> rfl
  | _ => simp only [World.produce, pc, World.setProducer]

omit [DecidableEq Tid] in
/-- A record that is loaded is that of its slot. -/
theorem record_of_loaded {s : Slot} {out : PoppedRecord} (loaded : Loaded s out .ready) :
    out.record = s.record := by
  obtain ⟨header, bytes⟩ := loaded
  have payload : out.payload.toList.take s.payloadLen.toNat =
      s.payload.toList.take s.payloadLen.toNat := by
    apply List.ext_getElem?
    intro j
    rw [List.getElem?_take, List.getElem?_take]
    split
    · rename_i hj
      rw [Vector.getElem?_toList, Vector.getElem?_toList]
      exact bytes j hj
    · rfl
  rw [PoppedRecord.record, Slot.record, header.topicId, header.stampNs, header.seq,
    header.payloadLen, payload]

omit [DecidableEq Tid] in
/-- The store that gives the slot back takes the head. -/
theorem contents_giveBack (sound : Sound w) {out : PoppedRecord}
    (pc : w.consumer = .load out .ready)
    (read : w.ring.readIndex = UInt64.ofNat w.popped.length) :
    w.contents = out.record :: w.consume.contents := by
  have loaded := sound.consumer
  rw [pc, read] at loaded
  obtain ⟨ready, loaded⟩ := loaded
  have slots : w.consume.ring.slots = Function.update w.ring.slots (slotOf cap w.popped.length)
      { w.ring.slots (slotOf cap w.popped.length) with ready := false } := by
    simp only [World.consume, pc, World.setSlot, slotOf, read]
  have length : w.consume.popped.length = w.popped.length + 1 := by
    simp only [World.consume, pc, List.length_append, List.length_singleton]
  have pos := cap.pos
  have shift : ∀ j, j + 1 < cap.val → w.consume.front j = w.front (j + 1) := by
    intro j hj
    have other : slotOf cap (w.popped.length + (j + 1)) ≠ slotOf cap w.popped.length := by
      intro same
      have both := slotOf_inj (Nat.le_add_right _ _) (by omega) (Nat.le_refl _) (by omega) same
      omega
    rw [World.front, length, slots, Nat.add_assoc, Nat.add_comm 1 j, Function.update_of_ne other]
    rfl
  have first : 0 < w.stretch := by
    apply le_stretch pos
    intro j hj
    obtain rfl := Nat.lt_one_iff.mp hj
    exact ready
  have bound := stretch_le w
  have rest : w.consume.stretch = w.stretch - 1 := by
    apply stretch_eq (by omega)
    · intro j hj
      rw [shift j (by omega)]
      exact ready_of_lt_stretch (by omega)
    · right
      by_cases all : w.stretch = cap.val
      · -- behind a full ring comes the slot that was given back
        have lap : w.consume.popped.length + (w.stretch - 1) = w.popped.length + cap.val := by
          omega
        rw [World.front, lap, slotOf_add_cap, slots, Function.update_self]
      · have short : w.stretch < cap.val := by omega
        have clear := not_ready_stretch short
        rw [shift _ (by omega), Nat.sub_add_cancel first]
        exact clear
  have head : (w.front 0).record = out.record := (record_of_loaded loaded).symm
  obtain ⟨n, count⟩ := Nat.exists_eq_succ_of_ne_zero first.ne'
  rw [World.contents, World.contents, rest, count, Nat.succ_sub_one, List.range_succ_eq_map,
    List.map_cons, head, List.map_map]
  congr 1
  apply List.map_congr_left
  intro j hj
  have small := List.mem_range.mp hj
  change (w.front (j + 1)).record = _
  rw [shift j (by omega)]

omit [DecidableEq Tid] in
theorem simulates_consume (sound : Sound w) (busy : w.consumer ≠ .idle)
    (read : w.ring.readIndex + UInt64.ofNat w.consumer.ahead = UInt64.ofNat w.popped.length) :
    ∃ ops, (Fifo.machine Record).Run Machine.Free w.contents ops w.consume.contents ∧
      ops.flatMap Fifo.Op.answer = answerOf w (.consume : Action Tid) := by
  have still : w.consume.popped = w.popped → w.consume.ring.slots = w.ring.slots →
      (Fifo.machine Record).Run Machine.Free w.contents [] w.consume.contents := by
    intro popped slots
    rw [contents_frame popped slots]
    exact .nil
  cases pc : w.consumer with
  | idle => exact absurd pc busy
  | advance =>
      refine ⟨[], still ?_ ?_, ?_⟩
      · simp only [World.consume, pc]
      · simp only [World.consume, pc]
      · simp only [answerOf, pc, List.flatMap_nil]
  | check out =>
      have read : w.ring.readIndex = UInt64.ofNat w.popped.length := by
        rw [← read, pc]
        exact (UInt64.add_zero _).symm
      by_cases set : (w.ring.slots (cap.slot w.ring.readIndex)).ready = true
      · refine ⟨[], still ?_ ?_, ?_⟩
        · simp only [World.consume, pc, set, if_true]
        · simp only [World.consume, pc, set, if_true]
        · simp only [answerOf, pc, set, if_true, List.flatMap_nil]
      · have clear : (w.front 0).ready = false := by
          rw [read] at set
          simpa [World.front, slotOf] using set
        have none : w.contents = [] := by
          rw [World.contents, stretch_eq (Nat.zero_le _) (fun j h => absurd h (Nat.not_lt_zero j))
            (.inr clear)]
          rfl
        have same : w.consume.contents = w.contents := by
          apply contents_frame
          · simp only [World.consume, pc, if_neg set]
          · simp only [World.consume, pc, if_neg set]
        refine ⟨[.empty], ?_, ?_⟩
        · rw [same]
          exact Machine.Run.single (a := Fifo.Op.empty) none trivial
        · simp only [answerOf, pc, if_neg set]
          rfl
  | load out field =>
      have read : w.ring.readIndex = UInt64.ofNat w.popped.length := by
        rw [← read, pc]
        exact (UInt64.add_zero _).symm
      by_cases last : field = .ready
      · subst last
        have head := contents_giveBack sound pc read
        refine ⟨[.dequeue out.record], ?_, ?_⟩
        · rw [head]
          exact Machine.Run.single (a := Fifo.Op.dequeue out.record) rfl trivial
        · simp only [answerOf, pc]
          rfl
      · refine ⟨[], still ?_ ?_, ?_⟩
        · cases field with
          | ready => exact absurd rfl last
          | _ => simp only [World.consume, pc]
        · cases field with
          | ready => exact absurd rfl last
          | _ => simp only [World.consume, pc]
        · cases field with
          | ready => exact absurd rfl last
          | _ => simp only [answerOf, pc, List.flatMap_nil]

theorem simulates_next (sound : Sound w) {action : Action Tid}
    (enabled : (World.machine cap Tid).Enabled w action)
    (read : w.ring.readIndex + UInt64.ofNat w.consumer.ahead = UInt64.ofNat w.popped.length) :
    ∃ ops, (Fifo.machine Record).Run Machine.Free w.contents ops
        ((World.machine cap Tid).next w action).contents ∧
      ops.flatMap Fifo.Op.answer = answerOf w action := by
  cases action with
  | call p a =>
      have same : ((World.machine cap Tid).next w (.call p a)).contents = w.contents := by
        simp only [World.machine]
        split
        · rfl
        · exact contents_frame rfl rfl
      rw [same]
      exact ⟨[], .nil, rfl⟩
  | request out =>
      have same : ((World.machine cap Tid).next w (.request out)).contents = w.contents :=
        contents_frame rfl rfl
      rw [same]
      exact ⟨[], .nil, rfl⟩
  | produce p =>
      obtain ⟨more, grown⟩ := contents_grow (popped_produce p)
        (fun i ready => kept_produce sound p ready)
      refine ⟨more.map .enqueue, ?_, Fifo.answer_enqueue more⟩
      change (Fifo.machine Record).Run Machine.Free w.contents _ (w.produce p).contents
      rw [grown]
      exact Fifo.run_enqueue w.contents more
  | consume => exact simulates_consume sound enabled read

/-! What is in the queue. -/

omit [DecidableEq Tid] in
theorem record_of_stored {s : Slot} {a : PushArgs} (stored : Stored s a .ready) :
    s.record = a.record := by
  obtain ⟨header, bytes⟩ := stored
  have payload : s.payload.toList.take a.len.toNat = a.data.take a.len.toNat := by
    apply List.ext_getElem?
    intro j
    rw [List.getElem?_take, List.getElem?_take]
    split
    · rename_i hj
      rw [Vector.getElem?_toList]
      exact bytes j hj
    · rfl
  rw [Slot.record, PushArgs.record, header.topicId, header.stampNs, header.seq, header.payloadLen,
    payload]

omit [DecidableEq Tid] in
theorem Queue.shelved_of_ready (queue : Queue log number w) {j : Nat} (hj : j < cap.val)
    (ready : (w.front j).ready = true) : Shelved log w (w.popped.length + j) := by
  obtain ⟨n, slot, held, -⟩ := queue.shelved _ ready
  obtain ⟨low, high⟩ := held.window
  obtain rfl := slotOf_inj low high (Nat.le_add_right _ _) (by omega) slot
  exact held

omit [DecidableEq Tid] in
theorem Queue.visible_le (queue : Queue log number w) : w.visible ≤ log.length := by
  unfold World.visible
  rcases Nat.eq_zero_or_pos w.stretch with none | some
  · rw [none]
    exact queue.popped_le
  · have bound := stretch_le w
    have last := queue.shelved_of_ready (j := w.stretch - 1) (by omega)
      (ready_of_lt_stretch (by omega))
    obtain ⟨c, found, -⟩ := last.holds
    obtain ⟨less, -⟩ := List.getElem?_eq_some_iff.mp found
    omega

omit [DecidableEq Tid] in
/-- The queue holds the next claims, in order. -/
theorem Queue.contents (queue : Queue log number w) :
    w.contents = ((log.drop w.popped.length).take w.stretch).map (fun c => c.2.record) := by
  have bound := stretch_le w
  apply List.ext_getElem?
  intro j
  rw [List.getElem?_map, List.getElem?_take, List.getElem?_drop, World.contents,
    List.getElem?_map]
  split
  · rename_i hj
    rw [List.getElem?_range hj]
    have held := queue.shelved_of_ready (hj.trans_le bound) (ready_of_lt_stretch hj)
    obtain ⟨c, found, -, stored⟩ := held.holds
    rw [found]
    exact congrArg some (record_of_stored stored)
  · rename_i past
    have none : (List.range w.stretch)[j]? = none := by
      apply List.getElem?_eq_none
      rw [List.length_range]
      exact Nat.le_of_not_lt past
    rw [none]
    rfl

omit [DecidableEq Tid] in
/-- The first claim that has not taken effect is in flight. -/
theorem Queue.next_in_flight (queue : Queue log number w) (more : w.visible < log.length) :
    ∃ p a, (w.producer p).flight = some (a, UInt64.ofNat w.visible) := by
  rcases queue.covered _ (Nat.le_add_right _ _) more with ⟨p, inFlight, same⟩ | held
  · obtain ⟨⟨a, idx⟩, flight⟩ := Option.ne_none_iff_exists'.mp inFlight
    obtain ⟨rfl, -, -⟩ := queue.flying p a idx flight
    rw [same] at flight
    exact ⟨p, a, flight⟩
  · have short : w.stretch < cap.val := by
      have window := held.window.2
      omega
    exact absurd ((not_ready_stretch short).symm.trans held.ready) Bool.false_ne_true

theorem record_of_agrees {out : PoppedRecord} {a : PushArgs} (agrees : Ledger.Agrees out a) :
    out.record = a.record := by
  rw [PoppedRecord.record, PushArgs.record, agrees.topicId, agrees.stampNs, agrees.seq,
    agrees.payload, agrees.payloadLen]

omit [DecidableEq Tid] in
theorem Queue.popped_records (queue : Queue log number w) :
    w.popped.map (fun x => x.2.record) =
      (log.take w.popped.length).map (fun c => c.2.record) := by
  rw [Dispatch.map_eq_map_iff_forall₂]
  exact queue.popped.imp (fun _ _ agrees => record_of_agrees agrees)

omit [DecidableEq Tid] in
/-- Popped and still in the queue: together the claims that have taken effect. -/
theorem Queue.visible_records (queue : Queue log number w) :
    w.popped.map (fun x => x.2.record) ++ w.contents =
      (log.take w.visible).map (fun c => c.2.record) := by
  rw [queue.popped_records, queue.contents, ← List.map_append, World.visible, List.take_add]

/-- The answers with a record are the pops. -/
theorem answers_popped {allowed : World cap Tid → Action Tid → Prop} {later : List (Action Tid)}
    (run : (World.machine cap Tid).Run allowed w later v) :
    w.popped.map (fun x => x.2.record) ++
        ((World.machine cap Tid).log answerOf w later).reduceOption =
      v.popped.map (fun x => x.2.record) := by
  induction run with
  | nil => simp [Machine.log]
  | @snoc later v action prior enabled _ ih =>
      rw [prior.log_snoc, List.reduceOption_append, ← List.append_assoc, ih]
      cases action with
      | call p a =>
          simp only [World.machine, answerOf, List.reduceOption_nil, List.append_nil]
          split <;> rfl
      | request out => simp only [World.machine, answerOf, List.reduceOption_nil, List.append_nil]
      | produce p =>
          simp only [World.machine, answerOf, List.reduceOption_nil, List.append_nil,
            popped_produce]
      | consume =>
          cases pc : v.consumer with
          | idle => exact absurd pc enabled
          | check out =>
              simp only [World.machine, World.consume, answerOf, pc]
              split <;> simp [List.reduceOption]
          | load out field =>
              cases field with
              | _ => simp [World.machine, World.consume, answerOf, pc, List.reduceOption]
          | advance => simp [World.machine, World.consume, answerOf, pc, List.reduceOption]

/-- The queue of a world that is reached without a push lapped or refused. -/
structure Queued (w : World cap Tid) (q : List Record) : Prop where
  contents : q = w.contents
  reached : ∃ actions, (World.machine cap Tid).Run Orderly World.init actions w

theorem Queued.next {q : List Record} (queued : Queued w q) {action : Action Tid}
    (enabled : (World.machine cap Tid).Enabled w action) (orderly : Orderly w action) :
    ∃ ops q', (Fifo.machine Record).Run Machine.Free q ops q' ∧
      ops.flatMap Fifo.Op.answer = answerOf w action ∧
      Queued ((World.machine cap Tid).next w action) q' := by
  obtain ⟨rfl, actions, reached⟩ := queued
  have unlapped := reached.weaken (fun _ _ _ orderly => orderly.1)
  obtain ⟨ops, steps, answers⟩ := simulates_next (sound_of_run (unshared_of_unlapped unlapped))
    enabled (cursors_of_run reached).readIndex
  exact ⟨ops, _, steps, answers, rfl, _, reached.snoc enabled orderly⟩

/-- Over any part of any run in which no push is lapped or refused, TryPop answers like a queue
which the records enter in the order of their claims: as soon as neither their own push nor one
that claimed its index before is in flight. -/
theorem refines_queue (cap : Capacity) (before later : List (Action Tid)) (w v : World cap Tid)
    (reached : (World.machine cap Tid).Run Orderly World.init before w)
    (run : (World.machine cap Tid).Run Orderly w later v) :
    (∃ ops, (Fifo.machine Record).Run Machine.Free w.contents ops v.contents ∧
      ops.flatMap Fifo.Op.answer = (World.machine cap Tid).log answerOf w later ∧
      ((claims cap before).take w.visible).map (fun c => c.2.record) ++
          ops.flatMap Fifo.Op.entered =
        ((claims cap (before ++ later)).take v.visible).map (fun c => c.2.record)) ∧
    (v.visible = (claims cap (before ++ later)).length ∨
      ∃ p a, (v.producer p).flight = some (a, UInt64.ofNat v.visible)) := by
  obtain ⟨number, queue⟩ := queue_of_run reached
  obtain ⟨number', queue'⟩ := queue_of_run (reached.trans run)
  refine ⟨?_, ?_⟩
  · obtain ⟨ops, q, steps, answers, rfl, -⟩ := run.simulate answerOf Fifo.Op.answer
      (fun _ _ _ queued enabled orderly => Queued.next queued enabled orderly)
      ⟨rfl, before, reached⟩
    refine ⟨ops, steps, answers, ?_⟩
    have through := Fifo.run_contents steps
    rw [answers] at through
    rw [← queue.visible_records, ← queue'.visible_records, List.append_assoc, through,
      ← List.append_assoc, answers_popped run]
  · rcases queue'.visible_le.eq_or_lt with all | more
    · exact .inl all
    · exact .inr (queue'.next_in_flight more)

/-- The push that claims its index first stores its flag last, and the queue is asked twice. -/
theorem refines_queue_overtaken :
    ∃ ops, (Fifo.machine Record).Run Machine.Free [] ops [] ∧
      (ops.flatMap Fifo.Op.answer).map (Option.map Record.stampNs) = [some 1, some 2] := by
  have roomy : (World.machine pair Bool).Run Roomy World.init overtaken _ :=
    Machine.run_of_fires (by decide)
  obtain ⟨⟨ops, steps, answers, -⟩, -⟩ := refines_queue pair [] overtaken World.init _ .nil
    (orderly_of_roomy roomy).1
  have first : (World.init : World pair Bool).contents = [] := by decide
  have last : (overtaken.foldl (World.machine pair Bool).next World.init).contents = [] := by
    decide
  rw [first, last] at steps
  refine ⟨ops, steps, ?_⟩
  rw [answers]
  decide

/-! A push that stalls. -/

omit [DecidableEq Tid] in
/-- Claims two laps ahead of the pops would share their slot with others in flight. -/
theorem Queue.log_le (queue : Queue log number w) (apart : Apart (@Claims cap) w.producer) :
    log.length ≤ w.popped.length + 2 * cap.val := by
  by_contra far
  have pos := cap.pos
  have flying : ∀ n, w.popped.length + cap.val ≤ n → n < log.length →
      ∃ p, (w.producer p).flight ≠ none ∧ number p = n := by
    intro n low high
    rcases queue.covered n (by omega) high with inFlight | held
    · exact inFlight
    · have window := held.window.2
      omega
  obtain ⟨p, inFlight, near⟩ := flying (w.popped.length + cap.val) (Nat.le_refl _) (by omega)
  obtain ⟨q, inFlight', lap⟩ := flying (w.popped.length + cap.val + cap.val) (by omega) (by omega)
  have other : p ≠ q := by
    rintro rfl
    omega
  obtain ⟨⟨a, idx⟩, flight⟩ := Option.ne_none_iff_exists'.mp inFlight
  obtain ⟨⟨b, idx'⟩, flight'⟩ := Option.ne_none_iff_exists'.mp inFlight'
  have theirs := queue.claims flight'
  rw [lap, slotOf_add_cap, ← near] at theirs
  exact apart p q _ other (queue.claims flight) theirs

omit [DecidableEq Tid] in
/-- A push in flight on the read cursor is the oldest claim not popped. -/
theorem Queue.number_oldest (queue : Queue log number w)
    (apart : Apart (@Claims cap) w.producer) {p : Tid} {a : PushArgs}
    (flight : (w.producer p).flight = some (a, UInt64.ofNat w.popped.length)) :
    number p = w.popped.length := by
  obtain ⟨index, low, found⟩ := queue.flying p a _ flight
  obtain ⟨bound, -⟩ := List.getElem?_eq_some_iff.mp found
  have far := queue.log_le apart
  obtain ⟨k, small, size⟩ := cap.exists_eq_two_pow
  have half : cap.val ≤ 2 ^ 63 := size ▸ Nat.pow_le_pow_right (by decide) (by omega)
  obtain ⟨d, ahead⟩ := Nat.exists_eq_add_of_le low
  have values := congrArg UInt64.toNat index
  rw [ahead, UInt64.toNat_ofNat', UInt64.toNat_ofNat'] at values
  omega

omit [DecidableEq Tid] in
/-- Behind it nothing is ready to be popped. -/
theorem Queue.front_clear (queue : Queue log number w) (apart : Apart (@Claims cap) w.producer)
    {p : Tid} {a : PushArgs}
    (flight : (w.producer p).flight = some (a, UInt64.ofNat w.popped.length)) :
    (w.front 0).ready = false := by
  by_contra set
  obtain ⟨n, slot, held, alone⟩ := queue.shelved _ (eq_true_of_ne_false set)
  obtain ⟨low, high⟩ := held.window
  have first : n = w.popped.length :=
    slotOf_inj low high (Nat.le_refl _) (Nat.lt_add_of_pos_right cap.pos) slot
  have oldest := queue.number_oldest apart flight
  exact alone p (by rw [flight]; exact Option.some_ne_none _) (oldest.trans first.symm)

/-- Any step but one of this producer. -/
def Spares (p : Tid) : Action Tid → Prop
  | .produce q => q ≠ p
  | _ => True

instance (p : Tid) : DecidablePred (Spares p)
  | .call _ _ => .isTrue trivial
  | .produce q => inferInstanceAs (Decidable (q ≠ p))
  | .request _ => .isTrue trivial
  | .consume => .isTrue trivial

/-- No pop is under way, and the push of the oldest claim is. -/
structure Stalled (p : Tid) (a : PushArgs) (popped : List (Nat × PoppedRecord))
    (w : World cap Tid) : Prop where
  reached : ∃ actions, (World.machine cap Tid).Run Orderly World.init actions w
  flight : (w.producer p).flight = some (a, UInt64.ofNat w.popped.length)
  popped : w.popped = popped
  asks : w.consumer = .idle ∨ ∃ out, w.consumer = .check out

theorem Stalled.clear {p : Tid} {a : PushArgs} {popped : List (Nat × PoppedRecord)}
    (stalled : Stalled p a popped w) {out : PoppedRecord} (pc : w.consumer = .check out) :
    (w.ring.slots (cap.slot w.ring.readIndex)).ready = false := by
  obtain ⟨actions, reached⟩ := stalled.reached
  obtain ⟨number, queue⟩ := queue_of_run reached
  have unlapped := reached.weaken (fun _ _ _ orderly => orderly.1)
  have read := (cursors_of_run reached).readIndex
  rw [pc] at read
  have index : w.ring.readIndex = UInt64.ofNat w.popped.length := by
    rw [← read]
    exact (UInt64.add_zero _).symm
  rw [index]
  exact queue.front_clear (apart_of_run unlapped) stalled.flight

theorem Stalled.next {p : Tid} {a : PushArgs} {popped : List (Nat × PoppedRecord)}
    (stalled : Stalled p a popped w) {action : Action Tid}
    (enabled : (World.machine cap Tid).Enabled w action) (orderly : Orderly w action)
    (spares : Spares p action) :
    Stalled p a popped ((World.machine cap Tid).next w action) ∧
      ∀ answer ∈ answerOf w action, answer = none := by
  obtain ⟨actions, reached⟩ := stalled.reached
  have again := reached.snoc enabled orderly
  cases action with
  | call q b =>
      have other : p ≠ q := by
        rintro rfl
        have flight := stalled.flight
        rw [show w.producer p = .idle from enabled] at flight
        cases flight
      by_cases big : b.len.toNat > kMaxPayloadBytes
      · have same : (World.machine cap Tid).next w (.call q b) = w := if_pos big
        rw [same]
        exact ⟨stalled, fun _ h => absurd h List.not_mem_nil⟩
      · have moved : (World.machine cap Tid).next w (.call q b) = w.setProducer q (.claim b) :=
          if_neg big
        rw [moved] at again ⊢
        refine ⟨⟨⟨_, again⟩, ?_, stalled.popped, stalled.asks⟩,
          fun _ h => absurd h List.not_mem_nil⟩
        change (Function.update w.producer q (.claim b) p).flight =
          some (a, UInt64.ofNat w.popped.length)
        rw [Function.update_of_ne other]
        exact stalled.flight
  | produce q =>
      refine ⟨⟨⟨_, again⟩, ?_, (popped_produce q).trans stalled.popped, ?_⟩,
        fun _ h => absurd h List.not_mem_nil⟩
      · change ((w.produce q).producer p).flight =
          some (a, UInt64.ofNat (w.produce q).popped.length)
        rw [producer_produce_of_ne (Ne.symm spares), popped_produce]
        exact stalled.flight
      · change (w.produce q).consumer = .idle ∨ ∃ out, (w.produce q).consumer = .check out
        rw [consumer_produce]
        exact stalled.asks
  | request out =>
      exact ⟨⟨⟨_, again⟩, stalled.flight, stalled.popped, .inr ⟨out, rfl⟩⟩,
        fun _ h => absurd h List.not_mem_nil⟩
  | consume =>
      rcases stalled.asks with idle | ⟨out, pc⟩
      · exact absurd idle enabled
      · have clear := stalled.clear pc
        have moved : (World.machine cap Tid).next w .consume = { w with consumer := .idle } := by
          simp only [World.machine, World.consume, pc, clear, Bool.false_eq_true, if_false]
        rw [moved] at again ⊢
        refine ⟨⟨⟨_, again⟩, stalled.flight, stalled.popped, .inl rfl⟩, ?_⟩
        intro answer there
        simp only [answerOf, pc, clear, Bool.false_eq_true, if_false] at there
        exact List.mem_singleton.mp there

/-- While the push of the oldest claim that is not popped makes no step, TryPop finds nothing,
whatever pushes come and complete behind it. -/
theorem stalled_push_blocks (cap : Capacity) (p : Tid) (a : PushArgs)
    (before later : List (Action Tid)) (w v : World cap Tid)
    (reached : (World.machine cap Tid).Run Orderly World.init before w)
    (flight : (w.producer p).flight = some (a, UInt64.ofNat w.popped.length))
    (idle : w.consumer = .idle)
    (run : (World.machine cap Tid).Run
      (fun w action => Orderly w action ∧ Spares p action) w later v) :
    v.popped = w.popped ∧
      ∀ answer ∈ (World.machine cap Tid).log answerOf w later, answer = none := by
  have start : Stalled p a w.popped w := ⟨⟨before, reached⟩, flight, rfl, .inl idle⟩
  suffices stays : Stalled p a w.popped v ∧
      ∀ answer ∈ (World.machine cap Tid).log answerOf w later, answer = none from
    ⟨stays.1.popped, stays.2⟩
  induction run with
  | nil => exact ⟨start, fun _ h => absurd h List.not_mem_nil⟩
  | snoc prior enabled meets ih =>
      obtain ⟨stalled, none⟩ := ih
      obtain ⟨stalled', none'⟩ := stalled.next enabled meets.1 meets.2
      refine ⟨stalled', ?_⟩
      intro answer there
      rw [prior.log_snoc] at there
      rcases List.mem_append.mp there with old | new
      · exact none answer old
      · exact none' answer new

/-- With room for every claim a run goes on orderly. -/
theorem orderly_later {also : Action Tid → Prop} {before later : List (Action Tid)}
    (reached : (World.machine cap Tid).Run Roomy World.init before w)
    (run : (World.machine cap Tid).Run (fun w action => Roomy w action ∧ also action) w later v) :
    (World.machine cap Tid).Run (fun w action => Orderly w action ∧ also action) w later v := by
  induction run with
  | nil => exact .nil
  | @snoc later v action prior enabled meets ih =>
      have whole := reached.trans (prior.weaken (fun _ _ _ meets => meets.1))
      obtain ⟨t, there, -, orderly, -⟩ := (orderly_of_roomy (whole.snoc enabled meets.1)).1.last
      have same : t = v := there.foldl.symm.trans whole.foldl
      exact ih.snoc enabled ⟨same ▸ orderly, meets.2⟩

/-- The first push has claimed its index. -/
def claimed : List (Action Bool) := [.call false (stamped 1), .produce false]

/-- The second push completes, and the consumer asks. -/
def completed : List (Action Bool) :=
  [.call true (stamped 2)] ++ List.replicate 7 (.produce true) ++ [.request {}, .consume]

/-- A push has returned true, and TryPop returns false. -/
theorem stalled_push_blocks_completed :
    (completed.foldl (World.machine pair Bool).next
        (claimed.foldl (World.machine pair Bool).next World.init)).accepted.map
      PushArgs.stampNs = [2] ∧
    ∀ answer ∈ (World.machine pair Bool).log answerOf
      (claimed.foldl (World.machine pair Bool).next World.init) completed, answer = none := by
  have reached : (World.machine pair Bool).Run Roomy World.init claimed _ :=
    Machine.run_of_fires (by decide)
  have run : (World.machine pair Bool).Run (fun w action => Roomy w action ∧ Spares false action)
      (claimed.foldl (World.machine pair Bool).next World.init) completed _ :=
    Machine.run_of_fires (by decide)
  exact ⟨by decide, (stalled_push_blocks pair false (stamped 1) claimed completed _ _
    (orderly_of_roomy reached).1 (by decide) (by decide) (orderly_later reached run)).2⟩

end ChronoCap.Ring.Interleaving

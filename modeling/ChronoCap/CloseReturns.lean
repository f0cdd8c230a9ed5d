/- module: ChronoCap/CloseReturns
   source: src/core/record_writer.cpp
   digest: How many steps of the writer thread a Close waits for, and that it waits for as long
           as records keep coming. -/

import ChronoCap.PeriodicFlush

set_option autoImplicit false
set_option relaxedAutoImplicit false

namespace ChronoCap.WriterThread

open ChronoCap.Foundation
open ChronoCap.Ring
open ChronoCap.WireFormat

/-- The steps of WriterThreadMain to its end, with `shutdown_` set and so many records waiting. -/
def ThreadPc.left (waiting : Nat) : ThreadPc → Nat
  | .none => 0
  | .test => 2 * waiting + 3
  | .drain _ => 2 * waiting + 5
  | .write _ => 2 * waiting + 6
  | .rest _ => 2 * waiting + 4
  | .lastDrain => 2 * waiting + 2
  | .lastWrite => 2 * waiting + 3
  | .lastFlush => 1
  | .done => 0

theorem ThreadPc.left_eq_zero {pc : ThreadPc} (running : pc ≠ .none) (waiting : Nat) :
    pc.left waiting = 0 ↔ pc = .done := by
  cases pc with
  | none => exact absurd rfl running
  | done => exact iff_of_true rfl rfl
  | _ => simp [ThreadPc.left]

theorem ThreadPc.left_le (pc : ThreadPc) (waiting : Nat) : pc.left waiting ≤ 2 * waiting + 6 := by
  cases pc <;> simp only [ThreadPc.left] <;> omega

/-- A record more costs a pop and a write. -/
theorem ThreadPc.left_add (pc : ThreadPc) (waiting more : Nat) :
    pc.left (waiting + more) ≤ pc.left waiting + 2 * more := by
  cases pc <;> simp only [ThreadPc.left] <;> omega

/-- Whether it is a step of the writer thread. -/
def Step.ofThread : Step → Nat
  | .thread _ => 1
  | _ => 0

namespace RecordWriter

variable {cap : Capacity} {host : Host} {flushInterval : Int} {w v : RecordWriter cap}

def waiting (w : RecordWriter cap) : Nat := w.ledger.accepted.length - w.ledger.popped.length

def left (w : RecordWriter cap) : Nat := w.thread.left w.waiting

/-- What is known in any run of a Close that waits, whatever the kernel answers. -/
structure Told (w : RecordWriter cap) : Prop where
  conserved : w.ledger.Conserved
  idle : w.thread = .none → w.closing = false
  told : w.closing = true → w.shutdown = true

theorem told_init : Told ({} : RecordWriter cap) where
  conserved := Ledger.conserved_init
  idle _ := rfl
  told h := absurd h Bool.false_ne_true

theorem closing_thread (host : Host) (flushInterval now : Int) (w : RecordWriter cap) :
    (w.writerThreadMain host flushInterval now).closing = w.closing ∧
      (w.writerThreadMain host flushInterval now).shutdown = w.shutdown := by
  unfold writerThreadMain
  split <;> exact ⟨rfl, rfl⟩

theorem Told.next (inv : Told w) {step : Step}
    (enabled : (machine host flushInterval cap).Enabled w step) :
    Told ((machine host flushInterval cap).next w step) := by
  cases step with
  | push a => exact ⟨inv.conserved.push a, inv.idle, inv.told⟩
  | openCall topics fd now =>
      have calm : w.closing = false := inv.idle enabled
      change Told (w.openCall host topics fd now)
      unfold RecordWriter.openCall
      dsimp only
      split
      · refine ⟨inv.conserved, fun _ => calm, fun h => ?_⟩
        rw [calm] at h
        contradiction
      · exact ⟨inv.conserved, inv.idle, inv.told⟩
  | thread now =>
      have moves := (threadStep host flushInterval now w enabled.1).moves
      obtain ⟨closing, shutdown⟩ := closing_thread host flushInterval now w
      refine ⟨moves.conserved inv.conserved, fun h => absurd h moves.running, ?_⟩
      change (w.writerThreadMain host flushInterval now).closing = true →
        (w.writerThreadMain host flushInterval now).shutdown = true
      rw [closing, shutdown]
      exact inv.told
  | close =>
      change Told w.close
      unfold RecordWriter.close
      split
      · exact ⟨inv.conserved, inv.idle, inv.told⟩
      · rename_i running
        exact ⟨inv.conserved, fun h => absurd h running, fun _ => rfl⟩
  | join => exact ⟨inv.conserved, fun _ => rfl, fun h => absurd h Bool.false_ne_true⟩

theorem popped_le (conserved : w.ledger.Conserved) :
    w.ledger.popped.length ≤ w.ledger.accepted.length := by
  have total := congrArg Multiset.card conserved.count
  simp only [Multiset.card_add, Multiset.coe_card, List.length_map, Multiset.card_range] at total
  omega

theorem waiting_le (conserved : w.ledger.Conserved) : w.waiting ≤ cap.val := by
  have held := conserved.length_le
  unfold waiting
  omega

/-- TryPop takes a record that waits, or finds none in front. -/
theorem tryPop_cases (conserved : w.ledger.Conserved) (popped empty : ThreadPc) :
    ((w.tryPop popped empty).thread = popped ∧
        (w.tryPop popped empty).waiting + 1 = w.waiting) ∨
      ((w.tryPop popped empty).thread = empty ∧ (w.tryPop popped empty).waiting = w.waiting) := by
  by_cases ready : w.ledger.Ready (cap.slot w.ledger.ring.readIndex)
  · left
    obtain ⟨n, rec, eq, logged⟩ := w.tryPop_true popped empty ready
    have after := (conserved.pop w.record).count
    have total := congrArg Multiset.card after
    simp only [Multiset.card_add, Multiset.coe_card, List.length_map, Multiset.card_range,
      Ledger.accepted_pop, logged, List.length_append, List.length_singleton] at total
    rw [eq]
    refine ⟨rfl, ?_⟩
    simp only [waiting, Ledger.accepted_pop, logged, List.length_append, List.length_singleton]
    omega
  · right
    rw [w.tryPop_false popped empty ready]
    exact ⟨rfl, rfl⟩

/-- With `shutdown_` set each step of the thread is one less to make. -/
theorem left_thread (conserved : w.ledger.Conserved) (shutdown : w.shutdown = true)
    (running : w.thread ≠ .none) (busy : w.thread ≠ .done) (now : Int) :
    1 + (w.writerThreadMain host flushInterval now).left ≤ w.left := by
  unfold left
  cases pc : w.thread with
  | none => exact absurd pc running
  | done => exact absurd pc busy
  | test =>
      simp only [writerThreadMain, pc, shutdown, if_true, ThreadPc.left, waiting]
      omega
  | drain any =>
      simp only [writerThreadMain, pc]
      rcases tryPop_cases conserved (.write any) (.rest any) with ⟨thread, fewer⟩ | ⟨thread, same⟩
      · rw [thread, ThreadPc.left, ThreadPc.left]
        omega
      · rw [thread, same, ThreadPc.left, ThreadPc.left]
        omega
  | write any =>
      simp only [writerThreadMain, pc, RecordWriter.write, ThreadPc.left, waiting]
      omega
  | rest any =>
      simp only [writerThreadMain, pc, ThreadPc.left, waiting]
      omega
  | lastDrain =>
      simp only [writerThreadMain, pc]
      rcases tryPop_cases conserved .lastWrite .lastFlush with ⟨thread, fewer⟩ | ⟨thread, same⟩
      · rw [thread, ThreadPc.left, ThreadPc.left]
        omega
      · rw [thread, ThreadPc.left, ThreadPc.left]
        omega
  | lastWrite =>
      simp only [writerThreadMain, pc, RecordWriter.write, ThreadPc.left, waiting]
      omega
  | lastFlush =>
      simp only [writerThreadMain, pc, ThreadPc.left]
      omega

/-- Close has been called and its join() has not returned. -/
structure Closing (w : RecordWriter cap) : Prop where
  told : Told w
  closing : w.closing = true

theorem Closing.running (inv : Closing w) : w.thread ≠ .none := by
  intro idle
  have calm := inv.told.idle idle
  rw [inv.closing] at calm
  contradiction

/-- Until join() returns. -/
def Waits (_ : RecordWriter cap) : Step → Prop
  | .join => False
  | _ => True

instance (w : RecordWriter cap) : DecidablePred (Waits w)
  | .push _ => .isTrue trivial
  | .openCall _ _ _ => .isTrue trivial
  | .thread _ => .isTrue trivial
  | .close => .isTrue trivial
  | .join => .isFalse id

theorem Closing.next (inv : Closing w) {step : Step}
    (enabled : (machine host flushInterval cap).Enabled w step) (waits : Waits w step) :
    Closing ((machine host flushInterval cap).next w step) := by
  refine ⟨inv.told.next enabled, ?_⟩
  cases step with
  | push a => exact inv.closing
  | openCall topics fd now => exact absurd enabled inv.running
  | thread now => exact (closing_thread host flushInterval now w).1.trans inv.closing
  | close =>
      have open_still : w.closing = false := enabled
      rw [inv.closing] at open_still
      contradiction
  | join => exact waits.elim

theorem Closing.pays (inv : Closing w) {step : Step}
    (enabled : (machine host flushInterval cap).Enabled w step) (waits : Waits w step) :
    step.ofThread + ((machine host flushInterval cap).next w step).left +
        2 * w.ledger.accepted.length ≤
      w.left + 2 * ((machine host flushInterval cap).next w step).ledger.accepted.length := by
  cases step with
  | push a =>
      change 0 + ThreadPc.left ((w.ledger.push a).accepted.length - (w.ledger.push a).popped.length)
        w.thread + _ ≤ w.thread.left w.waiting + 2 * (w.ledger.push a).accepted.length
      have kept := popped_le inv.told.conserved
      have grows := length_accepted_push w.ledger a
      have more := w.thread.left_add w.waiting
        ((w.ledger.push a).accepted.length - w.ledger.accepted.length)
      have sum : w.waiting + ((w.ledger.push a).accepted.length - w.ledger.accepted.length) =
          (w.ledger.push a).accepted.length - w.ledger.popped.length := by
        unfold waiting
        omega
      rw [sum] at more
      rw [Ledger.popped_push]
      omega
  | openCall topics fd now => exact absurd enabled inv.running
  | thread now =>
      have less : 1 + (w.writerThreadMain host flushInterval now).left ≤ w.left :=
        left_thread inv.told.conserved (inv.told.told inv.closing) enabled.1 enabled.2 now
      have moves := (threadStep host flushInterval now w enabled.1).moves
      change 1 + (w.writerThreadMain host flushInterval now).left + _ ≤
        _ + 2 * (w.writerThreadMain host flushInterval now).ledger.accepted.length
      rw [moves.accepted]
      omega
  | close =>
      have open_still : w.closing = false := enabled
      rw [inv.closing] at open_still
      contradiction
  | join => exact waits.elim

/-- A Close waits, from any reachable state and with any pushes meanwhile: the writer thread makes
no more steps than it has left, plus two for each record accepted since; at first that is bounded
by the ring. It can make its next step until nothing is left, and then join() returns. -/
theorem close_returns (cap : Capacity) (host : Host) (flushInterval : Int)
    (before after : List Step) (w v : RecordWriter cap)
    (reached : (machine host flushInterval cap).Run Machine.Free {} before w)
    (closing : w.closing = true)
    (run : (machine host flushInterval cap).Run Waits w after v) :
    (after.map Step.ofThread).sum + v.left + 2 * w.ledger.accepted.length ≤
        w.left + 2 * v.ledger.accepted.length ∧
      w.left ≤ 2 * cap.val + 6 ∧
      (v.left = 0 ↔ (machine host flushInterval cap).Enabled v .join) ∧
      (v.left ≠ 0 → ∀ now, (machine host flushInterval cap).Enabled v (.thread now)) := by
  have start : Closing w :=
    ⟨reached.invariant told_init (fun _ _ inv enabled _ => inv.next enabled), closing⟩
  have inv : Closing v := run.invariant start (fun _ _ inv enabled waits => inv.next enabled waits)
  have none_left := ThreadPc.left_eq_zero inv.running v.waiting
  refine ⟨?_, ?_, ?_, ?_⟩
  · exact run.amortized_income left (fun w => 2 * w.ledger.accepted.length) start
      (fun _ _ inv enabled waits => inv.next enabled waits)
      (fun _ _ inv enabled waits => inv.pays enabled waits)
  · have bound := w.thread.left_le w.waiting
    have held := waiting_le start.told.conserved
    exact bound.trans (by omega)
  · exact none_left.trans ⟨fun done => ⟨inv.closing, done⟩, fun returns => returns.2⟩
  · exact fun more _ => ⟨inv.running, fun done => more (none_left.mpr done)⟩

/-- The recorder of a session behind these steps. -/
def behind (steps : List Step) : RecordWriter pair :=
  steps.foldl (machine wholeWrites 100 pair).next PeriodicFlush.Counted.session

theorem run_behind {steps : List Step} (fires :
      (machine wholeWrites 100 pair).Fires Machine.Free PeriodicFlush.Counted.session steps) :
    (machine wholeWrites 100 pair).Run Machine.Free {} ([.openCall blankTopic 3 0] ++ steps)
      (behind steps) :=
  PeriodicFlush.Counted.run_session.trans (Machine.run_of_fires fires)

/-- Close is called with one record in the ring; five steps end it, as many as are left. -/
theorem close_returns_single :
    5 + (behind ([.push (stamped 0), .close] ++ List.replicate 5 (.thread 0))).left ≤
        (behind [.push (stamped 0), .close]).left ∧
      (behind [.push (stamped 0), .close]).left ≤ 10 := by
  have run : (machine wholeWrites 100 pair).Run Waits (behind [.push (stamped 0), .close])
      (List.replicate 5 (.thread 0))
      (behind ([.push (stamped 0), .close] ++ List.replicate 5 (.thread 0))) :=
    Machine.run_of_fires (by decide)
  obtain ⟨account, bound, -⟩ := close_returns pair wholeWrites 100 _ _ _ _
    (@run_behind [.push (stamped 0), .close] (by decide)) (by decide) run
  refine ⟨?_, bound⟩
  have same : (behind ([.push (stamped 0), .close] ++
      List.replicate 5 (.thread 0))).ledger.accepted.length =
        (behind [.push (stamped 0), .close]).ledger.accepted.length := by
    decide
  have steps : ((List.replicate 5 (Step.thread 0)).map Step.ofThread).sum = 5 := rfl
  omega

/-! The final drain goes on as long as records come. -/

/-- In the final drain, with an empty ring whose cursors are on one slot. -/
structure Dry (w : RecordWriter cap) : Prop where
  thread : w.thread = .lastDrain
  free : ∀ i, ¬ w.ledger.Ready i
  front : cap.slot w.ledger.ring.writeIndex = cap.slot w.ledger.ring.readIndex

theorem Dry.left (dry : Dry w) (conserved : w.ledger.Conserved) : w.left = 2 := by
  have total := congrArg Multiset.card conserved.count
  have nothing : ∀ i, w.ledger.holding i = 0 := by
    intro i
    have clear : (w.ledger.ring.slots i).ready = false := by
      simpa [Ledger.Ready] using dry.free i
    rw [Ledger.holding, clear]
    rfl
  simp only [nothing, Finset.sum_const_zero, add_zero, Multiset.coe_card, List.length_map,
    Multiset.card_range] at total
  simp only [RecordWriter.left, dry.thread, ThreadPc.left, waiting, total, Nat.sub_self]

theorem slot_succ {i j : UInt64} (same : cap.slot i = cap.slot j) :
    cap.slot (i + 1) = cap.slot (j + 1) := by
  have val := congrArg Fin.val same
  rw [cap.slot_val, cap.slot_val] at val
  apply Fin.ext
  rw [← cap.ahead_zero (i + 1), ← cap.ahead_zero (j + 1), cap.ahead_succ, cap.ahead_succ,
    cap.ahead_val, cap.ahead_val]
  exact Nat.ModEq.add_right 1 val

/-- A record that comes in time is popped and written, and the drain asks for the next. -/
theorem Dry.round (dry : Dry w) {a : PushArgs}
    (fits : a.len.toNat ≤ kMaxPayloadBytes) (now : Int) :
    ∃ v, (machine host flushInterval cap).Run Waits w [.push a, .thread now, .thread now] v ∧
      Dry v ∧ v.ledger.accepted = w.ledger.accepted ++ [a] := by
  have accepts : w.ledger.Accepts a := ⟨fits, dry.free _⟩
  generalize filled : ({ w with ledger := w.ledger.push a } : RecordWriter cap) = u
  have logged : u.ledger = _ := (congrArg RecordWriter.ledger filled).symm.trans
    (w.ledger.push_accepted accepts)
  have thread : u.thread = .lastDrain := (congrArg RecordWriter.thread filled).symm.trans dry.thread
  have ready : u.ledger.Ready (cap.slot u.ledger.ring.readIndex) := by
    rw [logged, ← dry.front]
    simp [Ledger.Ready, Slot.fill]
  obtain ⟨n, rec, popped, -⟩ := u.tryPop_true .lastWrite .lastFlush ready
  have first : (machine host flushInterval cap).Run Waits w [.push a] u := by
    rw [← filled]
    exact Machine.Run.single (a := Step.push a) trivial trivial
  have second : (machine host flushInterval cap).Run Waits u [.thread now]
      (u.tryPop .lastWrite .lastFlush) := by
    have run : (machine host flushInterval cap).Run Waits u [.thread now]
        (u.writerThreadMain host flushInterval now) :=
      Machine.Run.single (a := Step.thread now) ⟨by simp [thread], by simp [thread]⟩ trivial
    rwa [writerThreadMain, thread] at run
  generalize taken : u.tryPop .lastWrite .lastFlush = x at second
  have holds : x.thread = .lastWrite := by
    rw [← taken, popped]
  have third : (machine host flushInterval cap).Run Waits x [.thread now]
      (x.write host .lastDrain) := by
    have run : (machine host flushInterval cap).Run Waits x [.thread now]
        (x.writerThreadMain host flushInterval now) :=
      Machine.Run.single (a := Step.thread now) ⟨by simp [holds], by simp [holds]⟩ trivial
    rwa [writerThreadMain, holds] at run
  have ledger : x.ledger = _ := (congrArg RecordWriter.ledger taken).symm.trans
    ((congrArg RecordWriter.ledger popped).trans (u.ledger.pop_ready ready _))
  refine ⟨_, (first.trans second).trans third, ⟨rfl, ?_, ?_⟩, ?_⟩
  · intro i
    change ¬ x.ledger.Ready i
    rw [ledger]
    by_cases here : i = cap.slot u.ledger.ring.readIndex
    · subst here
      simp [Ledger.Ready]
    · have other : i ≠ cap.slot w.ledger.ring.writeIndex := by
        rw [dry.front]
        simpa [logged] using here
      simp only [Ledger.Ready, Function.update_of_ne here]
      simp only [logged, Function.update_of_ne other]
      exact dry.free i
  · change cap.slot x.ledger.ring.writeIndex = cap.slot x.ledger.ring.readIndex
    rw [ledger, logged]
    exact slot_succ dry.front
  · change x.ledger.accepted = _
    rw [ledger, logged]

theorem dry_closed : Dry (behind [.close, .thread 0]) where
  thread := by decide
  free := by decide
  front := by decide

end RecordWriter

end ChronoCap.WriterThread

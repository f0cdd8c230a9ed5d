/- module: ChronoCap/Shutdown
   source: src/core/record_writer.cpp
   digest: When Close returns, everything accepted before it is in the file, unless the final
           drain stopped at an empty slot in front of it. -/

import ChronoCap.Ring.PopOrder
import ChronoCap.WriterThread

set_option autoImplicit false
set_option relaxedAutoImplicit false

namespace ChronoCap.WriterThread.RecordWriter

open ChronoCap.Foundation
open ChronoCap.Ring

variable {cap : Capacity} {host : Host} {w : RecordWriter cap}

/-- The records accepted before Close was called and not written in an earlier session. -/
def promised (w : RecordWriter cap) : List Record :=
  ((List.range w.closedAt).filter
    (fun n => n ∉ (w.ledger.popped.take w.openedAt).map Prod.fst)).filterMap w.ledger.record

/-- The file holds header, table and whole records, each promised one among them. -/
def NothingLost (host : Host) (w : RecordWriter cap) : Prop :=
  ∃ rs : List Record, w.out.disk.file =
      headerBytes host.createdAtNs w.topics ++ (rs.map recordBytes).flatten ∧
    w.promised.Subperm rs

/-- No push is accepted behind an empty slot. -/
def Aligned (w : RecordWriter cap) : Step → Prop
  | .push a => Ledger.Aligned w.ledger (.push a)
  | _ => True

instance (w : RecordWriter cap) : DecidablePred (Aligned w)
  | .push a => inferInstanceAs (Decidable (Ledger.Aligned w.ledger (.push a)))
  | .openCall _ _ _ => .isTrue trivial
  | .thread _ => .isTrue trivial
  | .close => .isTrue trivial
  | .join => .isTrue trivial

theorem sound_of_aligned (succeed : host.io.Succeed) {flushInterval : Int} {steps : List Step}
    (run : (machine host flushInterval cap).Run Aligned {} steps w) :
    Sound Ledger.Aligned host w :=
  sound_of_run succeed (fun _ _ => trivial) (fun _ _ meets => meets) run

theorem Sound.queue (inv : Sound Ledger.Aligned host w) : SlotWindow.Queue w.ledger.window := by
  obtain ⟨ops, run⟩ := inv.history
  exact Ledger.queue_of_aligned run

/-- In a queue an empty slot in front means that everything accepted has been popped. -/
theorem Sound.all_popped (inv : Sound Ledger.Aligned host w)
    (free : ¬ w.ledger.Ready (cap.slot w.ledger.ring.readIndex)) :
    w.ledger.accepted.length ≤ w.ledger.popped.length := by
  have queue := inv.queue
  have front : w.ledger.window.cells 0 = none := by
    by_contra filled
    have ready := (Ledger.window_cells_ne_none cap.pos).mp filled
    rw [cap.ahead_zero] at ready
    exact free ready
  rw [queue.cells] at front
  have done : w.ledger.accepted.length ≤ (w.ledger.popped.map Prod.fst).length := by
    by_contra more
    rw [if_pos (by simpa [Ledger.window] using more)] at front
    contradiction
  simpa using done

/-- Behind the final drain every record accepted before Close has been popped. -/
def Drained (w : RecordWriter cap) : Prop :=
  w.thread.gaveUp = true → w.closedAt ≤ w.ledger.popped.length

theorem Drained.thread (inv : Sound Ledger.Aligned host w) (drained : Drained w)
    (flushInterval now : Int) : Drained (w.writerThreadMain host flushInterval now) := by
  have elsewhere : ∀ {v : RecordWriter cap}, v.thread.gaveUp = false → Drained v := by
    intro v busy h
    rw [busy] at h
    contradiction
  cases pc : w.thread with
  | none => simpa only [writerThreadMain, pc] using drained
  | done => simpa only [writerThreadMain, pc] using drained
  | test =>
      simp only [writerThreadMain, pc]
      apply elsewhere
      dsimp only
      split <;> rfl
  | drain any =>
      simp only [writerThreadMain, pc, tryPop]
      apply elsewhere
      dsimp only
      split <;> rfl
  | write any =>
      simp only [writerThreadMain, pc]
      exact elsewhere rfl
  | rest any =>
      simp only [writerThreadMain, pc]
      exact elsewhere rfl
  | lastDrain =>
      simp only [writerThreadMain, pc]
      by_cases ready : w.ledger.Ready (cap.slot w.ledger.ring.readIndex)
      · obtain ⟨n, rec, eq, -⟩ := w.tryPop_true .lastWrite .lastFlush ready
        rw [eq]
        exact elsewhere rfl
      · -- the drain gives up here, and the queue is empty
        rw [w.tryPop_false .lastWrite .lastFlush ready]
        intro _
        have closing : w.closing = true := inv.last (by simp [pc, ThreadPc.last])
        exact Nat.le_trans (inv.closedAt closing) (inv.all_popped ready)
  | lastWrite =>
      simp only [writerThreadMain, pc]
      exact elsewhere rfl
  | lastFlush =>
      simp only [writerThreadMain, pc]
      intro _
      exact drained (by simp [pc, ThreadPc.gaveUp])

theorem drained_of_run (succeed : host.io.Succeed) {flushInterval : Int} {steps : List Step}
    (run : (machine host flushInterval cap).Run Aligned {} steps w) : Drained w := by
  induction run with
  | nil => exact fun h => absurd h Bool.false_ne_true
  | @snoc steps w step prior enabled _ ih =>
      have inv := sound_of_aligned succeed prior
      cases step with
      | push a =>
          intro h
          change w.closedAt ≤ (w.ledger.push a).popped.length
          rw [Ledger.popped_push]
          exact ih h
      | openCall topics fd now =>
          change Drained (w.openCall host topics fd now)
          unfold RecordWriter.openCall
          dsimp only
          split
          · exact fun h => absurd h Bool.false_ne_true
          · exact ih
      | thread now => exact ih.thread inv flushInterval now
      | close =>
          change Drained w.close
          unfold RecordWriter.close
          split
          · exact ih
          · intro h
            have late : w.thread.last = true := by
              have gaveUp : w.thread.gaveUp = true := h
              revert gaveUp
              cases w.thread <;> simp [ThreadPc.gaveUp, ThreadPc.last]
            have open_still : w.closing = false := enabled
            rw [inv.last late] at open_still
            contradiction
      | join => exact fun h => absurd h Bool.false_ne_true

/-- The promised records are among those the session popped. -/
theorem Sound.promised_subperm (inv : Sound Ledger.Aligned host w)
    (drained : w.closedAt ≤ w.ledger.popped.length) : w.promised.Subperm w.session := by
  obtain ⟨ops, run⟩ := inv.history
  have conserved := Ledger.conserved_of_run run.free
  have numbers : w.ledger.popped.map Prod.fst = List.range w.ledger.popped.length := by
    simpa [Ledger.window] using inv.queue.taken
  have session : w.session =
      ((w.ledger.popped.drop w.openedAt).map Prod.fst).filterMap w.ledger.record := by
    rw [List.filterMap_map, RecordWriter.session, ← List.filterMap_eq_map]
    apply List.filterMap_congr
    intro p hp
    exact ((conserved.drained p (List.mem_of_mem_drop hp)).1).symm
  have chosen : ((List.range w.closedAt).filter
      (fun n => n ∉ (w.ledger.popped.take w.openedAt).map Prod.fst)).Subperm
        ((w.ledger.popped.drop w.openedAt).map Prod.fst) := by
    apply List.subperm_of_subset (List.nodup_range.filter _)
    intro n hn
    obtain ⟨before, fresh⟩ := List.mem_filter.mp hn
    have bound : n < w.ledger.popped.length := (List.mem_range.mp before).trans_le drained
    have all : n ∈ (w.ledger.popped.take w.openedAt ++ w.ledger.popped.drop w.openedAt).map
        Prod.fst := by
      rw [List.take_append_drop, numbers]
      exact List.mem_range.mpr bound
    rw [List.map_append, List.mem_append] at all
    exact all.resolve_left (by simpa using fresh)
  obtain ⟨l, perm, sub⟩ := chosen
  rw [session]
  exact ⟨l.filterMap w.ledger.record, perm.filterMap _, sub.filterMap _⟩

/-- Over any sessions with any pushes, at any time: if no push is accepted behind an empty slot,
then when Close returns the file holds everything that was accepted before it was called. -/
theorem nothing_lost (cap : Capacity) (host : Host) (succeed : host.io.Succeed)
    (flushInterval : Int) (steps : List Step) (w : RecordWriter cap)
    (run : (machine host flushInterval cap).Run Aligned {} steps w)
    (returns : (machine host flushInterval cap).Enabled w .join) :
    NothingLost host w.join := by
  obtain ⟨closing, done⟩ := returns
  have inv := sound_of_aligned succeed run
  have drained : w.closedAt ≤ w.ledger.popped.length :=
    drained_of_run succeed run (by simp [done, ThreadPc.gaveUp])
  obtain ⟨-, file⟩ := inv.file (by simp [done])
  rw [inHand, if_neg (by simp [done, ThreadPc.holds]), List.append_nil] at file
  exact ⟨w.session, (close_file w.out).trans file, inv.promised_subperm drained⟩

/-- A kernel that takes whatever it is given. -/
def wholeWrites : Host where
  io := ⟨fun _ len => some len, fun _ len n more answer => by
    obtain rfl := Option.some.inj answer
    exact ⟨more, Nat.le_refl _⟩⟩
  createdAtNs := 0
  stack := fun _ _ => 0
  beyond := []

theorem wholeWrites_succeed : wholeWrites.io.Succeed := fun _ _ _ => by simp [wholeWrites]

/-- One topic whose records have no payload. -/
def blankTopic : List TopicInfo := [⟨1, 0, [0x74]⟩]

/-- A session of one record, closed before the writer thread gets to it. -/
theorem nothing_lost_single :
    ∃ w : RecordWriter pair, w.ledger.accepted = [stamped 0] ∧
      NothingLost wholeWrites w.join := by
  have ok := openFile_ok wholeWrites_succeed blankTopic (show (0 : Int) ≤ 3 by decide) 0 {}
  let start : RecordWriter pair :=
    { out := (Output.openFile wholeWrites blankTopic 3 0 {}).2, thread := .test
      topics := blankTopic }
  have opened : (machine wholeWrites 0 pair).Run Aligned {} [.openCall blankTopic 3 0]
      start := by
    have run := Machine.Run.single (M := machine wholeWrites 0 pair) (s := {})
      (a := .openCall blankTopic 3 0) rfl (show Aligned {} (.openCall blankTopic 3 0) from trivial)
    change (machine wholeWrites 0 pair).Run Aligned {} _
      (openCall wholeWrites blankTopic 3 0 {}) at run
    rwa [openCall, if_pos ok] at run
  have rest : (machine wholeWrites 0 pair).Fires Aligned start
      ([.push (stamped 0), .close] ++ List.replicate 5 (.thread 0)) := by
    decide
  refine ⟨_, ?_, nothing_lost pair wholeWrites wholeWrites_succeed 0 _ _
    (opened.trans (Machine.run_of_fires rest)) (by decide)⟩
  decide

/-! A session that loses a record: the ring fills up, a push is refused and moves the write cursor
past a slot that is then emptied, and the next push is accepted behind it. -/

/-- Which slots of a ring are ready, where its cursors point, and how many records went in and out,
all with empty payloads. -/
structure Census (t : Ledger cap) (write read : Nat) (S : Nat → Prop) (accepted popped : Nat) :
    Prop where
  write : t.ring.writeIndex = UInt64.ofNat write
  read : t.ring.readIndex = UInt64.ofNat read
  ready : ∀ i, t.Ready i ↔ S i.val
  accepted : t.accepted.length = accepted
  popped : t.popped.length = popped
  empty : ∀ a ∈ t.accepted, a.len = 0

section Census

variable {t : Ledger cap} {write read accepted popped : Nat} {S : Nat → Prop}

theorem slot_ofNat (n : Nat) : (cap.slot (UInt64.ofNat n)).val = n % cap.val := by
  rw [cap.slot_val, UInt64.toNat_ofNat', Nat.mod_mod_of_dvd _ cap.dvd_size]

theorem ofNat_succ (n : Nat) : UInt64.ofNat n + 1 = UInt64.ofNat (n + 1) := by
  rw [UInt64.ofNat_add]
  rfl

theorem Census.push_accepted (h : Census t write read S accepted popped) {a : PushArgs}
    (empty : a.len = 0) (free : ¬ S (write % cap.val)) :
    Census (t.push a) (write + 1) read (fun i => i = write % cap.val ∨ S i) (accepted + 1)
      popped := by
  have accepts : t.Accepts a := by
    refine ⟨by rw [empty]; decide, ?_⟩
    rw [h.ready, h.write, slot_ofNat]
    exact free
  rw [t.push_accepted accepts]
  refine ⟨?_, h.read, ?_, by simp [h.accepted], h.popped, ?_⟩
  · simp only [h.write]
    exact ofNat_succ write
  · intro i
    have slot : i = cap.slot t.ring.writeIndex ↔ i.val = write % cap.val := by
      rw [Fin.ext_iff, h.write, slot_ofNat]
    by_cases hi : i = cap.slot t.ring.writeIndex
    · have filled : i.val = write % cap.val ∨ S i.val := .inl (slot.mp hi)
      simp only [Ledger.Ready, hi, Function.update_self, Slot.fill]
      simpa [← hi] using filled
    · have other : ¬ i.val = write % cap.val := fun same => hi (slot.mpr same)
      simp only [Ledger.Ready, Function.update_of_ne hi, other, false_or]
      exact h.ready i
  · intro b hb
    rcases List.mem_append.mp hb with old | new
    · exact h.empty b old
    · obtain rfl := List.mem_singleton.mp new
      exact empty

theorem Census.push_refused (h : Census t write read S accepted popped) {a : PushArgs}
    (empty : a.len = 0) (busy : S (write % cap.val)) :
    Census (t.push a) (write + 1) read S accepted popped := by
  have ready : (t.ring.slots (cap.slot t.ring.writeIndex)).ready = true := by
    apply (h.ready _).mpr
    rw [h.write, slot_ofNat]
    exact busy
  have eq : t.push a = { t with ring := { t.ring with
      writeIndex := t.ring.writeIndex + 1, droppedCount := t.ring.droppedCount + 1 } } := by
    rw [Ledger.push, MpscRingBuffer.tryPush_rejected (by rw [empty]; decide) ready]
  rw [eq]
  refine ⟨?_, h.read, h.ready, h.accepted, h.popped, h.empty⟩
  simp only [h.write]
  exact ofNat_succ write

theorem Census.pop_ready (h : Census t write read S accepted popped)
    (busy : S (read % cap.val)) (out : PoppedRecord) :
    t.Ready (cap.slot t.ring.readIndex) ∧ Census (t.pop out) write (read + 1)
      (fun i => i ≠ read % cap.val ∧ S i) accepted (popped + 1) := by
  have ready : t.Ready (cap.slot t.ring.readIndex) := by
    rw [h.ready, h.read, slot_ofNat]
    exact busy
  refine ⟨ready, ?_⟩
  rw [t.pop_ready ready]
  refine ⟨h.write, ?_, ?_, h.accepted, by simp [h.popped], h.empty⟩
  · simp only [h.read]
    exact ofNat_succ read
  · intro i
    have slot : i = cap.slot t.ring.readIndex ↔ i.val = read % cap.val := by
      rw [Fin.ext_iff, h.read, slot_ofNat]
    by_cases hi : i = cap.slot t.ring.readIndex
    · have here : i.val = read % cap.val := slot.mp hi
      simp only [Ledger.Ready, ← hi, Function.update_self, here, ne_eq, not_true_eq_false,
        false_and, Bool.false_eq_true]
    · have other : i.val ≠ read % cap.val := fun same => hi (slot.mpr same)
      simp only [Ledger.Ready, Function.update_of_ne hi, other, ne_eq, not_false_eq_true, true_and]
      exact h.ready i

theorem Census.congr (h : Census t write read S accepted popped) {S' : Nat → Prop}
    (same : ∀ i < cap.val, S i ↔ S' i) : Census t write read S' accepted popped :=
  { h with ready := fun i => (h.ready i).trans (same i i.isLt) }

end Census

/-- The writer thread at `pc`, with the ring as counted. -/
structure Stage (w : RecordWriter cap) (pc : ThreadPc) (closed : Bool)
    (write read : Nat) (S : Nat → Prop) (accepted popped : Nat) : Prop where
  thread : w.thread = pc
  closing : w.closing = closed
  shutdown : w.shutdown = closed
  openedAt : w.openedAt = 0
  closedAt : closed = true → w.closedAt = accepted
  census : Census w.ledger write read S accepted popped

section Stage

variable {flushInterval : Int} {pc : ThreadPc} {closed : Bool}
  {write read accepted popped : Nat} {S : Nat → Prop}

/-- A push without payload. -/
def blank : Step := .push (stamped 0)

/-- A state the machine comes to from `w` by the given steps. -/
def Reaches (host : Host) (flushInterval : Int) (w : RecordWriter cap) (steps : List Step)
    (P : RecordWriter cap → Prop) : Prop :=
  ∃ v, (machine host flushInterval cap).Run Machine.Free w steps v ∧ P v

theorem Reaches.trans {steps more : List Step} {P Q : RecordWriter cap → Prop}
    (first : Reaches host flushInterval w steps P)
    (second : ∀ v, P v → Reaches host flushInterval v more Q) :
    Reaches host flushInterval w (steps ++ more) Q := by
  obtain ⟨v, run, hP⟩ := first
  obtain ⟨u, rest, hQ⟩ := second v hP
  exact ⟨u, run.trans rest, hQ⟩

theorem reaches_thread (running : w.thread ≠ .none) (busy : w.thread ≠ .done)
    {P : RecordWriter cap → Prop} (h : P (w.writerThreadMain host flushInterval 0)) :
    Reaches host flushInterval w [.thread 0] P :=
  ⟨_, Machine.Run.single ⟨running, busy⟩ trivial, h⟩

theorem Stage.congr (stage : Stage w pc closed write read S accepted popped) (S' : Nat → Prop)
    (same : ∀ i < cap.val, S i ↔ S' i) : Stage w pc closed write read S' accepted popped :=
  { stage with census := stage.census.congr same }

/-- A push whose slot is still ready is refused, and moves the write cursor all the same. -/
theorem Stage.refuse (w : RecordWriter cap) (stage : Stage w pc false write read S accepted popped)
    (busy : S (write % cap.val)) :
    Reaches host flushInterval w [blank] (fun v =>
      Stage v pc false (write + 1) read S accepted popped) :=
  ⟨_, Machine.Run.single trivial trivial, stage.thread, stage.closing, stage.shutdown,
    stage.openedAt, fun h => absurd h (by simp), stage.census.push_refused rfl busy⟩

/-- The test at the head of the outer loop, with no Close yet. -/
theorem Stage.wake (w : RecordWriter cap)
    (stage : Stage w .test false write read S accepted popped) :
    Reaches host flushInterval w [.thread 0] (fun v =>
      Stage v (.drain false) false write read S accepted popped) := by
  apply reaches_thread (by simp [stage.thread]) (by simp [stage.thread])
  have eq : w.writerThreadMain host flushInterval 0 = { w with thread := .drain false } := by
    rw [writerThreadMain, stage.thread]
    simp [stage.shutdown]
  rw [eq]
  exact ⟨rfl, stage.closing, stage.shutdown, stage.openedAt, stage.closedAt, stage.census⟩

theorem Stage.callClose (w : RecordWriter cap)
    (stage : Stage w pc false write read S accepted popped) (running : pc ≠ .none) :
    Reaches host flushInterval w [.close] (fun v =>
      Stage v pc true write read S accepted popped) := by
  refine ⟨_, Machine.Run.single stage.closing trivial, ?_⟩
  change Stage w.close pc true write read S accepted popped
  rw [close, if_neg (by rw [stage.thread]; exact running)]
  exact ⟨stage.thread, rfl, rfl, stage.openedAt, fun _ => stage.census.accepted, stage.census⟩

/-- Pushes into free slots, one after the other. -/
theorem Stage.fill (k : Nat) (w : RecordWriter cap)
    (stage : Stage w pc false write read S accepted popped)
    (room : ∀ j < k, ∀ i, (S i ∨ ∃ l < j, i = (write + l) % cap.val) → i ≠ (write + j) % cap.val) :
    Reaches host flushInterval w (List.replicate k blank) (fun v =>
      Stage v pc false (write + k) read (fun i => S i ∨ ∃ l < k, i = (write + l) % cap.val)
        (accepted + k) popped) := by
  induction k with
  | zero =>
      refine ⟨w, .nil, { stage with census := stage.census.congr ?_ }⟩
      intro i _
      simp
  | succ k ih =>
      rw [List.replicate_succ']
      refine (ih (fun j hj => room j (by omega))).trans ?_
      intro v stage
      refine ⟨_, Machine.Run.single trivial trivial, ⟨stage.thread, stage.closing, stage.shutdown,
        stage.openedAt, fun h => absurd h (by simp), ?_⟩⟩
      have free := fun h => room k (by omega) _ h rfl
      apply (stage.census.push_accepted rfl free).congr
      intro i _
      constructor
      · rintro (here | old | ⟨l, hl, eq⟩)
        · exact .inr ⟨k, by omega, here⟩
        · exact .inl old
        · exact .inr ⟨l, by omega, eq⟩
      · rintro (old | ⟨l, hl, eq⟩)
        · exact .inr (.inl old)
        · rcases Nat.lt_succ_iff_lt_or_eq.mp hl with less | rfl
          · exact .inr (.inr ⟨l, less, eq⟩)
          · exact .inl eq

/-- The inner loop pops a record and writes it. -/
theorem Stage.drainOne (w : RecordWriter cap) {any : Bool}
    (stage : Stage w (.drain any) closed write read S accepted popped)
    (busy : S (read % cap.val)) :
    Reaches host flushInterval w [.thread 0, .thread 0] (fun v =>
      Stage v (.drain true) closed write (read + 1) (fun i => i ≠ read % cap.val ∧ S i) accepted
        (popped + 1)) := by
  obtain ⟨ready, census⟩ := stage.census.pop_ready busy w.record
  obtain ⟨n, rec, eq, -⟩ := w.tryPop_true (.write any) (.rest any) ready
  have popStep : w.writerThreadMain host flushInterval 0 =
      { w with ledger := w.ledger.pop w.record, record := rec, thread := .write any } := by
    rw [writerThreadMain, stage.thread]
    exact eq
  have first : Reaches host flushInterval w [.thread 0] (fun v =>
      Stage v (.write any) closed write (read + 1) (fun i => i ≠ read % cap.val ∧ S i) accepted
        (popped + 1)) := by
    apply reaches_thread (by simp [stage.thread]) (by simp [stage.thread])
    rw [popStep]
    exact ⟨rfl, stage.closing, stage.shutdown, stage.openedAt, stage.closedAt, census⟩
  refine first.trans ?_
  intro v stage
  apply reaches_thread (by simp [stage.thread]) (by simp [stage.thread])
  rw [writerThreadMain, stage.thread]
  exact ⟨rfl, stage.closing, stage.shutdown, stage.openedAt, stage.closedAt, stage.census⟩

/-- `k` rounds of the inner loop. -/
theorem Stage.drain (k : Nat) (w : RecordWriter cap)
    (stage : Stage w (.drain true) closed write read S accepted popped)
    (busy : ∀ j < k, S ((read + j) % cap.val) ∧
      ∀ l < j, (read + j) % cap.val ≠ (read + l) % cap.val) :
    Reaches host flushInterval w (List.replicate k [Step.thread 0, .thread 0]).flatten (fun v =>
      Stage v (.drain true) closed write (read + k)
        (fun i => (∀ l < k, i ≠ (read + l) % cap.val) ∧ S i) accepted (popped + k)) := by
  induction k with
  | zero =>
      refine ⟨w, .nil, { stage with census := stage.census.congr ?_ }⟩
      intro i _
      simp
  | succ k ih =>
      rw [List.replicate_succ', List.flatten_append]
      refine (ih (fun j hj => busy j (by omega))).trans ?_
      intro v stage
      obtain ⟨ready, fresh⟩ := busy k (by omega)
      obtain ⟨u, run, next⟩ := stage.drainOne v ⟨fresh, ready⟩
      refine ⟨u, by simpa using run, { next with census := next.census.congr ?_ }⟩
      intro i _
      constructor
      · rintro ⟨here, before, old⟩
        refine ⟨?_, old⟩
        intro l hl
        rcases Nat.lt_succ_iff_lt_or_eq.mp hl with less | rfl
        · exact before l less
        · exact here
      · rintro ⟨all, old⟩
        exact ⟨all k (by omega), fun l hl => all l (by omega), old⟩

/-- Behind the records that could be popped the thread runs out of the loops, without a look at
what lies behind the empty slot. -/
theorem Stage.giveUp (w : RecordWriter cap)
    (stage : Stage w (.drain true) true write read S accepted popped)
    (free : ¬ S (read % cap.val)) :
    Reaches host flushInterval w (List.replicate 5 (.thread 0)) (fun v =>
      Stage v .done true write read S accepted popped) := by
  have unready : ∀ {v : RecordWriter cap}, Census v.ledger write read S accepted popped →
      ¬ v.ledger.Ready (cap.slot v.ledger.ring.readIndex) := by
    intro v census
    rw [census.ready, census.read, slot_ofNat]
    exact free
  have step : ∀ (pc next : ThreadPc), pc ≠ .none → pc ≠ .done →
      (∀ v : RecordWriter cap, Stage v pc true write read S accepted popped → ∃ out,
        v.writerThreadMain host flushInterval 0 = { v with out := out, thread := next }) →
      ∀ v : RecordWriter cap, Stage v pc true write read S accepted popped →
        Reaches host flushInterval v [.thread 0] (fun u =>
          Stage u next true write read S accepted popped) := by
    intro pc next running busy moves v stage
    obtain ⟨out, eq⟩ := moves v stage
    apply reaches_thread (by rw [stage.thread]; exact running) (by rw [stage.thread]; exact busy)
    rw [eq]
    exact ⟨rfl, stage.closing, stage.shutdown, stage.openedAt, stage.closedAt, stage.census⟩
  have toRest := step (.drain true) (.rest true) (by simp) (by simp) (by
    intro v stage
    rw [writerThreadMain, stage.thread]
    exact ⟨v.out, v.tryPop_false _ _ (unready stage.census)⟩)
  have toTest := step (.rest true) .test (by simp) (by simp) (by
    intro v stage
    rw [writerThreadMain, stage.thread]
    exact ⟨_, rfl⟩)
  have toLast := step .test .lastDrain (by simp) (by simp) (by
    intro v stage
    rw [writerThreadMain, stage.thread]
    exact ⟨v.out, by simp [stage.shutdown]⟩)
  have toFlush := step .lastDrain .lastFlush (by simp) (by simp) (by
    intro v stage
    rw [writerThreadMain, stage.thread]
    exact ⟨v.out, v.tryPop_false _ _ (unready stage.census)⟩)
  have toDone := step .lastFlush .done (by simp) (by simp) (by
    intro v stage
    rw [writerThreadMain, stage.thread]
    exact ⟨_, rfl⟩)
  exact (toRest w stage).trans fun v stage => (toTest v stage).trans fun v stage =>
    (toLast v stage).trans fun v stage => (toFlush v stage).trans fun v stage => toDone v stage

end Stage

/-- Fill the ring and have one push refused; the writer thread takes two records; one more push;
Close is called, and the writer thread runs to its end. -/
def lossySession : List Step :=
  [.openCall blankTopic 3 0] ++ List.replicate 4096 blank ++ [blank] ++ [.thread 0] ++
    [.thread 0, .thread 0] ++ [.thread 0, .thread 0] ++ [blank] ++ [.close] ++
    (List.replicate 4094 [Step.thread 0, .thread 0]).flatten ++ List.replicate 5 (.thread 0)

theorem lossySession_stage :
    Reaches wholeWrites 0 ({} : RecordWriter recorderRing) lossySession (fun v =>
      Stage v .done true 4098 4096 (fun i => i = 1) 4097 4096) := by
  have size : recorderRing.val = 4096 := rfl
  have opened : Reaches wholeWrites 0 ({} : RecordWriter recorderRing) [.openCall blankTopic 3 0]
      (fun v => Stage v .test false 0 0 (fun _ => False) 0 0) := by
    refine ⟨_, Machine.Run.single rfl trivial, ?_⟩
    change Stage (openCall wholeWrites blankTopic 3 0 {}) .test false 0 0 (fun _ => False) 0 0
    have ok := openFile_ok wholeWrites_succeed blankTopic (show (0 : Int) ≤ 3 by decide) 0 {}
    rw [openCall, if_pos ok]
    refine ⟨rfl, rfl, rfl, rfl, fun h => absurd h (by decide), rfl, rfl, ?_, rfl, rfl, ?_⟩
    · intro i
      exact ⟨fun h => Bool.false_ne_true h, False.elim⟩
    · intro a ha
      exact absurd ha List.not_mem_nil
  have filled := opened.trans (fun v stage => stage.fill 4096 v (by
    simp only [size]
    rintro j hj i (none | ⟨l, hl, rfl⟩)
    · exact none.elim
    · omega))
  have full := filled.trans (fun v stage => Stage.refuse v (stage.congr (fun _ => True) (by
    simp only [size]
    intro i hi
    exact ⟨fun _ => trivial, fun _ => .inr ⟨i, hi, by omega⟩⟩)) trivial)
  have awake := full.trans (fun v stage => Stage.wake v stage)
  have first := awake.trans (fun v stage => stage.drainOne v trivial)
  have second := first.trans (fun v stage => stage.drainOne v (by simp [size]))
  have behind := second.trans (fun v stage => stage.fill 1 v (by
    simp only [size]
    rintro j hj i (⟨ne, -⟩ | ⟨l, hl, -⟩)
    · omega
    · omega))
  have closed := behind.trans (fun v stage => Stage.callClose v
    (stage.congr (fun i => 1 ≤ i) (by
      simp only [size]
      intro i hi
      constructor
      · rintro (⟨-, ne, -⟩ | ⟨l, hl, eq⟩)
        · omega
        · omega
      · intro pos
        by_cases one : i = 1
        · exact .inr ⟨0, by omega, by omega⟩
        · exact .inl ⟨by omega, by omega, trivial⟩)) (by simp))
  have drained := closed.trans (fun v stage => stage.drain 4094 v (by
    simp only [size]
    intro j hj
    exact ⟨by omega, fun l hl => by omega⟩))
  exact drained.trans (fun v stage => (stage.congr (fun i => i = 1) (by
    simp only [size]
    intro i hi
    constructor
    · rintro ⟨all, pos⟩
      by_contra ne
      exact all (i - 2) (by omega) (by omega)
    · rintro rfl
      exact ⟨fun l hl => by omega, Nat.le_refl _⟩)).giveUp v (by simp [size]))

theorem length_recordBytes_flatten (rs : List Record) :
    (rs.map recordBytes).flatten.length =
      WireFormat.kRecordHeaderWireSize * rs.length + (rs.map (fun r => r.bytes.length)).sum := by
  induction rs with
  | nil => rfl
  | cons r rs ih =>
      simp only [List.map_cons, List.flatten_cons, List.length_append, ih, recordBytes,
        WireFormat.RecordHeader.length_bytes, List.length_cons, List.sum_cons, Nat.mul_succ]
      omega

private theorem filterMap_getElem? {α : Type*} (l : List α) :
    (List.range l.length).filterMap (fun n => l[n]?) = l := by
  induction l using List.reverseRecOn with
  | nil => rfl
  | append_singleton l a ih =>
      have before : (List.range l.length).filterMap (fun n => (l ++ [a])[n]?) = l := by
        rw [List.filterMap_congr (g := fun n => l[n]?), ih]
        intro n hn
        exact List.getElem?_append_left (List.mem_range.mp hn)
      rw [List.length_append, List.length_singleton, List.range_succ, List.filterMap_append, before]
      simp

/-- In the first session every record accepted before Close is promised. -/
theorem promised_of_first (first : w.openedAt = 0)
    (closed : w.closedAt = w.ledger.accepted.length) :
    w.promised = w.ledger.accepted.map PushArgs.record := by
  have everything : (List.range w.closedAt).filter
      (fun n => n ∉ (w.ledger.popped.take w.openedAt).map Prod.fst) = List.range w.closedAt := by
    rw [List.filter_eq_self, first]
    simp
  have all := filterMap_getElem? (w.ledger.accepted.map PushArgs.record)
  rw [List.length_map] at all
  rw [promised, everything, closed]
  exact all

/-- 4097 records were accepted before Close, 4096 are in the file. -/
theorem close_loses_record :
    wholeWrites.io.Succeed ∧ ∃ w : RecordWriter recorderRing,
      (machine wholeWrites 0 recorderRing).Run Machine.Free {} lossySession w ∧
        (machine wholeWrites 0 recorderRing).Enabled w .join ∧
          ¬ NothingLost wholeWrites w.join := by
  obtain ⟨w, run, stage⟩ := lossySession_stage
  refine ⟨wholeWrites_succeed, w, run, ⟨stage.closing, stage.thread⟩, ?_⟩
  have inv : Sound Machine.Free wholeWrites w :=
    sound_of_run wholeWrites_succeed (fun _ _ => trivial) (fun _ _ _ => trivial) run
  have conserved : Ledger.Conserved w.ledger := by
    obtain ⟨ops, history⟩ := inv.history
    exact Ledger.conserved_of_run history
  rintro ⟨rs, file, subperm⟩
  have whole : w.out.disk.file =
      headerBytes wholeWrites.createdAtNs w.topics ++ (w.session.map recordBytes).flatten := by
    obtain ⟨-, file⟩ := inv.file (by simp [stage.thread])
    rwa [inHand, if_neg (by simp [stage.thread, ThreadPc.holds]), List.append_nil] at file
  have file : w.out.disk.file =
      headerBytes wholeWrites.createdAtNs w.topics ++ (rs.map recordBytes).flatten :=
    (close_file w.out).symm.trans file
  have same := congrArg List.length (List.append_cancel_left (file.symm.trans whole))
  have blank_bytes : (w.session.map (fun r => r.bytes.length)).sum = 0 := by
    rw [List.sum_eq_zero_iff]
    intro n hn
    obtain ⟨r, hr, rfl⟩ := List.mem_map.mp hn
    obtain ⟨p, hp, rfl⟩ := List.mem_map.mp hr
    obtain ⟨a, found, agrees⟩ := conserved.agrees (List.mem_of_mem_drop hp)
    have len := stage.census.empty a (List.mem_of_getElem? found)
    rw [← agrees.payloadLen] at len
    simp [PoppedRecord.record, len]
  have written : w.session.length = 4096 := by
    rw [session, List.length_map, List.length_drop, stage.openedAt, stage.census.popped]
  have owed : w.promised.length = 4097 := by
    have accepted := stage.census.accepted
    rw [promised_of_first stage.openedAt ((stage.closedAt rfl).trans accepted.symm),
      List.length_map, accepted]
  rw [length_recordBytes_flatten, length_recordBytes_flatten, blank_bytes, written] at same
  have enough : w.promised.length ≤ rs.length := subperm.length_le
  rw [owed] at enough
  have header : WireFormat.kRecordHeaderWireSize = 18 := rfl
  rw [header] at same
  omega

end ChronoCap.WriterThread.RecordWriter

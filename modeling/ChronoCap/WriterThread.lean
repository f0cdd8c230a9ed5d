/- module: ChronoCap/WriterThread
   source: src/core/record_writer.cpp, include/chrono_cap/record_writer.hpp
   digest: Open, Push and Close against the steps of WriterThreadMain, over any number of
           sessions, and what the file of a session holds at each step. -/

import ChronoCap.Foundation.Machine
import ChronoCap.RecordWriter
import ChronoCap.Ring.Ledger

set_option autoImplicit false
set_option relaxedAutoImplicit false

namespace ChronoCap.WriterThread

open ChronoCap.Foundation
open ChronoCap.Ring

/-- Where the writer thread stands in WriterThreadMain; `any` is `drained_any`. -/
inductive ThreadPc where
  /-- no thread to join -/
  | none
  /-- the test of `shutdown_` at the head of the outer loop -/
  | test
  /-- TryPop of the inner loop comes next -/
  | drain (any : Bool)
  | write (any : Bool)
  /-- MaybeFlush, or the idle sleep -/
  | rest (any : Bool)
  /-- TryPop of the final drain comes next -/
  | lastDrain
  | lastWrite
  | lastFlush
  /-- returned, to be joined -/
  | done
  deriving DecidableEq, Repr

/-- The record at hand is popped and not yet written. -/
def ThreadPc.holds : ThreadPc → Bool
  | .write _ => true
  | .lastWrite => true
  | _ => false

/-- Behind the outer loop. -/
def ThreadPc.last : ThreadPc → Bool
  | .lastDrain => true
  | .lastWrite => true
  | .lastFlush => true
  | .done => true
  | _ => false

/-- Behind the final drain. -/
def ThreadPc.gaveUp : ThreadPc → Bool
  | .lastFlush => true
  | .done => true
  | _ => false

/-- A RecordWriter with its ring's history. `record` is the writer thread's local record, `closing`
says that a Close waits in join(). Of the session: its topics, how many records had been popped
when it was opened, and how many had been accepted when Close was called. -/
structure RecordWriter (cap : Capacity) where
  ledger : Ledger cap := .init
  shutdown : Bool := false
  out : Output := {}
  thread : ThreadPc := .none
  record : PoppedRecord := {}
  closing : Bool := false
  topics : List TopicInfo := []
  openedAt : Nat := 0
  closedAt : Nat := 0

/-- The ring of the recorder has 4096 slots. -/
def recorderRing : Capacity := ⟨4096, by decide, by decide, by decide⟩

inductive Step where
  /-- any thread calls Push -/
  | push (a : PushArgs)
  /-- the owner calls Open; ::open answers `fd` -/
  | openCall (topics : List TopicInfo) (fd now : Int)
  /-- the writer thread makes its next step, with this time on the clock -/
  | thread (now : Int)
  /-- the owner calls Close -/
  | close
  /-- join() returns, and Close goes on -/
  | join

def Output.close (o : Output) : Output := if 0 ≤ o.binFd then { o.fsync with binFd := -1 } else o

namespace RecordWriter

variable {cap : Capacity}

/-- `while (ring_.TryPop(rec))`: on to `popped` with a record, or to `empty` without. -/
def tryPop (w : RecordWriter cap) (popped empty : ThreadPc) : RecordWriter cap :=
  let answer := w.ledger.ring.tryPop w.record
  { w with
    ledger := w.ledger.pop w.record
    record := answer.2.1
    thread := if answer.1 then popped else empty }

def write (host : Host) (w : RecordWriter cap) (next : ThreadPc) : RecordWriter cap :=
  { w with out := (writeRecord host w.out w.record).2, thread := next }

def writerThreadMain (host : Host) (flushInterval now : Int) (w : RecordWriter cap) :
    RecordWriter cap :=
  match w.thread with
  | .test => { w with thread := if w.shutdown then .lastDrain else .drain false }
  | .drain any => w.tryPop (.write any) (.rest any)
  | .write _ => w.write host (.drain true)
  | .rest any =>
      { w with out := if any then w.out.maybeFlush flushInterval now else w.out, thread := .test }
  | .lastDrain => w.tryPop .lastWrite .lastFlush
  | .lastWrite => w.write host .lastDrain
  | .lastFlush => { w with out := w.out.maybeFlush flushInterval now, thread := .done }
  | .none => w
  | .done => w

def openCall (host : Host) (topics : List TopicInfo) (fd now : Int) (w : RecordWriter cap) :
    RecordWriter cap :=
  let answer := w.out.openFile host topics fd now
  if answer.1 then
    { w with
      out := answer.2, shutdown := false, thread := .test, topics
      openedAt := w.ledger.popped.length }
  else { w with out := answer.2 }

def close (w : RecordWriter cap) : RecordWriter cap :=
  if w.thread = .none then { w with out := Output.close w.out }
  else { w with shutdown := true, closing := true, closedAt := w.ledger.accepted.length }

def join (w : RecordWriter cap) : RecordWriter cap :=
  { w with thread := .none, closing := false, out := Output.close w.out }

/-- Open and Close are called by one owner, one after the other, and Open not while a writer
thread runs. -/
def machine (host : Host) (flushInterval : Int) (cap : Capacity) :
    Machine (RecordWriter cap) Step where
  Enabled w
    | .push _ => True
    | .openCall _ _ _ => w.thread = .none
    | .thread _ => w.thread ≠ .none ∧ w.thread ≠ .done
    | .close => w.closing = false
    | .join => w.closing = true ∧ w.thread = .done
  next w
    | .push a => { w with ledger := w.ledger.push a }
    | .openCall topics fd now => w.openCall host topics fd now
    | .thread now => w.writerThreadMain host flushInterval now
    | .close => w.close
    | .join => w.join

instance (host : Host) (flushInterval : Int) (w : RecordWriter cap) :
    DecidablePred ((machine host flushInterval cap).Enabled w)
  | .push _ => .isTrue trivial
  | .openCall _ _ _ => inferInstanceAs (Decidable (w.thread = .none))
  | .thread _ => inferInstanceAs (Decidable (w.thread ≠ .none ∧ w.thread ≠ .done))
  | .close => inferInstanceAs (Decidable (w.closing = false))
  | .join => inferInstanceAs (Decidable (w.closing = true ∧ w.thread = .done))

/-! What holds in every run of a kernel whose write() does not fail. -/

/-- The records popped in this session, in the order they were popped. -/
def session (w : RecordWriter cap) : List Record :=
  (w.ledger.popped.drop w.openedAt).map (fun p => p.2.record)

/-- The encoding the writer thread still has to write. -/
def inHand (w : RecordWriter cap) : List UInt8 :=
  if w.thread.holds then recordBytes w.record.record else []

/-- `G` is what is known of the pushes and pops of the run. -/
structure Sound (G : Ledger cap → Op → Prop) (host : Host) (w : RecordWriter cap) : Prop where
  history : ∃ ops, (Ledger.machine cap).Run G .init ops w.ledger
  openedAt : w.openedAt ≤ w.ledger.popped.length
  file : w.thread ≠ .none → 0 ≤ w.out.binFd ∧ w.out.disk.file ++ w.inHand =
    headerBytes host.createdAtNs w.topics ++ (w.session.map recordBytes).flatten
  idle : w.thread = .none → w.closing = false
  shutdown : w.thread ≠ .none → w.shutdown = true → w.closing = true
  last : w.thread.last = true → w.closing = true
  closedAt : w.closing = true → w.closedAt ≤ w.ledger.accepted.length

variable {G : Ledger cap → Op → Prop} {host : Host} {w : RecordWriter cap}

theorem sound_init : Sound G host ({} : RecordWriter cap) where
  history := ⟨[], .nil⟩
  openedAt := Nat.le_refl _
  file h := absurd rfl h
  idle _ := rfl
  shutdown h := absurd rfl h
  last h := absurd h Bool.false_ne_true
  closedAt h := absurd h Bool.false_ne_true

theorem length_accepted_push (t : Ledger cap) (a : PushArgs) :
    t.accepted.length ≤ (t.push a).accepted.length := by
  rw [t.accepted_push]
  split
  · rw [List.length_append]
    exact Nat.le_add_right _ _
  · exact Nat.le_refl _

theorem Sound.push (inv : Sound G host w) {a : PushArgs} (meets : G w.ledger (.push a)) :
    Sound G host { w with ledger := w.ledger.push a } where
  history := by
    obtain ⟨ops, run⟩ := inv.history
    exact ⟨_, run.snoc (a := .push a) trivial meets⟩
  openedAt := by
    rw [Ledger.popped_push]
    exact inv.openedAt
  file h := by
    have same : session { w with ledger := w.ledger.push a } = w.session := by
      rw [session, Ledger.popped_push, session]
    rw [same]
    exact inv.file h
  idle := inv.idle
  shutdown := inv.shutdown
  last := inv.last
  closedAt h := Nat.le_trans (inv.closedAt h) (length_accepted_push w.ledger a)

/-- A pop with a record hands over the record that the ledger logs. -/
theorem tryPop_true (w : RecordWriter cap) (popped empty : ThreadPc)
    (ready : w.ledger.Ready (cap.slot w.ledger.ring.readIndex)) :
    ∃ n rec, w.tryPop popped empty =
      { w with ledger := w.ledger.pop w.record, record := rec, thread := popped } ∧
        (w.ledger.pop w.record).popped = w.ledger.popped ++ [(n, rec)] := by
  refine ⟨w.ledger.owner (cap.slot w.ledger.ring.readIndex),
    (w.ledger.ring.slots (cap.slot w.ledger.ring.readIndex)).readInto w.record, ?_, ?_⟩
  · unfold tryPop
    rw [MpscRingBuffer.tryPop_ready ready]
    rfl
  · rw [w.ledger.pop_ready ready]

theorem tryPop_false (w : RecordWriter cap) (popped empty : ThreadPc)
    (free : ¬ w.ledger.Ready (cap.slot w.ledger.ring.readIndex)) :
    w.tryPop popped empty = { w with thread := empty } := by
  have clear : (w.ledger.ring.slots (cap.slot w.ledger.ring.readIndex)).ready = false := by
    simpa [Ledger.Ready] using free
  unfold tryPop
  rw [MpscRingBuffer.tryPop_empty clear, w.ledger.pop_empty free]
  rfl

/-- What a step of the writer thread does: it asks the ring for a record, writes the one in hand,
or has none in hand and moves on. -/
inductive ThreadStep (host : Host) (w : RecordWriter cap) : RecordWriter cap → Prop where
  | pop {popped empty : ThreadPc} (free : w.thread.holds = false)
      (running_popped : popped ≠ .none) (holds : popped.holds = true)
      (running_empty : empty ≠ .none) (lets_go : empty.holds = false)
      (last_popped : popped.last = w.thread.last) (last_empty : empty.last = w.thread.last) :
      ThreadStep host w (w.tryPop popped empty)
  | write {next : ThreadPc} (holds : w.thread.holds = true) (running : next ≠ .none)
      (lets_go : next.holds = false) (last : next.last = w.thread.last) :
      ThreadStep host w (w.write host next)
  | move {out : Output} {next : ThreadPc} (free : w.thread.holds = false) (running : next ≠ .none)
      (lets_go : next.holds = false)
      (last : next.last = true → w.thread.last = true ∨ w.shutdown = true)
      (fd : out.binFd = w.out.binFd) (file : out.disk.file = w.out.disk.file) :
      ThreadStep host w { w with out, thread := next }

theorem threadStep (host : Host) (flushInterval now : Int) (w : RecordWriter cap)
    (running : w.thread ≠ .none) :
    ThreadStep host w (w.writerThreadMain host flushInterval now) := by
  cases pc : w.thread with
  | none => exact absurd pc running
  | test =>
      simp only [writerThreadMain, pc]
      by_cases stop : w.shutdown = true
      · rw [if_pos stop]
        exact .move (by rw [pc]; rfl) (by simp) rfl (fun _ => .inr stop) rfl rfl
      · rw [if_neg stop]
        exact .move (by rw [pc]; rfl) (by simp) rfl (fun h => absurd h Bool.false_ne_true) rfl rfl
  | drain any =>
      rw [writerThreadMain, pc]
      exact .pop (by rw [pc]; rfl) (by simp) rfl (by simp) rfl (by rw [pc]; rfl) (by rw [pc]; rfl)
  | write any =>
      rw [writerThreadMain, pc]
      exact .write (by rw [pc]; rfl) (by simp) rfl (by rw [pc]; rfl)
  | rest any =>
      rw [writerThreadMain, pc]
      refine .move (by rw [pc]; rfl) (by simp) rfl (fun h => absurd h Bool.false_ne_true) ?_ ?_
      · cases any <;> simp
      · cases any <;> simp
  | lastDrain =>
      rw [writerThreadMain, pc]
      exact .pop (by rw [pc]; rfl) (by simp) rfl (by simp) rfl (by rw [pc]; rfl) (by rw [pc]; rfl)
  | lastWrite =>
      rw [writerThreadMain, pc]
      exact .write (by rw [pc]; rfl) (by simp) rfl (by rw [pc]; rfl)
  | lastFlush =>
      rw [writerThreadMain, pc]
      exact .move (by rw [pc]; rfl) (by simp) rfl (fun _ => .inl (by rw [pc]; rfl))
        (maybeFlush_binFd _ _ _) (maybeFlush_file _ _ _)
  | done =>
      rw [writerThreadMain, pc]
      exact .move (by rw [pc]; rfl) running (by rw [pc]; rfl) .inl rfl rfl

/-- A step of the thread, seen from the ring: a record goes in hand, or nothing changes there and
none is in hand. -/
structure Moves (w v : RecordWriter cap) : Prop where
  openedAt : v.openedAt = w.openedAt
  topics : v.topics = w.topics
  running : v.thread ≠ .none
  ring : (v.ledger = w.ledger ∧ v.thread.holds = false) ∨
    ∃ n, v.ledger = w.ledger.pop w.record ∧
      v.ledger.popped = w.ledger.popped ++ [(n, v.record)]

variable {v : RecordWriter cap}

theorem Moves.accepted (moves : Moves w v) : v.ledger.accepted = w.ledger.accepted := by
  rcases moves.ring with ⟨same, -⟩ | ⟨n, popped, -⟩
  · rw [same]
  · rw [popped, Ledger.accepted_pop]

theorem Moves.conserved (moves : Moves w v) (conserved : w.ledger.Conserved) :
    v.ledger.Conserved := by
  rcases moves.ring with ⟨same, -⟩ | ⟨n, popped, -⟩
  · rw [same]
    exact conserved
  · rw [popped]
    exact conserved.pop _

/-- What is in hand behind a step was popped in it. -/
theorem Moves.hand (moves : Moves w v) (holds : v.thread.holds = true) :
    ∃ n, v.ledger.popped = w.ledger.popped ++ [(n, v.record)] := by
  rcases moves.ring with ⟨-, lets_go⟩ | ⟨n, -, logged⟩
  · exact absurd (lets_go.symm.trans holds) Bool.false_ne_true
  · exact ⟨n, logged⟩

theorem ThreadStep.moves (step : ThreadStep host w v) : Moves w v := by
  cases step with
  | @pop popped empty _ running_popped _ running_empty lets_go =>
      by_cases ready : w.ledger.Ready (cap.slot w.ledger.ring.readIndex)
      · obtain ⟨n, rec, eq, logged⟩ := w.tryPop_true popped empty ready
        rw [eq]
        exact ⟨rfl, rfl, running_popped, .inr ⟨n, rfl, logged⟩⟩
      · rw [w.tryPop_false popped empty ready]
        exact ⟨rfl, rfl, running_empty, .inl ⟨rfl, lets_go⟩⟩
  | write _ running lets_go => exact ⟨rfl, rfl, running, .inl ⟨rfl, lets_go⟩⟩
  | move _ running lets_go => exact ⟨rfl, rfl, running, .inl ⟨rfl, lets_go⟩⟩

theorem close_file (o : Output) : (Output.close o).disk.file = o.disk.file := by
  unfold Output.close
  split <;> rfl

/-- Seen from the file: the record in hand is written, or nothing is. -/
theorem ThreadStep.output (opened : 0 ≤ w.out.binFd) (step : ThreadStep host w v) :
    v.out.binFd = w.out.binFd ∧ v.out.disk.file =
      if w.thread.holds then (writeRecord host w.out w.record).2.disk.file
      else w.out.disk.file := by
  obtain ⟨kept, -⟩ := @writeRecord_file host w.out opened w.record
  cases step with
  | pop free =>
      rw [free]
      exact ⟨rfl, rfl⟩
  | write holds =>
      rw [holds]
      exact ⟨kept, rfl⟩
  | move free _ _ _ fd file =>
      rw [free]
      exact ⟨fd, file⟩

/-- Either drain loop: a record goes in hand, or the loop is left. -/
theorem Sound.tryPop (pops : ∀ t out, G t (.pop out)) (inv : Sound G host w)
    {popped empty : ThreadPc} (running : w.thread ≠ .none) (free : w.thread.holds = false)
    (running_popped : popped ≠ .none) (holds : popped.holds = true)
    (running_empty : empty ≠ .none) (lets_go : empty.holds = false)
    (last_popped : popped.last = w.thread.last) (last_empty : empty.last = w.thread.last) :
    Sound G host (w.tryPop popped empty) := by
  obtain ⟨opened, file⟩ := inv.file running
  rw [inHand, if_neg (by simp [free]), List.append_nil] at file
  by_cases ready : w.ledger.Ready (cap.slot w.ledger.ring.readIndex)
  · obtain ⟨n, rec, eq, logged⟩ := w.tryPop_true popped empty ready
    rw [eq]
    refine ⟨?_, ?_, ?_, fun h => absurd h running_popped, fun _ => inv.shutdown running, ?_, ?_⟩
    · obtain ⟨ops, run⟩ := inv.history
      exact ⟨_, run.snoc (a := .pop w.record) trivial (pops _ _)⟩
    · rw [logged, List.length_append]
      exact Nat.le_trans inv.openedAt (Nat.le_add_right _ _)
    · intro _
      refine ⟨opened, ?_⟩
      have more :
          session { w with ledger := w.ledger.pop w.record, record := rec, thread := popped } =
            w.session ++ [rec.record] := by
        simp only [session, logged]
        rw [List.drop_append_of_le_length inv.openedAt, List.map_append]
        rfl
      rw [more, inHand, if_pos holds, List.map_append, List.flatten_append, ← List.append_assoc,
        ← file]
      simp
    · intro h
      exact inv.last (last_popped ▸ h)
    · intro h
      rw [Ledger.accepted_pop]
      exact inv.closedAt h
  · rw [w.tryPop_false popped empty ready]
    refine ⟨inv.history, inv.openedAt, ?_, fun h => absurd h running_empty,
      fun _ => inv.shutdown running, fun h => inv.last (last_empty ▸ h), inv.closedAt⟩
    intro _
    refine ⟨opened, ?_⟩
    rw [inHand, if_neg (by simp [lets_go]), List.append_nil]
    exact file

/-- A step that writes what is in hand. -/
theorem Sound.write (succeed : host.io.Succeed) (inv : Sound G host w) {next : ThreadPc}
    (running : w.thread ≠ .none) (holds : w.thread.holds = true)
    (running_next : next ≠ .none) (lets_go : next.holds = false)
    (last_next : next.last = w.thread.last) : Sound G host (w.write host next) := by
  obtain ⟨opened, file⟩ := inv.file running
  obtain ⟨fd, k, -, appended, ok⟩ := @writeRecord_file host w.out opened w.record
  obtain rfl := ok.mp (writeRecord_ok succeed opened w.record)
  rw [List.take_length] at appended
  refine ⟨inv.history, inv.openedAt, ?_, fun h => absurd h running_next,
    fun _ => inv.shutdown running, fun h => inv.last (last_next ▸ h), inv.closedAt⟩
  intro _
  change 0 ≤ (writeRecord host w.out w.record).2.binFd ∧
    (writeRecord host w.out w.record).2.disk.file ++ inHand (w.write host next) = _
  rw [inHand, if_pos holds] at file
  rw [fd, appended, inHand, if_neg (by simpa [RecordWriter.write] using lets_go), List.append_nil]
  exact ⟨opened, file⟩

/-- A step of the thread that touches neither the ring nor the file's contents. -/
theorem Sound.move (inv : Sound G host w) {out : Output} {next : ThreadPc}
    (running : w.thread ≠ .none) (free : w.thread.holds = false)
    (running_next : next ≠ .none) (lets_go : next.holds = false)
    (last_next : next.last = true → w.closing = true)
    (fd : out.binFd = w.out.binFd) (file : out.disk.file = w.out.disk.file) :
    Sound G host { w with out := out, thread := next } := by
  refine ⟨inv.history, inv.openedAt, ?_, fun h => absurd h running_next,
    fun _ => inv.shutdown running, last_next, inv.closedAt⟩
  intro _
  have before := inv.file running
  rw [inHand, if_neg (by simp [free])] at before
  rw [inHand, if_neg (by simp [lets_go])]
  simp only [fd, file]
  exact before

theorem Sound.thread (pops : ∀ t out, G t (.pop out)) (succeed : host.io.Succeed)
    (inv : Sound G host w) (running : w.thread ≠ .none) (step : ThreadStep host w v) :
    Sound G host v := by
  cases step with
  | pop free running_popped holds running_empty lets_go last_popped last_empty =>
      exact inv.tryPop pops running free running_popped holds running_empty lets_go last_popped
        last_empty
  | write holds running_next lets_go last =>
      exact inv.write succeed running holds running_next lets_go last
  | move free running_next lets_go last fd file =>
      refine inv.move running free running_next lets_go ?_ fd file
      intro h
      rcases last h with behind | stop
      · exact inv.last behind
      · exact inv.shutdown running stop

theorem Sound.openCall (inv : Sound G host w) (idle : w.thread = .none) (topics : List TopicInfo)
    (fd now : Int) : Sound G host (w.openCall host topics fd now) := by
  have calm := inv.idle idle
  unfold RecordWriter.openCall
  dsimp only
  split
  · rename_i ok
    obtain ⟨opened, header⟩ := openFile_file ok
    refine ⟨inv.history, Nat.le_refl _, ?_, by simp, by simp, by simp [ThreadPc.last], ?_⟩
    · intro _
      refine ⟨opened, ?_⟩
      simp only [header, inHand, session, List.drop_length]
      simp [ThreadPc.holds]
    · simp [calm]
  · exact ⟨inv.history, inv.openedAt, fun h => absurd idle h, inv.idle,
      fun h => absurd idle h, inv.last, inv.closedAt⟩

theorem Sound.close (inv : Sound G host w) : Sound G host w.close := by
  unfold RecordWriter.close
  split
  · rename_i idle
    exact ⟨inv.history, inv.openedAt, fun h => absurd idle h, inv.idle,
      fun h => absurd idle h, inv.last, inv.closedAt⟩
  · rename_i running
    exact ⟨inv.history, inv.openedAt, inv.file, fun h => absurd h running, fun _ _ => rfl,
      fun _ => rfl, fun _ => Nat.le_refl _⟩

theorem Sound.join (inv : Sound G host w) : Sound G host w.join where
  history := inv.history
  openedAt := inv.openedAt
  file h := absurd rfl h
  idle _ := rfl
  shutdown h := absurd rfl h
  last h := absurd h (by simp [RecordWriter.join, ThreadPc.last])
  closedAt h := absurd h (by simp [RecordWriter.join])

theorem sound_of_run (succeed : host.io.Succeed) {flushInterval : Int}
    {allowed : RecordWriter cap → Step → Prop} (pops : ∀ t out, G t (.pop out))
    (pushes : ∀ w a, allowed w (.push a) → G w.ledger (.push a)) {steps : List Step}
    (run : (machine host flushInterval cap).Run allowed {} steps w) : Sound G host w := by
  apply run.invariant sound_init
  intro w step inv enabled meets
  cases step with
  | push a => exact inv.push (pushes w a meets)
  | openCall topics fd now => exact inv.openCall enabled topics fd now
  | thread now =>
      exact inv.thread pops succeed enabled.1 (threadStep host flushInterval now w enabled.1)
  | close => exact inv.close
  | join => exact inv.join

end RecordWriter

end ChronoCap.WriterThread

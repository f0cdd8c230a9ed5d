/- module: ChronoCap/PeriodicFlush
   source: src/core/record_writer.cpp, include/chrono_cap/record_writer.hpp
   digest: What is fsync'ed at the end of each iteration of WriterThreadMain: everything, unless the
           iteration was idle, or the 32-bit count of pending records has wrapped. -/

import ChronoCap.Shutdown

set_option autoImplicit false
set_option relaxedAutoImplicit false

namespace ChronoCap.PeriodicFlush

open ChronoCap.Foundation
open ChronoCap.Ring
open ChronoCap.WriterThread
open ChronoCap.WriterThread.RecordWriter

variable {cap : Capacity}

/-- A recorder with its history of writes: the records written since MaybeFlush last cleared
`pending_since_flush_`, those of them in the file of this session, and where in that file the last
of its records ends. -/
structure Counted (cap : Capacity) where
  writer : RecordWriter cap := {}
  sinceFlush : Nat := 0
  inFile : Nat := 0
  writtenEnd : Nat := 0

/-- The thread is about to call MaybeFlush. -/
def flushes : ThreadPc → Bool
  | .rest any => any
  | .lastFlush => true
  | _ => false

namespace Counted

/-- The step of the writer thread that has led to `writer`, with the counts brought up to date. -/
def thread (host : Host) (flushInterval now : Int) (c : Counted cap) : Counted cap :=
  let writer := c.writer.writerThreadMain host flushInterval now
  if c.writer.thread.holds then
    if (writeRecord host c.writer.out c.writer.record).1 then
      ⟨writer, c.sinceFlush + 1, c.inFile + 1, writer.out.disk.file.length⟩
    else { c with writer }
  else if flushes c.writer.thread ∧ c.writer.out.Due flushInterval now then
    { c with writer, sinceFlush := 0, inFile := 0 }
  else { c with writer }

def machine (host : Host) (flushInterval : Int) (cap : Capacity) : Machine (Counted cap) Step where
  Enabled c step := (WriterThread.RecordWriter.machine host flushInterval cap).Enabled c.writer step
  next c
    | .openCall topics fd now =>
        { c with writer := c.writer.openCall host topics fd now, inFile := 0, writtenEnd := 0 }
    | .thread now => c.thread host flushInterval now
    | step =>
        { c with
          writer := (WriterThread.RecordWriter.machine host flushInterval cap).next c.writer step }

instance (host : Host) (flushInterval : Int) (c : Counted cap) :
    DecidablePred ((machine host flushInterval cap).Enabled c) :=
  fun step => inferInstanceAs
    (Decidable ((WriterThread.RecordWriter.machine host flushInterval cap).Enabled c.writer step))

/-- The counts do not get in the way of the recorder. -/
theorem next_writer (host : Host) (flushInterval : Int) (c : Counted cap) (step : Step) :
    ((machine host flushInterval cap).next c step).writer =
      (WriterThread.RecordWriter.machine host flushInterval cap).next c.writer step := by
  cases step with
  | push a => rfl
  | openCall topics fd now => rfl
  | close => rfl
  | join => rfl
  | thread now =>
      change (c.thread host flushInterval now).writer = _
      unfold thread
      dsimp only
      split
      · split <;> rfl
      · split <;> rfl

/-- If the step ends an iteration of the outer loop at which the clock is `flush_interval_` past
the last flush, then all records written are fsync'ed and none is pending. -/
def Flushed (host : Host) (flushInterval : Int) (c : Counted cap) : Step → Prop
  | .thread now =>
      let after := c.thread host flushInterval now
      (∃ any, c.writer.thread = .rest any) → flushInterval ≤ now - after.writer.out.lastFlush →
        after.writtenEnd ≤ after.writer.out.disk.synced ∧ after.writer.out.pendingSinceFlush = 0
  | _ => True

/-- If the step ends an iteration of the outer loop when a flush is due, then there is nothing to
flush, or the iteration has popped a record and the number of records written since the last flush
is not a multiple of `2 ^ 32`. -/
def Noticed (flushInterval : Int) (c : Counted cap) : Step → Prop
  | .thread now => ∀ any, c.writer.thread = .rest any →
      flushInterval ≤ now - c.writer.out.lastFlush →
        (c.inFile = 0 ∧ 2 ^ 32 ∣ c.sinceFlush) ∨ (any = true ∧ ¬ 2 ^ 32 ∣ c.sinceFlush)
  | _ => True

/-- An open file whose records are all synced just if none was written since the last flush. -/
structure Synced (o : Output) (inFile writtenEnd : Nat) : Prop where
  opened : 0 ≤ o.binFd
  synced : o.disk.synced ≤ o.disk.file.length
  written : writtenEnd ≤ o.disk.file.length
  inFile : inFile = 0 ↔ writtenEnd ≤ o.disk.synced

/-- The counts against what the code has of them: a 32-bit counter, and a file with a synced
part. -/
structure Tracks (c : Counted cap) : Prop where
  pending : c.writer.out.pendingSinceFlush.toNat = c.sinceFlush % 2 ^ 32
  file : c.writer.thread ≠ .none → Synced c.writer.out c.inFile c.writtenEnd

variable {host : Host} {flushInterval now : Int} {c : Counted cap}

theorem tracks_init : Tracks ({} : Counted cap) where
  pending := rfl
  file h := absurd rfl h

/-- A step that leaves the thread where it is and what it has written. -/
theorem Tracks.keep (tracks : Tracks c) {writer : RecordWriter cap}
    (pending : writer.out.pendingSinceFlush = c.writer.out.pendingSinceFlush)
    (same : writer.thread ≠ .none → c.writer.thread ≠ .none ∧ writer.out = c.writer.out) :
    Tracks { c with writer } where
  pending := by
    rw [pending]
    exact tracks.pending
  file h := by
    obtain ⟨running, out⟩ := same h
    rw [out]
    exact tracks.file running

/-- What a step of the thread does to the file and the count. -/
theorem writerThreadMain_out (host : Host) (flushInterval now : Int) (w : RecordWriter cap) :
    (w.writerThreadMain host flushInterval now).out =
      if w.thread.holds then (writeRecord host w.out w.record).2
      else if flushes w.thread then w.out.maybeFlush flushInterval now else w.out := by
  unfold writerThreadMain
  cases w.thread <;> rfl

theorem length_recordBytes_pos (r : Record) : 0 < (recordBytes r).length := by
  rw [recordBytes, List.length_append, WireFormat.RecordHeader.length_bytes]
  exact Nat.lt_of_lt_of_le (by decide) (Nat.le_add_right _ _)

/-- A record in hand: written and counted, or not all of it written and not counted. -/
theorem Tracks.write (tracks : Tracks c) (running : c.writer.thread ≠ .none)
    (holds : c.writer.thread.holds = true) : Tracks (c.thread host flushInterval now) := by
  obtain ⟨opened, synced, written, inFile⟩ := tracks.file running
  obtain ⟨d, same, answer⟩ := writeRecord_cases host c.writer.out c.writer.record
  obtain ⟨-, k, -, file, ok⟩ := @writeRecord_file host c.writer.out opened c.writer.record
  have out := writerThreadMain_out host flushInterval now c.writer
  rw [if_pos holds] at out
  unfold thread
  rw [if_pos holds]
  rcases answer with failed | whole
  · rw [failed] at out file
    have longer : c.writer.out.disk.file.length ≤ d.file.length := by
      rw [file, List.length_append]
      exact Nat.le_add_right _ _
    rw [if_neg (by simp [failed])]
    constructor
    · rw [out]
      exact tracks.pending
    · intro _
      rw [out]
      refine ⟨opened, ?_, Nat.le_trans written longer, ?_⟩
      · simp only [same]
        omega
      · simp only [same]
        exact inFile
  · rw [whole] at out file ok
    obtain rfl := ok.mp rfl
    have longer : c.writer.out.disk.file.length < d.file.length := by
      rw [file, List.take_length, List.length_append]
      exact Nat.lt_add_of_pos_right (length_recordBytes_pos _)
    rw [if_pos (by simp [whole])]
    constructor
    · rw [out]
      simp only [UInt32.toNat_add, tracks.pending]
      simp
    · intro _
      rw [out]
      refine ⟨opened, ?_, Nat.le_refl _, ?_⟩
      · simp only [same]
        omega
      · simp only [same]
        omega

/-- A flush that gets through syncs the file and clears the counts. -/
theorem thread_of_flush (opened : 0 ≤ c.writer.out.binFd)
    (free : c.writer.thread.holds = false) (flush : flushes c.writer.thread = true)
    (due : c.writer.out.Due flushInterval now) :
    c.thread host flushInterval now =
        ⟨c.writer.writerThreadMain host flushInterval now, 0, 0, c.writtenEnd⟩ ∧
      (c.writer.writerThreadMain host flushInterval now).out =
        { c.writer.out.fsync with pendingSinceFlush := 0, lastFlush := now } := by
  have out := writerThreadMain_out host flushInterval now c.writer
  rw [if_neg (by simp [free]), if_pos flush, maybeFlush_of_due opened due] at out
  exact ⟨by rw [thread, if_neg (by simp [free]), if_pos ⟨flush, due⟩], out⟩

theorem Tracks.flush (tracks : Tracks c) (running : c.writer.thread ≠ .none)
    (free : c.writer.thread.holds = false) (flush : flushes c.writer.thread = true)
    (due : c.writer.out.Due flushInterval now) :
    Tracks (c.thread host flushInterval now) := by
  obtain ⟨opened, -, written, -⟩ := tracks.file running
  obtain ⟨eq, out⟩ := @thread_of_flush _ host _ _ _ opened free flush due
  rw [eq]
  constructor
  · rw [out]
    rfl
  · intro _
    rw [out]
    exact ⟨opened, Nat.le_refl _, written, iff_of_true rfl written⟩

/-- The other steps of the thread leave the file and the count alone. -/
theorem thread_of_idle (free : c.writer.thread.holds = false)
    (idle : ¬ (flushes c.writer.thread = true ∧ c.writer.out.Due flushInterval now)) :
    c.thread host flushInterval now =
        { c with writer := c.writer.writerThreadMain host flushInterval now } ∧
      (c.writer.writerThreadMain host flushInterval now).out = c.writer.out := by
  have out := writerThreadMain_out host flushInterval now c.writer
  rw [if_neg (by simp [free])] at out
  refine ⟨by rw [thread, if_neg (by simp [free]), if_neg idle], ?_⟩
  rw [out]
  split
  · rename_i flush
    exact maybeFlush_of_not_due (fun due => idle ⟨flush, due⟩)
  · rfl

theorem Tracks.thread (tracks : Tracks c) (running : c.writer.thread ≠ .none) :
    Tracks (c.thread host flushInterval now) := by
  cases holds : c.writer.thread.holds with
  | true => exact tracks.write running holds
  | false =>
      by_cases flush : flushes c.writer.thread = true ∧ c.writer.out.Due flushInterval now
      · exact tracks.flush running holds flush.1 flush.2
      · obtain ⟨eq, out⟩ := @thread_of_idle _ host _ _ _ holds flush
        rw [eq]
        exact tracks.keep (congrArg Output.pendingSinceFlush out) (fun _ => ⟨running, out⟩)

theorem Tracks.openCall (tracks : Tracks c) (idle : c.writer.thread = .none)
    (topics : List TopicInfo) (fd now : Int) :
    Tracks { c with
      writer := c.writer.openCall host topics fd now, inFile := 0, writtenEnd := 0 } := by
  obtain ⟨pending, fresh⟩ := openFile_pending host topics fd now c.writer.out
  by_cases ok : (c.writer.out.openFile host topics fd now).1 = true
  · obtain ⟨opened, -⟩ := openFile_file ok
    obtain ⟨synced, -⟩ := fresh ok
    rw [RecordWriter.openCall, if_pos ok]
    refine ⟨by rw [← tracks.pending, ← pending], ?_⟩
    intro _
    refine ⟨opened, ?_, Nat.zero_le _, iff_of_true rfl (Nat.zero_le _)⟩
    simp only [synced]
    exact Nat.zero_le _
  · rw [RecordWriter.openCall, if_neg ok]
    exact ⟨by rw [← tracks.pending, ← pending], fun h => absurd idle h⟩

theorem close_pending (o : Output) : (Output.close o).pendingSinceFlush = o.pendingSinceFlush := by
  unfold Output.close
  split <;> rfl

theorem Tracks.next (tracks : Tracks c) {step : Step}
    (enabled : (machine host flushInterval cap).Enabled c step) :
    Tracks ((machine host flushInterval cap).next c step) := by
  cases step with
  | push a => exact tracks.keep rfl (fun running => ⟨running, rfl⟩)
  | openCall topics fd now => exact tracks.openCall enabled topics fd now
  | thread now => exact tracks.thread enabled.1
  | close =>
      change Tracks { c with writer := c.writer.close }
      unfold RecordWriter.close
      split
      · rename_i idle
        exact tracks.keep (close_pending _) (fun running => absurd idle running)
      · exact tracks.keep rfl (fun running => ⟨running, rfl⟩)
  | join => exact tracks.keep (close_pending _) (fun running => absurd rfl running)

/-- An empty flag is a count that the 32 bits cannot tell from zero. -/
theorem Tracks.pending_eq_zero (tracks : Tracks c) :
    c.writer.out.pendingSinceFlush = 0 ↔ 2 ^ 32 ∣ c.sinceFlush := by
  rw [← UInt32.toNat_inj, tracks.pending]
  exact (Nat.dvd_iff_mod_eq_zero).symm

/-- The end of one iteration: either flushing branch, or the idle one. -/
theorem Tracks.flushed_iff (tracks : Tracks c) {step : Step}
    (enabled : (machine host flushInterval cap).Enabled c step) :
    Flushed host flushInterval c step ↔ Noticed flushInterval c step := by
  cases step with
  | push a => exact Iff.rfl
  | openCall topics fd now => exact Iff.rfl
  | close => exact Iff.rfl
  | join => exact Iff.rfl
  | thread now =>
      have running : c.writer.thread ≠ .none := enabled.1
      by_cases rest : ∃ any, c.writer.thread = .rest any
      · obtain ⟨any, pc⟩ := rest
        have free : c.writer.thread.holds = false := by rw [pc]; rfl
        have flushes_eq : flushes c.writer.thread = any := by rw [pc]; rfl
        have flag := tracks.pending_eq_zero
        obtain ⟨opened, -, written, nothing⟩ := tracks.file running
        by_cases flush : flushes c.writer.thread = true ∧ c.writer.out.Due flushInterval now
        · obtain ⟨eq, out⟩ := @thread_of_flush _ host _ _ _ opened free flush.1 flush.2
          refine iff_of_true ?_ ?_
          · intro _ _
            rw [eq, out]
            exact ⟨written, rfl⟩
          · intro any' pc' _
            rw [pc] at pc'
            cases pc'
            exact .inr ⟨flushes_eq ▸ flush.1, fun wrapped => flush.2.1 (flag.mpr wrapped)⟩
        · obtain ⟨eq, out⟩ := @thread_of_idle _ host _ _ _ free flush
          constructor
          · intro flushed any' pc' late
            have done := flushed ⟨any', pc'⟩
            rw [eq, out] at done
            obtain ⟨synced, pending⟩ := done late
            exact .inl ⟨nothing.mpr synced, flag.mp pending⟩
          · intro noticed _ late
            rw [eq, out] at late ⊢
            rcases noticed any pc late with ⟨none, pending⟩ | ⟨popped, pending⟩
            · exact ⟨nothing.mp none, flag.mpr pending⟩
            · have due : c.writer.out.Due flushInterval now :=
                ⟨fun zero => pending (flag.mp zero), late⟩
              exact absurd ⟨flushes_eq.trans popped, due⟩ flush
      · have elsewhere : ∀ any, c.writer.thread ≠ .rest any := fun any pc => rest ⟨any, pc⟩
        exact iff_of_true (fun here => absurd here rest) (fun any pc => absurd pc (elsewhere any))

/-- In every run of a recorder, over any sessions: each iteration that ends when a flush is due
leaves all records synced and none pending, if and only if at each such end there is nothing to
flush, or a record was popped and the count has not wrapped to zero. -/
theorem flushed_iff_noticed (host : Host) (flushInterval : Int) (cap : Capacity)
    (steps : List Step) (c : Counted cap) :
    (machine host flushInterval cap).Run (Flushed host flushInterval) {} steps c ↔
      (machine host flushInterval cap).Run (Noticed flushInterval) {} steps c :=
  Machine.Run.iff_of_invariant tracks_init (fun _ _ tracks enabled => tracks.next enabled)
    (fun _ _ tracks enabled => tracks.flushed_iff enabled)

/-- Every run of the recorder is one with counts. -/
theorem counted_of_run {steps : List Step} {w : RecordWriter cap}
    (run : (WriterThread.RecordWriter.machine host flushInterval cap).Run Machine.Free {} steps w) :
    ∃ c, c.writer = w ∧ (machine host flushInterval cap).Run Machine.Free {} steps c := by
  induction run with
  | nil => exact ⟨{}, rfl, .nil⟩
  | snoc _ enabled _ ih =>
      obtain ⟨c, rfl, run⟩ := ih
      exact ⟨_, next_writer _ _ _ _, run.snoc enabled trivial⟩

/-- One record, and then no more: it is written at once, when no flush is due yet, and 200 ms later
the loop goes round without one. -/
def quietInput : List Step :=
  [.push (stamped 0)] ++ List.replicate 5 (.thread 0) ++ List.replicate 2 (.thread 200)

/-- The recorder of `quietInput` behind an Open that went well. -/
def session : RecordWriter pair where
  out := (Output.openFile wholeWrites blankTopic 3 0 {}).2
  thread := .test
  topics := blankTopic

theorem run_session :
    (WriterThread.RecordWriter.machine wholeWrites 100 pair).Run Machine.Free {}
      [.openCall blankTopic 3 0] session := by
  have ok := openFile_ok wholeWrites_succeed blankTopic (show (0 : Int) ≤ 3 by decide) 0 {}
  have run : (WriterThread.RecordWriter.machine wholeWrites 100 pair).Run Machine.Free {} _
      (RecordWriter.openCall wholeWrites blankTopic 3 0 {}) :=
    Machine.Run.single (a := Step.openCall blankTopic 3 0) rfl trivial
  rwa [RecordWriter.openCall, if_pos ok] at run

/-- What the clock shows along the steps. -/
def readings (steps : List Step) : List Int :=
  steps.filterMap (fun
    | .openCall _ _ now => some now
    | .thread now => some now
    | _ => none)

/-- The record is written and pending, and the flush was last done at Open. -/
theorem quiet_pending :
    (quietInput.foldl (WriterThread.RecordWriter.machine wholeWrites 100 pair).next
        session).out.pendingSinceFlush = 1 ∧
      (quietInput.foldl (WriterThread.RecordWriter.machine wholeWrites 100 pair).next
        session).out.lastFlush = 0 := by
  have opens := openFile_ok wholeWrites_succeed blankTopic (show (0 : Int) ≤ 3 by decide) 0 {}
  obtain ⟨opened, -⟩ := openFile_file opens
  obtain ⟨pending, fresh⟩ := openFile_pending wholeWrites blankTopic 3 0 {}
  have start : session.out.lastFlush = 0 := (fresh opens).2
  have written : ∃ rec : PoppedRecord,
      (quietInput.foldl (WriterThread.RecordWriter.machine wholeWrites 100 pair).next session).out =
        (writeRecord wholeWrites session.out rec).2.maybeFlush 100 0 := ⟨_, rfl⟩
  obtain ⟨rec, out⟩ := written
  have ok : (writeRecord wholeWrites session.out rec).1 = true :=
    writeRecord_ok wholeWrites_succeed opened rec
  obtain ⟨d, -, failed | whole⟩ := writeRecord_cases wholeWrites session.out rec
  · rw [failed] at ok
    contradiction
  · rw [whole, maybeFlush_of_not_due] at out
    · rw [out]
      refine ⟨?_, start⟩
      simp only [session, pending]
      rfl
    · intro due
      have late := due.2
      simp only [start] at late
      omega

/-- 200 ms after Open, with a flush due every 100 ms, the end of an idle iteration leaves the one
record unflushed. -/
theorem quiet_input_unflushed :
    (readings ([.openCall blankTopic 3 0] ++ quietInput ++ [.thread 200])).Pairwise (· ≤ ·) ∧
      ∃ c : Counted pair,
        (machine wholeWrites 100 pair).Run Machine.Free {}
          ([.openCall blankTopic 3 0] ++ quietInput) c ∧
        (machine wholeWrites 100 pair).Enabled c (.thread 200) ∧
        ¬ Flushed wholeWrites 100 c (.thread 200) := by
  refine ⟨by decide, ?_⟩
  have fires : (WriterThread.RecordWriter.machine wholeWrites 100 pair).Fires Machine.Free session
      quietInput := by
    decide
  obtain ⟨c, writer, run⟩ := counted_of_run (run_session.trans (Machine.run_of_fires fires))
  have pc : c.writer.thread = .rest false := by
    rw [writer]
    rfl
  obtain ⟨pending, start⟩ := quiet_pending
  rw [← writer] at pending start
  have tracks : Tracks c := run.invariant tracks_init
    (fun _ _ tracks enabled _ => tracks.next enabled)
  have enabled : (machine wholeWrites 100 pair).Enabled c (.thread 200) := by
    constructor <;> simp [pc]
  refine ⟨c, run, enabled, ?_⟩
  rw [tracks.flushed_iff enabled]
  intro noticed
  rcases noticed false pc (by rw [start]; decide) with ⟨-, zero⟩ | ⟨popped, -⟩
  · rw [← tracks.pending_eq_zero, pending] at zero
    contradiction
  · contradiction

end Counted

end ChronoCap.PeriodicFlush

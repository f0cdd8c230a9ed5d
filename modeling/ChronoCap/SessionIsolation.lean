/- module: ChronoCap/SessionIsolation
   source: src/core/record_writer.cpp, include/chrono_cap/record_writer.hpp
   digest: A RecordWriter opened again: what the ring still holds at Open goes into the new file. -/

import ChronoCap.Containment
import ChronoCap.Shutdown

set_option autoImplicit false
set_option relaxedAutoImplicit false

namespace ChronoCap.SessionIsolation

open ChronoCap.Foundation
open ChronoCap.Ring
open ChronoCap.WriterThread
open ChronoCap.Containment

/-- A RecordWriter with the number of its sessions, and how many records had been accepted when the
last Close returned, now and at the Open of the session. -/
structure Reused (cap : Capacity) where
  writer : RecordWriter cap := {}
  sessions : Nat := 0
  returnedAt : Nat := 0
  since : Nat := 0

namespace Reused

variable {cap : Capacity}

def machine (host : Host) (flushInterval : Int) (cap : Capacity) : Machine (Reused cap) Step where
  Enabled u step := (RecordWriter.machine host flushInterval cap).Enabled u.writer step
  next u step :=
    let writer := (RecordWriter.machine host flushInterval cap).next u.writer step
    match step with
    | .openCall topics fd now =>
        if (u.writer.out.openFile host topics fd now).1 then
          { u with writer, sessions := u.sessions + 1, since := u.returnedAt }
        else { u with writer }
    | .join => { u with writer, returnedAt := writer.ledger.accepted.length }
    | .push _ => { u with writer }
    | .thread _ => { u with writer }
    | .close => { u with writer }

instance (host : Host) (flushInterval : Int) (u : Reused cap) :
    DecidablePred ((machine host flushInterval cap).Enabled u) :=
  fun step => inferInstanceAs
    (Decidable ((RecordWriter.machine host flushInterval cap).Enabled u.writer step))

/-- Each push conforms to the table of the last Open, if there was one; each ::open succeeds. -/
def Conform (u : Reused cap) : Step → Prop
  | .push a => 1 ≤ u.sessions → Conforming u.writer.topics a.record
  | .openCall _ fd _ => 0 ≤ fd
  | _ => True

/-- At each Open but the first, what the ring holds was pushed since the last Close returned, and
conforms to the new table. -/
def Clean (u : Reused cap) : Step → Prop
  | .openCall topics _ _ => 1 ≤ u.sessions → ∀ i, u.writer.ledger.Ready i →
      u.returnedAt ≤ u.writer.ledger.owner i ∧
        Conforming topics (u.writer.ledger.ring.slots i).record
  | _ => True

instance (u : Reused cap) : DecidablePred (Conform u)
  | .push a => inferInstanceAs (Decidable (1 ≤ u.sessions → Conforming u.writer.topics a.record))
  | .openCall _ fd _ => inferInstanceAs (Decidable (0 ≤ fd))
  | .thread _ => .isTrue trivial
  | .close => .isTrue trivial
  | .join => .isTrue trivial

instance (u : Reused cap) : DecidablePred (Clean u)
  | .openCall _ _ _ => inferInstanceAs (Decidable (1 ≤ u.sessions → ∀ _, _ → _ ∧ _))
  | .push _ => .isTrue trivial
  | .thread _ => .isTrue trivial
  | .close => .isTrue trivial
  | .join => .isTrue trivial

/-- From the second session on, the file consists of the header, the table of the session, and
records pushed since the Close before it returned, each conforming to that table. -/
def Isolated (host : Host) (u : Reused cap) : Prop :=
  2 ≤ u.sessions → ∃ ps : List (Nat × Record),
    u.writer.out.disk.file = headerBytes host.createdAtNs u.writer.topics ++
      ((ps.map Prod.snd).map recordBytes).flatten ∧
    ∀ p ∈ ps, u.since ≤ p.1 ∧ u.writer.ledger.record p.1 = some p.2 ∧
      Conforming u.writer.topics p.2

/-- Pushed since the last Close before this session returned, and of this session's table. -/
def Fresh (u : Reused cap) (n : Nat) (r : Record) : Prop :=
  u.since ≤ n ∧ Conforming u.writer.topics r

/-- From the second session on the ring holds fresh records only, and only fresh ones have been
popped since Open. The record in hand is the last one popped. -/
structure Kept (host : Host) (u : Reused cap) : Prop where
  sound : RecordWriter.Sound Machine.Free host u.writer
  hand : u.writer.thread.holds = true → ∃ ps n,
    u.writer.ledger.popped = ps ++ [(n, u.writer.record)] ∧ u.writer.openedAt ≤ ps.length
  closed : u.writer.thread = .none → 1 ≤ u.sessions → u.writer.out.disk.file =
    headerBytes host.createdAtNs u.writer.topics ++ (u.writer.session.map recordBytes).flatten
  returnedAt : u.returnedAt ≤ u.writer.ledger.accepted.length
  since : u.since ≤ u.writer.ledger.accepted.length
  held : 2 ≤ u.sessions → u.writer.ledger.Holds u.Fresh
  popped : 2 ≤ u.sessions →
    ∀ p ∈ u.writer.ledger.popped.drop u.writer.openedAt, u.Fresh p.1 p.2.record

variable {host : Host} {u : Reused cap}

theorem kept_init : Kept host ({} : Reused cap) where
  sound := RecordWriter.sound_init
  hand h := absurd h Bool.false_ne_true
  closed _ h := absurd h (by simp)
  returnedAt := Nat.le_refl _
  since := Nat.le_refl _
  held h := absurd h (by simp)
  popped h := absurd h (by simp)

theorem Kept.conserved (inv : Kept host u) : u.writer.ledger.Conserved := by
  obtain ⟨ops, run⟩ := inv.sound.history
  exact Ledger.conserved_of_run run

theorem Kept.push (inv : Kept host u) {a : PushArgs}
    (conform : 1 ≤ u.sessions → Conforming u.writer.topics a.record) :
    Kept host { u with writer := { u.writer with ledger := u.writer.ledger.push a } } := by
  have more := RecordWriter.length_accepted_push u.writer.ledger a
  have same := u.writer.ledger.popped_push a
  refine ⟨inv.sound.push trivial, ?_, ?_, inv.returnedAt.trans more, inv.since.trans more, ?_, ?_⟩
  · intro holds
    rw [same]
    exact inv.hand holds
  · intro idle opened
    have session : RecordWriter.session
        { u.writer with ledger := u.writer.ledger.push a } = u.writer.session := by
      rw [RecordWriter.session, RecordWriter.session, same]
    rw [session]
    exact inv.closed idle opened
  · intro second
    apply (inv.held second).push
    exact fun _ => ⟨inv.since, conform (Nat.le_of_succ_le second)⟩
  · intro second
    rw [same]
    exact inv.popped second

theorem Kept.thread (succeed : host.io.Succeed) (inv : Kept host u)
    (running : u.writer.thread ≠ .none) (flushInterval now : Int) :
    Kept host { u with writer := u.writer.writerThreadMain host flushInterval now } := by
  have step := RecordWriter.threadStep host flushInterval now u.writer running
  have moves := step.moves
  have sound := inv.sound.thread (fun _ _ => trivial) succeed running step
  have stays : ∀ {n r}, u.Fresh n r → Fresh
      { u with writer := u.writer.writerThreadMain host flushInterval now } n r := by
    rintro n r ⟨after, conforming⟩
    refine ⟨after, ?_⟩
    change Conforming (u.writer.writerThreadMain host flushInterval now).topics r
    rwa [moves.topics]
  refine ⟨sound, ?_, fun idle => absurd idle moves.running, ?_, ?_, ?_, ?_⟩
  · intro holds
    obtain ⟨n, logged⟩ := moves.hand holds
    refine ⟨u.writer.ledger.popped, n, logged, ?_⟩
    rw [moves.openedAt]
    exact inv.sound.openedAt
  · rw [moves.accepted]
    exact inv.returnedAt
  · rw [moves.accepted]
    exact inv.since
  · intro second i ready
    rcases moves.ring with ⟨same, -⟩ | ⟨n, popped, -⟩
    · rw [same] at ready ⊢
      exact stays (inv.held second i ready)
    · rw [popped] at ready ⊢
      exact stays ((inv.held second).pop _ i ready)
  · intro second p hp
    rw [moves.openedAt] at hp
    rcases moves.ring with ⟨same, -⟩ | ⟨n, popped, logged⟩
    · rw [same] at hp
      exact stays (inv.popped second p hp)
    · rw [logged, List.drop_append_of_le_length inv.sound.openedAt] at hp
      rcases List.mem_append.mp hp with old | new
      · exact stays (inv.popped second p old)
      · obtain rfl := List.mem_singleton.mp new
        rw [popped] at logged
        exact stays ((inv.held second).popped inv.conserved logged)

/-- What the file holds at any point of a session, but for the record in hand. -/
theorem Kept.file (inv : Kept host u) (opened : 1 ≤ u.sessions) :
    ∃ ps : List (Nat × PoppedRecord), ps.Sublist (u.writer.ledger.popped.drop u.writer.openedAt) ∧
      u.writer.out.disk.file = headerBytes host.createdAtNs u.writer.topics ++
        ((ps.map (fun p => p.2.record)).map recordBytes).flatten := by
  by_cases idle : u.writer.thread = .none
  · exact ⟨_, List.Sublist.refl _, inv.closed idle opened⟩
  · obtain ⟨-, file⟩ := inv.sound.file idle
    cases holds : u.writer.thread.holds with
    | false =>
        rw [RecordWriter.inHand, if_neg (by simp [holds]), List.append_nil] at file
        exact ⟨_, List.Sublist.refl _, file⟩
    | true =>
        obtain ⟨ps, n, popped, le⟩ := inv.hand holds
        refine ⟨ps.drop u.writer.openedAt, ?_, ?_⟩
        · rw [popped, List.drop_append_of_le_length le]
          exact List.sublist_append_left _ _
        · rw [RecordWriter.inHand, if_pos holds, RecordWriter.session, popped,
            List.drop_append_of_le_length le, List.map_append, List.map_append,
            List.flatten_append, ← List.append_assoc] at file
          refine (List.append_left_inj (recordBytes u.writer.record.record)).mp ?_
          simpa using file

theorem Kept.openCall (succeed : host.io.Succeed) (inv : Kept host u)
    (idle : u.writer.thread = .none) {topics : List TopicInfo} {fd : Int} (ok : 0 ≤ fd) (now : Int)
    (clean : 1 ≤ u.sessions → u.writer.ledger.Holds (fun n r =>
      u.returnedAt ≤ n ∧ Conforming topics r)) :
    Kept host { u with
      writer := u.writer.openCall host topics fd now
      sessions := u.sessions + 1
      since := u.returnedAt } := by
  have sound := inv.sound.openCall idle topics fd now
  have table := openFile_ok succeed topics ok now u.writer.out
  rw [RecordWriter.openCall, if_pos table] at sound ⊢
  refine ⟨sound, ?_, ?_, inv.returnedAt, inv.returnedAt, ?_, ?_⟩
  · exact fun holds => absurd holds Bool.false_ne_true
  · exact fun closed => absurd closed (by simp)
  · exact fun second => clean (Nat.le_of_succ_le_succ second)
  · intro _ p hp
    simp [List.drop_length] at hp

theorem Kept.close (inv : Kept host u) : Kept host { u with writer := u.writer.close } := by
  have sound := inv.sound.close
  by_cases idle : u.writer.thread = .none
  · rw [RecordWriter.close, if_pos idle] at sound ⊢
    refine ⟨sound, inv.hand, ?_, inv.returnedAt, inv.since, inv.held, inv.popped⟩
    intro _ opened
    exact (RecordWriter.close_file u.writer.out).trans (inv.closed idle opened)
  · rw [RecordWriter.close, if_neg idle] at sound ⊢
    exact ⟨sound, inv.hand, fun h => absurd h idle, inv.returnedAt, inv.since, inv.held,
      inv.popped⟩

theorem Kept.join (inv : Kept host u) (done : u.writer.thread = .done) :
    Kept host { u with
      writer := u.writer.join, returnedAt := u.writer.join.ledger.accepted.length } := by
  refine ⟨inv.sound.join, ?_, ?_, Nat.le_refl _, inv.since, inv.held, inv.popped⟩
  · exact fun holds => absurd holds Bool.false_ne_true
  · intro _ _
    obtain ⟨-, file⟩ := inv.sound.file (by simp [done])
    rw [RecordWriter.inHand, if_neg (by simp [done, ThreadPc.holds]), List.append_nil] at file
    exact (RecordWriter.close_file u.writer.out).trans file

theorem kept_of_run (succeed : host.io.Succeed) {flushInterval : Int} {steps : List Step}
    (run : (machine host flushInterval cap).Run (fun u step => Conform u step ∧ Clean u step) {}
      steps u) : Kept host u := by
  apply run.invariant kept_init
  rintro u step inv enabled ⟨conform, clean⟩
  cases step with
  | push a => exact inv.push conform
  | openCall topics fd now =>
      have table := openFile_ok succeed topics conform now u.writer.out
      have next : (machine host flushInterval cap).next u (.openCall topics fd now) =
          { u with
            writer := u.writer.openCall host topics fd now
            sessions := u.sessions + 1
            since := u.returnedAt } := if_pos table
      rw [next]
      exact inv.openCall succeed enabled conform now clean
  | thread now => exact inv.thread succeed enabled.1 flushInterval now
  | close => exact inv.close
  | join => exact inv.join enabled.2

theorem Kept.isolated (inv : Kept host u) : Isolated host u := by
  intro second
  obtain ⟨ps, sublist, file⟩ := inv.file (Nat.le_of_succ_le second)
  refine ⟨ps.map (fun p => (p.1, p.2.record)), ?_, ?_⟩
  · have records : (ps.map (fun p => (p.1, p.2.record))).map Prod.snd =
        ps.map (fun p => p.2.record) := by simp
    rw [file, records]
  · intro q hq
    obtain ⟨p, hp, rfl⟩ := List.mem_map.mp hq
    have mem := sublist.subset hp
    obtain ⟨after, conforming⟩ := inv.popped second p mem
    exact ⟨after, (inv.conserved.drained p (List.mem_of_mem_drop mem)).1, conforming⟩

/-- However often the writer is opened again: if each Open finds in the ring only records pushed
since the last Close returned and of its own table, no file gets a record of another session. -/
theorem isolated_of_clean (cap : Capacity) (host : Host) (succeed : host.io.Succeed)
    (flushInterval : Int) (steps : List Step) (u : Reused cap)
    (run : (machine host flushInterval cap).Run (fun u step => Conform u step ∧ Clean u step) {}
      steps u) : Isolated host u :=
  (kept_of_run succeed run).isolated

/-! Two sessions with the same table. -/

/-- Open has succeeded. -/
def begun (u : Reused pair) : Reused pair :=
  { u with
    writer := { u.writer with
      out := (u.writer.out.openFile RecordWriter.wholeWrites RecordWriter.blankTopic 3 0).2
      shutdown := false, thread := .test, topics := RecordWriter.blankTopic
      openedAt := u.writer.ledger.popped.length }
    sessions := u.sessions + 1
    since := u.returnedAt }

theorem run_begun {allowed : Reused pair → Step → Prop} {u : Reused pair}
    (idle : u.writer.thread = .none) (meets : allowed u (.openCall RecordWriter.blankTopic 3 0)) :
    (machine RecordWriter.wholeWrites 0 pair).Run allowed u
      [.openCall RecordWriter.blankTopic 3 0] (begun u) := by
  have table := openFile_ok RecordWriter.wholeWrites_succeed RecordWriter.blankTopic
    (show (0 : Int) ≤ 3 by decide) 0 u.writer.out
  have next : (machine RecordWriter.wholeWrites 0 pair).next u
      (.openCall RecordWriter.blankTopic 3 0) = begun u := by
    simp only [machine, RecordWriter.machine, RecordWriter.openCall, if_pos table]
    rfl
  rw [← next]
  exact Machine.Run.single idle meets

/-- The writer thread finds nothing to pop and ends; then a push; the thread is joined. -/
def firstSession : List Step :=
  [.close, .thread 0, .thread 0, .push (stamped 0), .thread 0, .join]

/-- The writer thread is joined; then a push. -/
def cleanSession : List Step :=
  [.close, .thread 0, .thread 0, .thread 0, .join, .push (stamped 0)]

/-- The writer thread pops a record and writes it. -/
def secondSession : List Step := [.thread 0, .thread 0, .thread 0]

/-- The state behind two sessions. -/
def twice (steps : List Step) : Reused pair :=
  secondSession.foldl (machine RecordWriter.wholeWrites 0 pair).next
    (begun (steps.foldl (machine RecordWriter.wholeWrites 0 pair).next (begun {})))

theorem run_twice (allowed : Reused pair → Step → Prop) (steps : List Step)
    (first : allowed {} (.openCall RecordWriter.blankTopic 3 0))
    (fires : (machine RecordWriter.wholeWrites 0 pair).Fires allowed (begun {}) steps)
    (idle : (steps.foldl (machine RecordWriter.wholeWrites 0 pair).next
      (begun {})).writer.thread = .none)
    (second : allowed (steps.foldl (machine RecordWriter.wholeWrites 0 pair).next (begun {}))
      (.openCall RecordWriter.blankTopic 3 0))
    (rest : (machine RecordWriter.wholeWrites 0 pair).Fires allowed
      (begun (steps.foldl (machine RecordWriter.wholeWrites 0 pair).next (begun {})))
      secondSession) :
    ∃ all, (machine RecordWriter.wholeWrites 0 pair).Run allowed {} all (twice steps) := by
  have opened : (machine RecordWriter.wholeWrites 0 pair).Run allowed {}
      [.openCall RecordWriter.blankTopic 3 0] (begun {}) := run_begun rfl first
  have closed := opened.trans (Machine.run_of_fires fires)
  have reopened := closed.trans (run_begun idle second)
  exact ⟨_, reopened.trans (Machine.run_of_fires rest)⟩

theorem twice_isolated :
    (twice cleanSession).sessions = 2 ∧ (twice cleanSession).writer.session.length = 1 ∧
      Isolated RecordWriter.wholeWrites (twice cleanSession) := by
  obtain ⟨all, run⟩ := run_twice (fun u step => Conform u step ∧ Clean u step) cleanSession
    (by decide) (by decide) (by decide) (by decide) (by decide)
  exact ⟨by decide, by decide,
    isolated_of_clean pair _ RecordWriter.wholeWrites_succeed 0 all _ run⟩

theorem sound_of_run (succeed : host.io.Succeed) {flushInterval : Int}
    {allowed : Reused cap → Step → Prop} {steps : List Step}
    (run : (machine host flushInterval cap).Run allowed {} steps u) :
    RecordWriter.Sound Machine.Free host u.writer := by
  apply Machine.Run.invariant run
  · exact RecordWriter.sound_init
  · intro u step inv enabled _
    cases step with
    | push a => exact inv.push trivial
    | openCall topics fd now =>
        simp only [machine]
        split
        · exact inv.openCall enabled topics fd now
        · exact inv.openCall enabled topics fd now
    | thread now =>
        exact inv.thread (fun _ _ => trivial) succeed enabled.1
          (RecordWriter.threadStep host flushInterval now u.writer enabled.1)
    | close => exact inv.close
    | join => exact inv.join

/-- A record accepted before Close returned is written into the file of the next session. -/
theorem twice_not_isolated : RecordWriter.wholeWrites.io.Succeed ∧ ∃ all,
    (machine RecordWriter.wholeWrites 0 pair).Run Conform {} all (twice firstSession) ∧
      ¬ Isolated RecordWriter.wholeWrites (twice firstSession) := by
  obtain ⟨all, run⟩ := run_twice Conform firstSession (by decide) (by decide) (by decide)
    (by decide) (by decide)
  refine ⟨RecordWriter.wholeWrites_succeed, all, run, ?_⟩
  intro isolated
  obtain ⟨ps, file, fresh⟩ := isolated (by decide)
  obtain ⟨-, whole⟩ := (sound_of_run RecordWriter.wholeWrites_succeed run).file (by decide)
  have session : (twice firstSession).writer.session = [(stamped 0).record] := by decide
  rw [RecordWriter.inHand, if_neg (by decide), List.append_nil, session, file] at whole
  have same := congrArg List.length (List.append_cancel_left whole)
  cases ps with
  | nil => exact absurd same (by decide)
  | cons p ps =>
      obtain ⟨after, number, -⟩ := fresh p List.mem_cons_self
      have since : (twice firstSession).since = 1 := by decide
      have accepted : (twice firstSession).writer.ledger.accepted.length = 1 := by decide
      obtain ⟨bound, -⟩ := List.getElem?_eq_some_iff.mp number
      rw [List.length_map, accepted] at bound
      omega

end Reused

end ChronoCap.SessionIsolation

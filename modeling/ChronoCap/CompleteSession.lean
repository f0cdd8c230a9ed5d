/- module: ChronoCap/CompleteSession
   source: src/i2wRecorder.cpp, src/core/record_writer.cpp, src/i2wReplayer.cpp,
           include/chrono_cap/mpsc_ring_buffer.hpp, include/chrono_cap/generic_recorder.hpp,
           include/chrono_cap/generic_replayer.hpp
   digest: A recorder whose Close reports no dropped record has recorded everything, in order. -/

import ChronoCap.CrashRecovery
import ChronoCap.Ring.Progress

set_option autoImplicit false
set_option relaxedAutoImplicit false

namespace ChronoCap.CompleteSession

open ChronoCap.Foundation
open ChronoCap.Ring
open ChronoCap.WireFormat
open ChronoCap.WriterThread
open ChronoCap.GenericRecorderSystem
open ChronoCap.ReplayFidelity
open ChronoCap.I2wRecorder
open ChronoCap.CrashRecovery

variable {Ts : List TopicType} {cap : Capacity}

/-! What a push and a pop do to `dropped_count_`. -/

section Ring

variable {t : Ledger cap} {a : PushArgs}

/-- With cursors that count the records, no push is accepted behind an empty slot. -/
theorem noGap_of_counting (inv : t.Counting) (conserved : t.Conserved) (h : t.Accepts a) :
    t.ring.NoGap := by
  have le := conserved.length_le
  have notFull : ¬ t.Full := fun full => h.free ((inv.busy_iff conserved).mpr full)
  have room : t.accepted.length < t.popped.length + cap.val := by
    unfold Ledger.Full at notFull
    omega
  have behind := inv.claimed room
  apply Ledger.filled_window_iff.mp
  intro j hj
  have bound := Ledger.claimed_lt (t := t)
  rw [Ledger.window_cells_ne_none (by omega), inv.ready_iff (by omega)]
  omega

/-- A push that fits is accepted or counted. -/
theorem push_counts (fits : a.len.toNat ≤ kMaxPayloadBytes) :
    (t.Accepts a ∧ (t.push a).ring.droppedCount = t.ring.droppedCount) ∨
      (¬ t.Accepts a ∧ (t.push a).ring.droppedCount = t.ring.droppedCount + 1) := by
  by_cases accepts : t.Accepts a
  · left
    refine ⟨accepts, ?_⟩
    rw [t.push_accepted accepts]
  · right
    have busy : t.Ready (cap.slot t.ring.writeIndex) := by
      by_contra free
      exact accepts ⟨fits, free⟩
    refine ⟨accepts, ?_⟩
    rw [t.push_rejected fits busy]

theorem dropped_pop (t : Ledger cap) (out : PoppedRecord) :
    (t.pop out).ring.droppedCount = t.ring.droppedCount := by
  by_cases ready : t.Ready (cap.slot t.ring.readIndex)
  · rw [t.pop_ready ready]
  · rw [t.pop_empty ready]

end Ring

variable {config : LoggerConfig} {subscribes : Fin Ts.length → Bool} {host : Host}
  {flushInterval : Int} {events : List (I2wRecorder.Event Ts)} {r : Recorder Ts cap}

theorem arrived_sample (x : Sample Ts) :
    arrived (events ++ [.sample x]) = arrived events ++ [x] :=
  List.filterMap_append

theorem arrived_quiet {event : I2wRecorder.Event Ts} (quiet : sample? event = none) :
    arrived (events ++ [event]) = arrived events := by
  rw [arrived, List.filterMap_append, List.filterMap_cons_none quiet, List.filterMap_nil,
    List.append_nil]
  rfl

/-- An event that brings no sample neither accepts nor drops one. -/
theorem next_quiet {event : I2wRecorder.Event Ts} (quiet : sample? event = none)
    (enabled : (machine config subscribes host flushInterval).Enabled r event) :
    ((machine config subscribes host flushInterval).next r event).writer.ledger.ring.droppedCount =
        r.writer.ledger.ring.droppedCount ∧
      ((machine config subscribes host flushInterval).next r event).writer.ledger.accepted =
        r.writer.ledger.accepted := by
  cases event with
  | subscribe =>
      obtain ⟨i, head, -, -⟩ := enabled
      obtain ⟨rest, todo⟩ := List.head?_eq_some_iff.mp head
      simp [machine, todo]
  | setupOne =>
      obtain ⟨i, head, -⟩ := enabled
      obtain ⟨rest, todo⟩ := List.head?_eq_some_iff.mp head
      simp [machine, todo]
  | sample x => exact absurd quiet (Option.some_ne_none x)
  | openCall fd now =>
      simp only [machine, RecordWriter.openCall]
      split <;> exact ⟨rfl, rfl⟩
  | thread now =>
      have moves := (RecordWriter.threadStep host flushInterval now r.writer enabled.1).moves
      refine ⟨?_, moves.accepted⟩
      change (r.writer.writerThreadMain host flushInterval now).ledger.ring.droppedCount = _
      rcases moves.ring with ⟨same, -⟩ | ⟨n, popped, -⟩
      · rw [same]
      · rw [popped, dropped_pop]
  | close =>
      simp only [machine, RecordWriter.close]
      split <;> exact ⟨rfl, rfl⟩
  | join => exact ⟨rfl, rfl⟩

theorem len_pushArgs_le (lawful : ∀ T ∈ Ts, LawfulCodec T) (x : Sample Ts) :
    x.pushArgs.len.toNat ≤ kMaxPayloadBytes := by
  have codec := lawful _ (List.get_mem Ts x.pos)
  exact (wireSize_toNat codec).trans_le codec.fits

/-- Until the counter wraps, what arrived was accepted or is counted as dropped. -/
theorem balanced_of_run (lawful : ∀ T ∈ Ts, LawfulCodec T)
    (run : (machine config subscribes host flushInterval).Run Machine.Free
      ({} : Recorder Ts cap) events r) (few : (arrived events).length < 2 ^ 64) :
    r.writer.ledger.ring.droppedCount.toNat + r.writer.ledger.accepted.length =
      (arrived events).length := by
  induction run with
  | nil => rfl
  | @snoc events r event prior enabled _ ih =>
      cases arrives : sample? event with
      | none =>
          rw [arrived_quiet arrives] at few ⊢
          obtain ⟨dropped, accepted⟩ := next_quiet arrives enabled
          rw [dropped, accepted]
          exact ih few
      | some x =>
          obtain rfl : event = .sample x := by
            cases event <;> simp_all [sample?]
          rw [arrived_sample, List.length_append, List.length_singleton] at few ⊢
          have before := ih (by omega)
          change (r.writer.ledger.push x.pushArgs).ring.droppedCount.toNat +
            (r.writer.ledger.push x.pushArgs).accepted.length = _
          rw [Ledger.accepted_push]
          rcases push_counts (len_pushArgs_le lawful x) (t := r.writer.ledger) with
            ⟨accepts, dropped⟩ | ⟨refused, dropped⟩
          · rw [dropped, if_pos accepts, List.length_append, List.length_singleton]
            omega
          · rw [dropped, if_neg refused, UInt64.toNat_add, Nat.mod_eq_of_lt]
            · change r.writer.ledger.ring.droppedCount.toNat + 1 + _ = _
              omega
            · change r.writer.ledger.ring.droppedCount.toNat + 1 < _
              omega

/-! Without a dropped record. -/

/-- Everything that arrived was accepted, in order and behind no empty slot; while a Close waits,
`closedAt` counts what arrived before it. -/
structure Complete (host : Host) (flushInterval : Int) (events : List (I2wRecorder.Event Ts))
    (r : Recorder Ts cap) : Prop where
  counting : r.writer.ledger.Counting
  accepted : r.writer.ledger.accepted = (arrived events).map Sample.pushArgs
  aligned : ∃ steps, (RecordWriter.machine host flushInterval cap).Run RecordWriter.Aligned {} steps
    r.writer
  closed : r.writer.closing = true → ∀ pre post, events = pre ++ .close :: post →
    (arrived pre).length ≤ r.writer.closedAt

theorem complete_init : Complete host flushInterval [] ({} : Recorder Ts cap) where
  counting := Ledger.counting_init
  accepted := rfl
  aligned := ⟨[], .nil⟩
  closed h := absurd h Bool.false_ne_true

/-- Where an event stands in a run with one event more. -/
theorem split_snoc {α : Type*} {as pre post : List α} {a c : α}
    (split : as ++ [a] = pre ++ c :: post) :
    (a = c ∧ pre = as) ∨ ∃ post', as = pre ++ c :: post' := by
  rcases List.eq_nil_or_concat post with rfl | ⟨post', b, rfl⟩
  · left
    obtain ⟨same, last⟩ := List.append_inj' split rfl
    exact ⟨List.singleton_injective last, same.symm⟩
  · right
    refine ⟨post', ?_⟩
    rw [List.concat_eq_append, ← List.cons_append, ← List.append_assoc] at split
    exact (List.append_inj' split rfl).1

/-- An event other than Close leaves `closedAt` as it is, and starts no wait. -/
theorem Complete.still_closed (inv : Complete host flushInterval events r)
    {event : I2wRecorder.Event Ts} (other : event ≠ .close) {r' : Recorder Ts cap}
    (closing : r'.writer.closing = true → r.writer.closing = true)
    (closedAt : r'.writer.closedAt = r.writer.closedAt) :
    r'.writer.closing = true → ∀ pre post, events ++ [event] = pre ++ .close :: post →
      (arrived pre).length ≤ r'.writer.closedAt := by
  intro waits pre post split
  rcases split_snoc split with ⟨same, -⟩ | ⟨post', earlier⟩
  · exact absurd same other
  · rw [closedAt]
    exact inv.closed (closing waits) pre post' earlier

/-- An event that leaves the writer alone. -/
theorem Complete.keep (inv : Complete host flushInterval events r)
    {event : I2wRecorder.Event Ts} (quiet : sample? event = none) (other : event ≠ .close)
    {r' : Recorder Ts cap} (same : r'.writer = r.writer) :
    Complete host flushInterval (events ++ [event]) r' where
  counting := by
    rw [same]
    exact inv.counting
  accepted := by
    rw [same, arrived_quiet quiet]
    exact inv.accepted
  aligned := by
    rw [same]
    exact inv.aligned
  closed := inv.still_closed other (fun h => same ▸ h) (by rw [same])

theorem Complete.sample (inv : Complete host flushInterval events r)
    (conserved : r.writer.ledger.Conserved) {x : Sample Ts}
    (accepts : r.writer.ledger.Accepts x.pushArgs) :
    Complete host flushInterval (events ++ [.sample x])
      { r with writer := { r.writer with ledger := r.writer.ledger.push x.pushArgs } } where
  counting := inv.counting.push conserved _
  accepted := by
    change (r.writer.ledger.push x.pushArgs).accepted = _
    rw [Ledger.accepted_push, if_pos accepts, arrived_sample, inv.accepted, List.map_append]
    rfl
  aligned := by
    obtain ⟨steps, run⟩ := inv.aligned
    have aligned : RecordWriter.Aligned r.writer (.push x.pushArgs) :=
      fun accepts => noGap_of_counting inv.counting conserved accepts
    exact ⟨_, run.snoc (a := Step.push x.pushArgs) trivial aligned⟩
  closed := inv.still_closed (by simp) (fun h => h) rfl

theorem Complete.thread (inv : Complete host flushInterval events r)
    (running : r.writer.thread ≠ .none ∧ r.writer.thread ≠ .done)
    (none_dropped : r.writer.ledger.ring.droppedCount = 0) (now : Int)
    (written : List PoppedRecord) :
    Complete host flushInterval (events ++ [.thread now]) { r with
      writer := r.writer.writerThreadMain host flushInterval now, written } := by
  have moves := (RecordWriter.threadStep host flushInterval now r.writer running.1).moves
  refine ⟨?_, ?_, ?_, ?_⟩
  · change (r.writer.writerThreadMain host flushInterval now).ledger.Counting
    rcases moves.ring with ⟨same, -⟩ | ⟨n, popped, -⟩
    · rw [same]
      exact inv.counting
    · rw [popped]
      apply inv.counting.pop
      intro _
      rw [none_dropped]
      exact Nat.zero_mod _
  · rw [arrived_quiet rfl]
    exact moves.accepted.trans inv.accepted
  · obtain ⟨steps, run⟩ := inv.aligned
    exact ⟨_, run.snoc (a := Step.thread now) running trivial⟩
  · have same : (r.writer.writerThreadMain host flushInterval now).closing = r.writer.closing ∧
        (r.writer.writerThreadMain host flushInterval now).closedAt = r.writer.closedAt := by
      unfold RecordWriter.writerThreadMain
      split <;> exact ⟨rfl, rfl⟩
    exact inv.still_closed (by simp) (fun h => same.1 ▸ h) same.2

theorem Complete.openCall (inv : Complete host flushInterval events r)
    (idle : r.writer.thread = .none) (topics : List TopicInfo) (fd now : Int)
    (written : List PoppedRecord) (opened : Bool) :
    Complete host flushInterval (events ++ [.openCall fd now]) { r with
      writer := r.writer.openCall host topics fd now, written, opened } := by
  obtain ⟨steps, run⟩ := inv.aligned
  have opens := run.snoc (a := Step.openCall topics fd now) idle trivial
  refine ⟨?_, ?_, ⟨_, opens⟩, ?_⟩
  · change (r.writer.openCall host topics fd now).ledger.Counting
    unfold RecordWriter.openCall
    dsimp only
    split <;> exact inv.counting
  · rw [arrived_quiet rfl, ← inv.accepted]
    unfold RecordWriter.openCall
    dsimp only
    split <;> rfl
  · apply inv.still_closed (by simp)
    · unfold RecordWriter.openCall
      dsimp only
      split <;> exact fun h => h
    · unfold RecordWriter.openCall
      dsimp only
      split <;> rfl

theorem arrived_before {pre post : List (I2wRecorder.Event Ts)} (split : events = pre ++ post) :
    arrived pre <+: arrived events := by
  rw [split, arrived, arrived, List.filterMap_append]
  exact List.prefix_append _ _

theorem Complete.close (inv : Complete host flushInterval events r)
    (calm : r.writer.closing = false) :
    Complete host flushInterval (events ++ [.close]) { r with writer := r.writer.close } := by
  obtain ⟨steps, run⟩ := inv.aligned
  have closes := run.snoc (a := Step.close) calm trivial
  refine ⟨?_, ?_, ⟨_, closes⟩, ?_⟩
  · change r.writer.close.ledger.Counting
    unfold RecordWriter.close
    split <;> exact inv.counting
  · rw [arrived_quiet rfl, ← inv.accepted]
    unfold RecordWriter.close
    split <;> rfl
  · unfold RecordWriter.close
    split
    · intro waits
      exact absurd (calm.symm.trans waits) Bool.false_ne_true
    · intro _ pre post split
      have before : ∃ rest, events = pre ++ rest := by
        rcases split_snoc split with ⟨-, rfl⟩ | ⟨post', earlier⟩
        · exact ⟨[], (List.append_nil _).symm⟩
        · exact ⟨_, earlier⟩
      obtain ⟨rest, earlier⟩ := before
      have bound := (arrived_before earlier).length_le
      change _ ≤ r.writer.ledger.accepted.length
      rw [inv.accepted, List.length_map]
      exact bound

/-- As long as no drop is counted, everything is accepted. -/
theorem complete_of_run (lawful : ∀ T ∈ Ts, LawfulCodec T)
    (run : (machine config subscribes host flushInterval).Run Machine.Free
      ({} : Recorder Ts cap) events r) (few : (arrived events).length < 2 ^ 64)
    (none_dropped : r.writer.ledger.ring.droppedCount = 0) :
    Complete host flushInterval events r := by
  induction run with
  | nil => exact complete_init
  | @snoc events r event prior enabled _ ih =>
      have recorded := recorded_of_run prior
      cases arrives : sample? event with
      | none =>
          rw [arrived_quiet arrives] at few
          rw [(next_quiet arrives enabled).1] at none_dropped
          have inv := ih few none_dropped
          cases event with
          | subscribe =>
              obtain ⟨i, head, -, -⟩ := enabled
              obtain ⟨rest, todo⟩ := List.head?_eq_some_iff.mp head
              simp only [machine, todo]
              exact inv.keep rfl (by simp) rfl
          | setupOne =>
              obtain ⟨i, head, -⟩ := enabled
              obtain ⟨rest, todo⟩ := List.head?_eq_some_iff.mp head
              simp only [machine, todo]
              exact inv.keep rfl (by simp) rfl
          | sample x => exact absurd arrives (Option.some_ne_none x)
          | openCall fd now => exact inv.openCall enabled.2.2 _ fd now _ _
          | thread now => exact inv.thread enabled none_dropped now _
          | close => exact inv.close enabled
          | join =>
              obtain ⟨steps, aligned⟩ := inv.aligned
              refine ⟨inv.counting, ?_, ⟨_, aligned.snoc (a := Step.join) enabled trivial⟩, ?_⟩
              · rw [arrived_quiet rfl]
                exact inv.accepted
              · exact fun waits => absurd waits Bool.false_ne_true
      | some x =>
          obtain rfl : event = .sample x := by
            cases event <;> simp_all [sample?]
          have after := balanced_of_run lawful (prior.snoc enabled trivial) few
          rw [arrived_sample, List.length_append, List.length_singleton] at few after
          have before := balanced_of_run lawful prior (by omega)
          change (r.writer.ledger.push x.pushArgs).ring.droppedCount.toNat +
            (r.writer.ledger.push x.pushArgs).accepted.length = _ at after
          change (r.writer.ledger.push x.pushArgs).ring.droppedCount = 0 at none_dropped
          rw [none_dropped, Ledger.accepted_push] at after
          rcases push_counts (len_pushArgs_le lawful x) (t := r.writer.ledger) with
            ⟨accepts, same⟩ | ⟨refused, -⟩
          · exact (ih (by omega) (same.symm.trans none_dropped)).sample recorded.conserved accepts
          · -- a drop would leave one more accepted than arrived
            rw [if_neg refused] at after
            change 0 + _ = _ at after
            omega

/-! The first session of a recorder. -/

def isOpenCall : I2wRecorder.Event Ts → Bool
  | .openCall _ _ => true
  | _ => false

/-- Nothing is popped before the first Open, so the first session starts with the first record. -/
structure Fresh (events : List (I2wRecorder.Event Ts)) (r : Recorder Ts cap) : Prop where
  unopened : events.countP isOpenCall = 0 → r.writer.thread = .none ∧ r.writer.ledger.popped = []
  first : events.countP isOpenCall ≤ 1 → r.writer.openedAt = 0

theorem fresh_init : Fresh [] ({} : Recorder Ts cap) where
  unopened _ := ⟨rfl, rfl⟩
  first _ := rfl

theorem countP_other {event : I2wRecorder.Event Ts} (other : isOpenCall event = false) :
    (events ++ [event]).countP isOpenCall = events.countP isOpenCall := by
  simp [List.countP_append, other]

/-- An event that pops nothing and opens nothing. -/
theorem Fresh.keep (inv : Fresh events r) {event : I2wRecorder.Event Ts}
    (other : isOpenCall event = false) {r' : Recorder Ts cap}
    (thread : r.writer.thread = .none → r'.writer.thread = .none)
    (popped : r'.writer.ledger.popped = r.writer.ledger.popped)
    (openedAt : r'.writer.openedAt = r.writer.openedAt) : Fresh (events ++ [event]) r' where
  unopened none := by
    rw [countP_other other] at none
    obtain ⟨idle, nothing⟩ := inv.unopened none
    exact ⟨thread idle, popped.trans nothing⟩
  first once := by
    rw [countP_other other] at once
    exact openedAt.trans (inv.first once)

theorem Fresh.next (inv : Fresh events r) {event : I2wRecorder.Event Ts}
    (enabled : (machine config subscribes host flushInterval).Enabled r event) :
    Fresh (events ++ [event]) ((machine config subscribes host flushInterval).next r event) := by
  cases event with
  | subscribe =>
      obtain ⟨i, head, -, -⟩ := enabled
      obtain ⟨rest, todo⟩ := List.head?_eq_some_iff.mp head
      simp only [machine, todo]
      exact inv.keep rfl (fun h => h) rfl rfl
  | setupOne =>
      obtain ⟨i, head, -⟩ := enabled
      obtain ⟨rest, todo⟩ := List.head?_eq_some_iff.mp head
      simp only [machine, todo]
      exact inv.keep rfl (fun h => h) rfl rfl
  | sample x => exact inv.keep rfl (fun h => h) (Ledger.popped_push _ _) rfl
  | openCall fd now =>
      have more : (events ++ [I2wRecorder.Event.openCall fd now]).countP isOpenCall =
          events.countP isOpenCall + 1 := by
        simp [List.countP_append, isOpenCall]
      refine ⟨fun none => absurd (more.symm.trans none) (Nat.succ_ne_zero _), ?_⟩
      intro once
      rw [more] at once
      have unopened : events.countP isOpenCall = 0 := by omega
      change (r.writer.openCall host r.system.enabledTopics fd now).openedAt = 0
      unfold RecordWriter.openCall
      dsimp only
      split
      · change r.writer.ledger.popped.length = 0
        rw [(inv.unopened unopened).2]
        rfl
      · exact inv.first (by omega)
  | thread now =>
      have moves := (RecordWriter.threadStep host flushInterval now r.writer enabled.1).moves
      refine ⟨?_, ?_⟩
      · intro none
        rw [countP_other rfl] at none
        exact absurd (inv.unopened none).1 enabled.1
      · intro once
        rw [countP_other rfl] at once
        exact moves.openedAt.trans (inv.first once)
  | close =>
      change Fresh _ { r with writer := r.writer.close }
      unfold RecordWriter.close
      split <;> exact inv.keep rfl (fun h => h) rfl rfl
  | join => exact inv.keep rfl (fun _ => rfl) rfl rfl

theorem fresh_of_run (run : (machine config subscribes host flushInterval).Run Machine.Free
    ({} : Recorder Ts cap) events r) : Fresh events r := by
  induction run with
  | nil => exact fresh_init
  | snoc _ enabled _ ih => exact ih.next enabled

/-! The session that ends. -/

/-- The last record ends with the file. -/
theorem recordsEnd_whole (recorded : Recorded config subscribes host r) (opened : r.opened = true)
    (succeed : host.io.Succeed) {samples : List (Sample Ts)}
    (records : r.written.map PoppedRecord.record = samples.map (fun x => x.pushArgs.record)) :
    recordsEnd host r samples.length = r.writer.out.disk.file.length := by
  have count : (pieces r).length = samples.length := by
    have lengths := congrArg List.length records
    rwa [List.length_map, List.length_map, ← List.length_map (f := fun rec : PoppedRecord =>
      recordBytes rec.record)] at lengths
  rw [recordsEnd, ← count, List.take_length, file_of_succeed succeed recorded opened,
    List.length_append]

/-- A closed file of which every record is a sample's is replayed as these samples. -/
theorem republishes_whole (recorded : Recorded config subscribes host r) (opened : r.opened = true)
    (succeed : host.io.Succeed) (distinct : (Ts.map TopicType.id).Nodup)
    (lawful : ∀ T ∈ Ts, LawfulCodec T) {samples : List (Sample Ts)}
    (wanted : ∀ x ∈ samples, Wanted config subscribes x)
    (records : r.written.map PoppedRecord.record = samples.map (fun x => x.pushArgs.record))
    {image : FileImage} (whole : image.bytes = r.writer.out.disk.file)
    (beyond : Nat → List UInt8) (now : UInt64) : Republishes image beyond now samples := by
  have ends : recordsEnd host r samples.length = image.bytes.length :=
    (recordsEnd_whole recorded opened succeed records).trans (congrArg List.length whole).symm
  have long : recordsEnd host r 0 ≤ image.bytes.length := by
    rw [← ends]
    simp [recordsEnd]
  obtain ⟨k, le, ends_iff, republishes⟩ := republishes_image recorded opened succeed distinct lawful
    (by rw [whole]) wanted records long beyond now
  have all := (ends_iff _ (Nat.le_refl _)).mpr ends.le
  rwa [List.take_of_length_le all] at republishes

/-- The final drain left nothing behind that had been accepted before Close. -/
theorem Complete.drained (complete : Complete host flushInterval events r)
    (succeed : host.io.Succeed) (done : r.writer.thread = .done) :
    r.writer.closedAt ≤ r.writer.ledger.popped.length := by
  obtain ⟨steps, aligned⟩ := complete.aligned
  apply RecordWriter.drained_of_run succeed aligned
  rw [done]
  rfl

theorem Complete.popped_le (complete : Complete host flushInterval events r) :
    r.writer.ledger.popped.length ≤ (arrived events).length := by
  have le := complete.counting.popped_le
  rwa [complete.accepted, List.length_map] at le

theorem Complete.wanted (complete : Complete host flushInterval events r)
    (traced : Traced config subscribes events r) :
    ∀ x ∈ arrived events, Wanted config subscribes x := by
  obtain ⟨xs, among, each, same⟩ := traced.accepted
  have all : xs = arrived events := by
    apply among.eq_of_length
    have lengths := congrArg List.length (same.symm.trans complete.accepted)
    rwa [List.length_map, List.length_map] at lengths
  rwa [← all]

/-- What a session has written is what arrived, up to the last record popped. -/
theorem Complete.records (complete : Complete host flushInterval events r)
    (traced : Traced config subscribes events r) (conserved : r.writer.ledger.Conserved)
    (opened : r.opened = true) (done : r.writer.thread = .done) :
    r.written.map PoppedRecord.record =
      (((arrived events).take r.writer.ledger.popped.length).drop r.writer.openedAt).map
        (fun x => x.pushArgs.record) := by
  have numbers : r.writer.ledger.popped.map Prod.fst =
      List.range r.writer.ledger.popped.length := by
    simpa [Ledger.window] using complete.counting.queue.taken
  have handed := traced.handed opened
  rw [done] at handed
  simp only [ThreadPc.holds, Bool.false_eq_true, if_false, List.append_nil] at handed
  rw [handed, List.map_map]
  change List.map (fun p : Nat × PoppedRecord => p.2.record) _ = _
  rw [List.map_drop, conserved.popped_records numbers, complete.accepted, List.map_map,
    ← List.map_take, ← List.map_drop]
  rfl

end ChronoCap.CompleteSession

/- module: ChronoCap/ReaderReuse
   source: src/core/record_reader.cpp, include/chrono_cap/record_reader.hpp
   digest: Several Opens of one RecordReader: what a failed one and an earlier one leave behind. -/

import ChronoCap.FileGrammar
import ChronoCap.Foundation.Machine

set_option autoImplicit false
set_option relaxedAutoImplicit false

namespace ChronoCap.ReaderReuse

open ChronoCap.Foundation
open ChronoCap.WireFormat
open ChronoCap.RecordReader
open ChronoCap.RecordGrammar
open ChronoCap.FileGrammar

universe u

/-- One call of Open; the hook works on `σ`. -/
structure Call (σ : Type u) where
  calls : OpenCalls
  beyond : Nat → List UInt8
  hook : Option (σ → ResolvedTopic → Bool × σ)

variable {σ : Type u}

/-- The reader that the call leaves behind if it is the only one on a fresh reader. -/
def Call.alone (c : Call σ) (s : σ) : RecordReader :=
  match RecordReader.open 64 c.beyond c.calls c.hook {} s with
  | some (_, r, _) => r
  | none => {}

/-- A reader after some Opens, what their hooks worked on, and what the last Open that returned
true would have made of a fresh reader. -/
structure Reopened (σ : Type u) where
  reader : RecordReader := {}
  world : σ
  expected : RecordReader := {}

def machine (σ : Type u) : Machine (Reopened σ) (Call σ) where
  Enabled _ _ := True
  next u c :=
    match RecordReader.open 64 c.beyond c.calls c.hook u.reader u.world with
    | some (true, reader, world) => ⟨reader, world, c.alone u.world⟩
    | some (false, reader, world) => { u with reader, world }
    | none => u

/-- The reader after a history of Opens. -/
def after (s : σ) (history : List (Call σ)) : Reopened σ :=
  history.foldl (machine σ).next { world := s }

/-- Why Run ends, and the callbacks it makes. -/
def replayed (now : UInt64) (r : RecordReader) : Option (Stop × List Callback) :=
  (run 64 now r).map (fun x => (x.1, x.2.callbacks))

/-- The reader is the one the last successful Open alone would have left. -/
structure Atomic (u : Reopened σ) : Prop where
  topics : u.reader.topics = u.expected.topics
  base : u.reader.base = u.expected.base
  fileSize : u.reader.fileSize = u.expected.fileSize
  mapping : u.reader.fileSize = (u.reader.base.getD []).length
  run : ∀ now, replayed now u.reader = replayed now u.expected

/-- How far the system calls of an Open get. -/
inductive Outcome where
  | unopened
  | unmapped (F : FileImage)
  | mapped (F : FileImage)

def Call.outcome (c : Call σ) : Outcome :=
  match c.calls.file with
  | none => .unopened
  | some F =>
      if c.calls.fstatOk = false then .unopened
      else if c.calls.mmapOk = false ∨ F.bytes.length = 0 then .unmapped F
      else .mapped F

/-- Whether the hook, if any, takes all of the topics, and what it then has worked. -/
def ask (hook : Option (σ → ResolvedTopic → Bool × σ)) (topics : List ResolvedTopic) (s : σ) :
    Bool × σ :=
  match hook with
  | none => (true, s)
  | some hook => askHook hook topics s

/-- The Open fails before fstat has answered; or it fails to map a file of the size that the reader
has already; or it maps a well-formed file whose topics the hook takes, and the reader has no
topics yet. -/
def Replaces (u : Reopened σ) (c : Call σ) : Prop :=
  match c.outcome with
  | .unopened => True
  | .unmapped F => F.bytes.length = u.reader.fileSize
  | .mapped F => WellFormed F.bytes ∧ u.reader.topics = [] ∧
      (ask c.hook (readTable c.beyond F.bytes) u.world).1 = true

/-- A reader that has parsed a file, with the topics it had before. -/
def loaded (topics : List ResolvedTopic) (beyond : Nat → List UInt8) (F : List UInt8) :
    RecordReader where
  base := some F
  fileSize := F.length
  recordsStartOffset := recordsStart F
  topics := topics ++ readTable beyond F
  byId := lastEntry (topics ++ readTable beyond F)

/-! What one Open does. -/

theorem eq_loaded {t : RecordReader} {F : List UInt8} {topics : List ResolvedTopic}
    {beyond : Nat → List UInt8} (mapped : Mapped t F)
    (start : t.recordsStartOffset = recordsStart F)
    (table : t.topics = topics ++ readTable beyond F) : t = loaded topics beyond F := by
  obtain ⟨base, fileSize, recordsStartOffset, all, byId⟩ := t
  obtain ⟨rfl, rfl, -, known⟩ := mapped
  obtain rfl : recordsStartOffset = recordsStart F := start
  obtain rfl : all = topics ++ readTable beyond F := table
  obtain rfl : byId = lastEntry (topics ++ readTable beyond F) := known
  rfl

/-- The reader looks topics up in its table. -/
def Known (r : RecordReader) : Prop := r.byId = lastEntry r.topics

theorem known_fresh : Known {} := by
  funext id
  rfl

/-- Parsing, however far it gets, neither moves the mapping nor breaks the table. -/
theorem parseEntries_keeps (beyond : Nat → List UInt8) (n : Nat) {i offset : Nat}
    {r t : RecordReader} {ok : Bool} (known : Known r)
    (parsed : parseEntries 64 beyond n i offset r = some (ok, t)) :
    t.base = r.base ∧ Known t := by
  induction n generalizing i offset r with
  | zero =>
      cases parsed
      exact ⟨rfl, known⟩
  | succ n ih =>
      rw [parseEntries] at parsed
      split at parsed
      · cases parsed
        exact ⟨rfl, known⟩
      · obtain ⟨entry, -, rest⟩ := Option.bind_eq_some_iff.mp parsed
        have added : Known (r.addTopic (resolve (beyond i) entry)) := by
          unfold Known RecordReader.addTopic
          rw [known, lastEntry_append]
        have kept := ih added rest
        exact kept

theorem parseHeaderAndMetadata_keeps {beyond : Nat → List UInt8} {r t : RecordReader} {ok : Bool}
    (known : Known r) (parsed : parseHeaderAndMetadata 64 beyond r = some (ok, t)) :
    t.base = r.base ∧ Known t := by
  unfold parseHeaderAndMetadata at parsed
  split at parsed
  · cases parsed
    exact ⟨rfl, known⟩
  · split at parsed
    · contradiction
    · cases parsed
      exact ⟨rfl, known⟩
    · split at parsed
      · cases parsed
        exact ⟨rfl, known⟩
      · exact parseEntries_keeps beyond _ known parsed

theorem Call.outcome_spec (c : Call σ) :
    match c.outcome with
    | .unopened => c.calls.file = none ∨ c.calls.fstatOk = false
    | .unmapped F => c.calls.file = some F ∧ ¬ c.calls.fstatOk = false ∧
        (c.calls.mmapOk = false ∨ F.bytes.length = 0)
    | .mapped F => c.calls.file = some F ∧ ¬ c.calls.fstatOk = false ∧
        ¬ (c.calls.mmapOk = false ∨ F.bytes.length = 0) := by
  unfold Call.outcome
  cases file : c.calls.file with
  | none => exact .inl rfl
  | some F =>
      by_cases lost : c.calls.fstatOk = false
      · simp only [if_pos lost]
        exact .inr lost
      · by_cases failed : c.calls.mmapOk = false ∨ F.bytes.length = 0
        · simp only [if_neg lost, if_pos failed]
          exact ⟨trivial, lost, failed⟩
        · simp only [if_neg lost, if_neg failed]
          exact ⟨trivial, lost, failed⟩

theorem open_unopened {c : Call σ} (outcome : c.outcome = .unopened) (r : RecordReader) (s : σ) :
    RecordReader.open 64 c.beyond c.calls c.hook r s = some (false, r, s) := by
  have spec := c.outcome_spec
  rw [outcome] at spec
  unfold RecordReader.open
  cases file : c.calls.file with
  | none => rfl
  | some F => exact if_pos (spec.resolve_left (by simp [file]))

theorem open_unmapped {c : Call σ} {F : FileImage} (outcome : c.outcome = .unmapped F)
    (r : RecordReader) (s : σ) :
    RecordReader.open 64 c.beyond c.calls c.hook r s =
      some (false, { r with fileSize := F.bytes.length }, s) := by
  have spec := c.outcome_spec
  rw [outcome] at spec
  obtain ⟨file, found, failed⟩ := spec
  unfold RecordReader.open
  simp only [file, F.size_mod]
  rw [if_neg found, if_pos failed]

/-- A mapped file: the reader is mapped to it whatever is answered; a well-formed one is loaded and
its topics are asked about, after those the reader had before. -/
theorem open_mapped {c : Call σ} {F : FileImage} (outcome : c.outcome = .mapped F)
    {r : RecordReader} (known : Known r) (s : σ) :
    ∃ ok t s', RecordReader.open 64 c.beyond c.calls c.hook r s = some (ok, t, s') ∧
      (t.base = some F.bytes ∧ Known t) ∧ (ok = true → WellFormed F.bytes) ∧
      (WellFormed F.bytes → t = loaded r.topics c.beyond F.bytes ∧
        (ok, s') = ask c.hook (r.topics ++ readTable c.beyond F.bytes) s) := by
  have mapped : Mapped { r with fileSize := F.bytes.length, base := some F.bytes } F.bytes :=
    ⟨rfl, rfl, F.size_lt, known⟩
  obtain ⟨ok, t, parsed, accepts, result⟩ := parseHeaderAndMetadata_spec c.beyond mapped
  have keeps := parseHeaderAndMetadata_keeps mapped.byId parsed
  have spec := c.outcome_spec
  rw [outcome] at spec
  obtain ⟨file, found, maps⟩ := spec
  unfold RecordReader.open
  simp only [file, F.size_mod, List.take_length]
  rw [if_neg found, if_neg maps, parsed]
  cases ok with
  | false =>
      refine ⟨false, t, s, rfl, keeps, fun h => absurd h Bool.false_ne_true, ?_⟩
      exact fun wf => absurd (accepts.mpr wf) Bool.false_ne_true
  | true =>
      obtain ⟨mapped, start, topics⟩ := result rfl
      have whole := eq_loaded mapped start topics
      have wf := accepts.mp rfl
      subst whole
      cases hook : c.hook with
      | none => exact ⟨true, _, s, rfl, keeps, fun _ => wf, fun _ => ⟨rfl, rfl⟩⟩
      | some hook => exact ⟨_, _, _, rfl, keeps, fun _ => wf, fun _ => ⟨rfl, rfl⟩⟩

theorem alone_mapped {c : Call σ} {F : FileImage} (outcome : c.outcome = .mapped F)
    (wf : WellFormed F.bytes) (s : σ) : c.alone s = loaded [] c.beyond F.bytes := by
  obtain ⟨ok, t, s', opened, -, -, result⟩ := open_mapped outcome known_fresh s
  rw [Call.alone, opened]
  exact (result wf).1

/-! Whole histories. -/

/-- Open reads nothing outside its mapping, on a reader that other Opens have gone through. -/
theorem open_answers (s : σ) (history : List (Call σ)) (c : Call σ) :
    ∃ ok t s', RecordReader.open 64 c.beyond c.calls c.hook (after s history).reader
      (after s history).world = some (ok, t, s') := by
  have answers : ∀ (r : RecordReader) (s : σ) (c : Call σ), Known r →
      ∃ ok t s', RecordReader.open 64 c.beyond c.calls c.hook r s = some (ok, t, s') ∧
        Known t := by
    intro r s c known
    cases outcome : c.outcome with
    | unopened => exact ⟨false, r, s, open_unopened outcome r s, known⟩
    | unmapped F => exact ⟨false, _, s, open_unmapped outcome r s, known⟩
    | mapped F =>
        obtain ⟨ok, t, s', opened, ⟨-, known⟩, -⟩ := open_mapped outcome known s
        exact ⟨ok, t, s', opened, known⟩
  have known : ∀ {u : Reopened σ}, (machine σ).Run Machine.Free { world := s } history u →
      Known u.reader := by
    intro u run
    apply Machine.Run.invariant run
    · exact known_fresh
    · intro u c known _ _
      obtain ⟨ok, t, s', opened, known⟩ := answers u.reader u.world c known
      cases ok with
      | false => simpa only [machine, opened] using known
      | true => simpa only [machine, opened] using known
  obtain ⟨ok, t, s', opened, -⟩ := answers (after s history).reader (after s history).world c
    (known (Machine.run_foldl (fun _ _ => trivial) _ history))
  exact ⟨ok, t, s', opened⟩

/-- As long as nothing went wrong the reader is fresh or holds one file, in all its members. -/
structure Whole (u : Reopened σ) : Prop where
  same : u.reader = u.expected
  origin : u.reader = {} ∨
    ∃ beyond F, WellFormed F ∧ u.reader = loaded [] beyond F

variable {u : Reopened σ}

theorem Whole.known (inv : Whole u) : Known u.reader := by
  rcases inv.origin with fresh | ⟨beyond, F, -, holds⟩
  · rw [fresh]
    exact known_fresh
  · rw [holds]
    rfl

theorem Whole.atomic (inv : Whole u) : Atomic u where
  topics := congrArg RecordReader.topics inv.same
  base := congrArg RecordReader.base inv.same
  fileSize := congrArg RecordReader.fileSize inv.same
  mapping := by
    rcases inv.origin with fresh | ⟨beyond, F, -, holds⟩
    · rw [fresh]
      rfl
    · rw [holds]
      rfl
  run now := by rw [inv.same]

theorem whole_init (s : σ) : Whole ({ world := s } : Reopened σ) := ⟨rfl, .inl rfl⟩

theorem next_unopened {c : Call σ} (outcome : c.outcome = .unopened) :
    (machine σ).next u c = u := by
  simp only [machine, open_unopened outcome]

theorem next_unmapped {c : Call σ} {F : FileImage} (outcome : c.outcome = .unmapped F) :
    (machine σ).next u c = { u with reader := { u.reader with fileSize := F.bytes.length } } := by
  simp only [machine, open_unmapped outcome]

/-- A file that is accepted is loaded behind the topics that are there. -/
theorem next_accepted (inv : Whole u) {c : Call σ} {F : FileImage}
    (outcome : c.outcome = .mapped F) (wf : WellFormed F.bytes)
    (accepts : (ask c.hook (u.reader.topics ++ readTable c.beyond F.bytes) u.world).1 = true) :
    ∃ world, (machine σ).next u c =
      ⟨loaded u.reader.topics c.beyond F.bytes, world, loaded [] c.beyond F.bytes⟩ := by
  obtain ⟨ok, t, s', opened, -, -, result⟩ := open_mapped outcome inv.known u.world
  obtain ⟨rfl, answer⟩ := result wf
  obtain rfl : ok = true := (congrArg Prod.fst answer).trans accepts
  exact ⟨s', by simp only [machine, opened, alone_mapped outcome wf]⟩

theorem Whole.next (inv : Whole u) {c : Call σ} (replaces : Replaces u c) :
    Whole ((machine σ).next u c) := by
  unfold Replaces at replaces
  split at replaces
  · rename_i outcome
    rw [next_unopened outcome]
    exact inv
  · rename_i F outcome
    have unchanged : { u.reader with fileSize := F.bytes.length } = u.reader := by rw [replaces]
    rw [next_unmapped outcome, unchanged]
    exact inv
  · rename_i F outcome
    obtain ⟨wf, empty, accepts⟩ := replaces
    obtain ⟨world, next⟩ := next_accepted inv outcome wf (by rw [empty]; exact accepts)
    rw [next, empty]
    exact ⟨rfl, .inr ⟨c.beyond, F.bytes, wf, rfl⟩⟩

/-- A file that is mapped and refused stays behind in the reader, one way or the other. -/
theorem Whole.refused_not_atomic (inv : Whole u) {c : Call σ} {F : FileImage}
    (outcome : c.outcome = .mapped F) {t : RecordReader} {s' : σ}
    (opened : RecordReader.open 64 c.beyond c.calls c.hook u.reader u.world = some (false, t, s')) :
    ¬ Atomic ((machine σ).next u c) := by
  obtain ⟨ok, t', s'', opened', ⟨base, -⟩, -, result⟩ := open_mapped outcome inv.known u.world
  rw [opened] at opened'
  obtain ⟨rfl, rfl, rfl⟩ : false = ok ∧ t = t' ∧ s' = s'' := by simpa using opened'
  have next : (machine σ).next u c = { u with reader := t, world := s' } := by
    simp only [machine, opened]
  rw [next]
  intro atomic
  have mapped : some F.bytes = u.reader.base := by
    rw [← base, inv.same]
    exact atomic.base
  rcases inv.origin with fresh | ⟨beyond, G, wf, holds⟩
  · rw [fresh] at mapped
    cases mapped
  · -- the same bytes once more: they are well formed, and their table is appended
    have mapped : some F.bytes = (loaded [] beyond G).base := holds ▸ mapped
    obtain rfl : F.bytes = G := Option.some.inj mapped
    obtain ⟨rfl, answer⟩ := result wf
    have doubled : u.reader.topics ++ readTable c.beyond F.bytes = u.reader.topics := by
      have topics := atomic.topics
      rwa [← inv.same] at topics
    have none : readTable c.beyond F.bytes = [] := List.append_right_eq_self.mp doubled
    have count : entryCount F.bytes = 0 := by
      simpa [readTable] using none
    have empty : u.reader.topics = [] := by
      rw [holds]
      simp [loaded, readTable, count]
    rw [doubled, empty] at answer
    cases hook : c.hook with
    | none => simp [ask, hook] at answer
    | some hook => simp [ask, hook, askHook] at answer

theorem Whole.replaces (inv : Whole u) {c : Call σ} (atomic : Atomic ((machine σ).next u c)) :
    Replaces u c := by
  cases outcome : c.outcome with
  | unopened => simp only [Replaces, outcome]
  | unmapped F =>
      rw [next_unmapped outcome] at atomic
      simp only [Replaces, outcome]
      rw [inv.same]
      exact atomic.fileSize
  | mapped F =>
      simp only [Replaces, outcome]
      obtain ⟨ok, t, s', opened, -, accepted, result⟩ := open_mapped outcome inv.known u.world
      cases ok with
      | false => exact absurd atomic (inv.refused_not_atomic outcome opened)
      | true =>
          have wf := accepted rfl
          obtain ⟨rfl, answer⟩ := result wf
          have accepts := (congrArg Prod.fst answer).symm
          obtain ⟨world, next⟩ := next_accepted inv outcome wf accepts
          rw [next] at atomic
          have alone : u.reader.topics ++ readTable c.beyond F.bytes =
              [] ++ readTable c.beyond F.bytes := atomic.topics
          have empty := List.append_cancel_right alone
          rw [empty] at accepts
          exact ⟨wf, empty, accepts⟩

/-- The reader is always that of the last successful Open alone, exactly if each Open of the
history replaces or changes nothing. -/
theorem atomic_iff_replaces (s : σ) (history : List (Call σ)) :
    (∀ made, made <+: history → Atomic (after s made)) ↔
      (machine σ).Fires Replaces { world := s } history := by
  apply Machine.always_iff_fires (fun _ _ => trivial) Whole (whole_init s) (whole_init s).atomic
  · intro u c inv _
    exact ⟨inv.replaces, fun replaces => (inv.next replaces).atomic⟩
  · exact fun u c inv _ replaces => inv.next replaces

/-- A file with one topic, opened without a hook. -/
def plainCall : Call Unit := ⟨{ file := some (oneTopicFile 0) }, fun _ => [], none⟩

/-- A file cut within its header. -/
def shortCall : Call Unit :=
  ⟨{ file := some ⟨[0x42], by decide⟩ }, fun _ => [], none⟩

/-- The first file's topics are listed next to those of the second; and a failed Open leaves the
reader mapped to the file it refused. -/
theorem reopened_not_atomic :
    ((after () [plainCall, plainCall]).reader.topics.length = 2 ∧
      (after () [plainCall, plainCall]).expected.topics.length = 1 ∧
      ¬ Atomic (after () [plainCall, plainCall])) ∧
    ((after () [shortCall]).reader.fileSize = 1 ∧ (after () [shortCall]).expected.fileSize = 0 ∧
      ¬ Atomic (after () [shortCall])) := by
  refine ⟨⟨by decide, by decide, ?_⟩, by decide, by decide, ?_⟩
  · intro atomic
    exact absurd (congrArg List.length atomic.topics) (by decide)
  · intro atomic
    exact absurd atomic.fileSize (by decide)

end ChronoCap.ReaderReuse

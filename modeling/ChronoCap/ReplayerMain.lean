/- module: ChronoCap/ReplayerMain
   source: src/i2wReplayer.cpp, include/chrono_cap/generic_replayer.hpp
   digest: main of i2wReplayer: its exit code and what it publishes, for every file. -/

import ChronoCap.GenericReplayer

set_option autoImplicit false
set_option relaxedAutoImplicit false

namespace ChronoCap.ReplayerMain

open ChronoCap.Foundation
open ChronoCap.RecordReader
open ChronoCap.RecordGrammar
open ChronoCap.FileGrammar
open ChronoCap.GenericReplayerSystem

variable {Ts : List TopicType}

/-- main, with the exit code and what is left of the system; `none` is a read outside the mapping or
outside a payload, or a loop without end. `setupOk` is the answer of Setup, and `now` what the clock
shows when Run asks for it. -/
def i2wReplayer (argc : Nat) (setupOk : Bool) (calls : OpenCalls) (beyond : Nat → List UInt8)
    (advertise : Nat → Bool) (now : UInt64) : Option (Nat × GenericReplayerSystem Ts) :=
  if argc < 2 then some (1, {})
  else if setupOk = false then some (1, {})
  else
    match RecordReader.open 64 beyond calls (some (onTopicFound advertise)) {}
      ({} : GenericReplayerSystem Ts) with
    | none => none
    | some (false, _, s) => some (1, s)
    | some (true, r, s) =>
        if r.topics.isEmpty then some (0, s)
        else
          match run 64 now r with
          | none => none
          | some (.fault, _) => none
          | some (_, t) => (s.replay r t.callbacks).map (fun s => (0, s))

/-- A file that main plays: it can be mapped and is well formed, all its topics are of this build,
in their sizes, and each advertise() succeeds. -/
structure Playable (Ts : List TopicType) (argc : Nat) (setupOk : Bool) (calls : OpenCalls)
    (advertise : Nat → Bool) (F : FileImage) : Prop where
  args : 2 ≤ argc
  setup : setupOk = true
  file : calls.file = some F
  fstat : calls.fstatOk = true
  mmap : calls.mmapOk = true
  format : WellFormed F.bytes
  known : ∀ t ∈ table F.bytes, Known Ts t
  advertised : ∀ k < (table F.bytes).length, advertise k = true

/-- The message of a record of the file, on a publisher that was advertised. -/
structure Message (F : List UInt8) (c : Callback) (b : Publication Ts) : Prop where
  id : (Ts.get b.pos).id = c.topicId
  value : (Ts.get b.pos).decodePayload ((F.drop c.payloadOffset).take c.payloadLen.toNat) =
    some b.value
  stampNs : b.stampNs = c.stampNs
  publisher : b.publisher.isSome = true

/-! What the hook answers. -/

/-- One topic costs a known type one advertise(), whose answer is the hook's. -/
theorem onTopicFound_iff (distinct : (Ts.map TopicType.id).Nodup) (advertise : Nat → Bool)
    (s : GenericReplayerSystem Ts) (t : ResolvedTopic) :
    ((s.onTopicFound advertise t).1 = true ↔ Known Ts t ∧ advertise s.calls = true) ∧
      (Known Ts t → (s.onTopicFound advertise t).2.calls = s.calls + 1) := by
  by_cases known : Known Ts t
  · obtain ⟨i, id, size⟩ := known
    have skips : ∀ i s, (Ts.get i).id ≠ t.topicId → tryAdvertise advertise t s i = s :=
      fun i s other => if_pos (Ne.symm other)
    rw [onTopicFound, Dispatch.foldl_of_mem skips (map_id_finRange Ts ▸ distinct)
      (List.mem_finRange i) id, tryAdvertise, if_neg (not_not.mpr id.symm),
      if_neg (not_not.mpr size)]
    cases answer : advertise s.calls with
    | false => exact ⟨⟨fun h => absurd h (by simp), fun h => absurd h.2 (by simp)⟩, fun _ => rfl⟩
    | true => exact ⟨⟨fun _ => ⟨⟨i, id, size⟩, rfl⟩, fun _ => rfl⟩, fun _ => rfl⟩
  · refine ⟨⟨?_, fun h => absurd h.1 known⟩, fun h => absurd h known⟩
    intro found
    obtain ⟨i, id, size, -⟩ := (onTopicFound_spec advertise s t).2 found
    exact absurd ⟨i, id, size⟩ known

theorem askHook_iff (distinct : (Ts.map TopicType.id).Nodup) (advertise : Nat → Bool)
    (ts : List ResolvedTopic) (s : GenericReplayerSystem Ts) :
    (askHook (onTopicFound advertise) ts s).1 = true ↔
      (∀ t ∈ ts, Known Ts t) ∧ ∀ k < ts.length, advertise (s.calls + k) = true := by
  induction ts generalizing s with
  | nil => simp [askHook]
  | cons t ts ih =>
      obtain ⟨answer, calls⟩ := onTopicFound_iff distinct advertise s t
      have split : (∀ k < (t :: ts).length, advertise (s.calls + k) = true) ↔
          advertise s.calls = true ∧ ∀ k < ts.length, advertise (s.calls + 1 + k) = true := by
        rw [List.length_cons, Nat.forall_lt_succ_left]
        simp only [Nat.add_zero, Nat.add_assoc, Nat.add_comm 1]
      rw [askHook, List.forall_mem_cons, split]
      split
      · rename_i u refused
        rw [refused] at answer
        refine ⟨fun h => absurd h (by simp), ?_⟩
        rintro ⟨⟨known, -⟩, first, -⟩
        exact answer.mpr ⟨known, first⟩
      · rename_i u agreed
        rw [agreed] at answer calls
        obtain ⟨known, first⟩ := answer.mp rfl
        have one : u.calls = s.calls + 1 := calls known
        rw [ih u, one]
        tauto

/-- Whether a topic is known does not depend on how its name was read. -/
theorem known_readTable (beyond : Nat → List UInt8) (F : List UInt8) :
    (∀ t ∈ readTable beyond F, Known Ts t) ↔ ∀ t ∈ table F, Known Ts t := by
  simp only [readTable, table, List.forall_mem_map]
  rfl

theorem length_readTable (beyond : Nat → List UInt8) (F : List UInt8) :
    (readTable beyond F).length = (table F).length := by
  simp [readTable, table]

/-- Without topics there are no records. -/
theorem parse_nil (start : Nat) (region : List UInt8) : parse [] start region = [] := by
  have nothing : (records []).frames region = [] := by
    apply Framing.frames_of_none
    change recordSize [] region = none
    unfold recordSize
    split
    · rfl
    · rfl
  rw [parse, nothing]
  rfl

/-! What Open and Run make of a file. -/

/-- Whatever Open answers, nothing is published before it returns. -/
theorem open_publishes_nothing {calls : OpenCalls} {beyond : Nat → List UInt8}
    {advertise : Nat → Bool} {ok : Bool} {r u : RecordReader} {s s' : GenericReplayerSystem Ts}
    (opened : RecordReader.open 64 beyond calls (some (onTopicFound advertise)) u s =
      some (ok, r, s')) : s'.published = s.published := by
  unfold RecordReader.open at opened
  split at opened
  · cases opened
    rfl
  · split at opened
    · cases opened
      rfl
    · dsimp only at opened
      split at opened
      · cases opened
        rfl
      · split at opened
        · contradiction
        · cases opened
          rfl
        · cases opened
          exact (askHook_advertised advertise _ s).1.2

/-- A file that is not opened or not mapped is refused. -/
theorem open_refused {calls : OpenCalls} (beyond : Nat → List UInt8) (advertise : Nat → Bool)
    (lost : ∀ F, calls.file = some F → calls.fstatOk = true → calls.mmapOk = true → F.bytes = []) :
    ∃ r, RecordReader.open 64 beyond calls (some (onTopicFound advertise)) {}
      ({} : GenericReplayerSystem Ts) = some (false, r, {}) := by
  unfold RecordReader.open
  split
  · exact ⟨_, rfl⟩
  · rename_i F file
    split
    · exact ⟨_, rfl⟩
    · rename_i fstat
      dsimp only
      split
      · exact ⟨_, rfl⟩
      · rename_i mapped
        rw [not_or] at mapped
        have empty := lost F file (by simpa using fstat) (by simpa using mapped.1)
        simp [empty] at mapped

/-- The records of a file whose topics the hook agreed to come out as their messages. -/
theorem replay_messages (distinct : (Ts.map TopicType.id).Nodup)
    (reads : ∀ T ∈ Ts, ReadsWithin T) {F : FileImage} (wf : WellFormed F.bytes) {r : RecordReader}
    (mapped : Mapped r F.bytes) {s : GenericReplayerSystem Ts}
    (advertised : ∀ t ∈ r.topics, Advertised s t) {cs : List Callback}
    (callbacks : cs = parse r.topics (recordsStart F.bytes) (F.bytes.drop (recordsStart F.bytes))) :
    ∃ s' bs, s.replay r cs = some s' ∧ s'.published = s.published ++ bs ∧
      List.Forall₂ (Message F.bytes) cs bs := by
  have each : ∀ c ∈ cs, ∃ b : Publication Ts, Publishes r s c b ∧ Message F.bytes c b := by
    intro c hc
    rw [callbacks] at hc
    obtain ⟨e, there, id, len, within⟩ := mem_parse wf.table hc
    have decodes := decodesPayload_of_advertised distinct reads mapped id len within
      (advertised e there)
    obtain ⟨b, publishes⟩ := decodes.publishes
    obtain ⟨i, only, pub, -, -, -, same, -⟩ := decodes
    have here : b.pos = i := (only b.pos).mp publishes.id
    refine ⟨b, publishes, publishes.id, ?_, publishes.stampNs, ?_⟩
    · rw [← mapped.memory]
      subst here
      exact same.symm.trans publishes.value
    · rw [publishes.publisher]
      subst here
      exact pub
  obtain ⟨bs, all⟩ := Dispatch.exists_forall₂ each
  obtain ⟨s', replayed, -, published⟩ := replay_publishes distinct (all.imp (fun _ _ h => h.1))
  exact ⟨s', bs, replayed, published, all.imp (fun _ _ h => h.2)⟩

/-! The program. -/

/-- An exit code, and what has been published by then. -/
structure Exits (argc : Nat) (setupOk : Bool) (calls : OpenCalls) (advertise : Nat → Bool)
    (code : Nat) (s : GenericReplayerSystem Ts) : Prop where
  codes : code = 0 ∨ code = 1 ∧ s.published = []
  playable : code = 0 ↔ ∃ F, Playable Ts argc setupOk calls advertise F
  messages : ∀ F, Playable Ts argc setupOk calls advertise F →
    List.Forall₂ (Message F.bytes) (parse (table F.bytes) (recordsStart F.bytes)
      (F.bytes.drop (recordsStart F.bytes))) s.published

variable {argc : Nat} {setupOk : Bool} {calls : OpenCalls} {beyond : Nat → List UInt8}
  {advertise : Nat → Bool} {now : UInt64}

theorem exits_refused {s : GenericReplayerSystem Ts} (nothing : s.published = [])
    (unplayable : ∀ F, ¬ Playable Ts argc setupOk calls advertise F) :
    Exits argc setupOk calls advertise 1 s where
  codes := .inr ⟨rfl, nothing⟩
  playable := ⟨fun h => absurd h (by decide), fun ⟨F, playable⟩ => absurd playable (unplayable F)⟩
  messages F playable := absurd playable (unplayable F)

theorem exits_played {s : GenericReplayerSystem Ts} {F : FileImage}
    (playable : Playable Ts argc setupOk calls advertise F)
    (messages : List.Forall₂ (Message F.bytes) (parse (table F.bytes) (recordsStart F.bytes)
      (F.bytes.drop (recordsStart F.bytes))) s.published) :
    Exits argc setupOk calls advertise 0 s where
  codes := .inl rfl
  playable := ⟨fun _ => ⟨F, playable⟩, fun _ => rfl⟩
  messages G other := by
    obtain rfl : G = F := Option.some.inj (other.file.symm.trans playable.file)
    exact messages

/-- From a file that can be mapped on. -/
theorem mapped_exits (distinct : (Ts.map TopicType.id).Nodup) (reads : ∀ T ∈ Ts, ReadsWithin T)
    (args : 2 ≤ argc) {F : FileImage} (nonempty : F.bytes ≠ []) :
    ∃ code, ∃ s : GenericReplayerSystem Ts,
      i2wReplayer argc true { file := some F } beyond advertise now = some (code, s) ∧
        Exits argc true { file := some F } advertise code s := by
  have enough : ¬ argc < 2 := Nat.not_lt_of_le args
  obtain ⟨ok, r, s, opened, accepted, answer⟩ := open_then_run beyond now nonempty
    (some (@onTopicFound Ts advertise)) {}
  have nothing : s.published = [] := open_publishes_nothing opened
  have program : @i2wReplayer Ts argc true { file := some F } beyond advertise now =
      if ok then
        if r.topics.isEmpty then some (0, s)
        else
          match run 64 now r with
          | none => none
          | some (.fault, _) => none
          | some (_, t) => (s.replay r t.callbacks).map (fun s => (0, s))
      else some (1, s) := by
    simp only [i2wReplayer, if_neg enough, Bool.true_eq_false, if_false, opened]
    cases ok <;> rfl
  rw [program]
  cases ok with
  | false =>
      refine ⟨1, s, rfl, exits_refused nothing ?_⟩
      intro G playable
      obtain rfl : F = G := Option.some.inj playable.file
      have agreed := (askHook_iff distinct advertise (readTable beyond F.bytes) {}).mpr
        ⟨(known_readTable beyond F.bytes).mpr playable.known, ?_⟩
      · exact absurd ((congrArg Prod.fst (answer playable.format)).trans agreed) Bool.false_ne_true
      · intro k hk
        rw [length_readTable] at hk
        exact (congrArg advertise (Nat.zero_add k)).trans (playable.advertised k hk)
  | true =>
      obtain ⟨wf, mapped, topics, stop, t, ran, safe, callbacks⟩ := accepted rfl
      have asked : (true, s) = askHook (onTopicFound advertise) (readTable beyond F.bytes) {} :=
        answer wf
      obtain ⟨known, calls⟩ := (askHook_iff distinct advertise (readTable beyond F.bytes) {}).mp
        (congrArg Prod.fst asked).symm
      have playable : Playable Ts argc true { file := some F } advertise F := by
        refine ⟨args, rfl, rfl, rfl, rfl, wf, (known_readTable beyond F.bytes).mp known, ?_⟩
        intro k hk
        rw [← length_readTable beyond] at hk
        exact (congrArg advertise (Nat.zero_add k)).symm.trans (calls k hk)
      rw [if_pos rfl]
      by_cases none : r.topics.isEmpty = true
      · rw [if_pos none]
        refine ⟨0, s, rfl, exits_played playable ?_⟩
        rw [nothing, ← records_readTable beyond, ← topics, List.isEmpty_iff.mp none, parse_nil]
        exact .nil
      · obtain ⟨-, advertised⟩ := askHook_advertised advertise (readTable beyond F.bytes)
          ({} : GenericReplayerSystem Ts)
        rw [← asked, ← topics] at advertised
        obtain ⟨s', bs, replayed, published, messages⟩ :=
          replay_messages distinct reads wf mapped (advertised rfl) callbacks
        rw [if_neg none, ran]
        refine ⟨0, s', ?_, exits_played playable ?_⟩
        · cases stop with
          | fault => exact absurd rfl safe
          | _ =>
              dsimp only
              rw [replayed]
              rfl
        · rw [published, nothing, List.nil_append, ← records_readTable beyond, ← topics,
            ← callbacks]
          exact messages

theorem playable_repeatedTopic :
    Playable AllTopics 2 true { file := some repeatedTopic } (fun _ => true) repeatedTopic where
  args := Nat.le_refl 2
  setup := rfl
  file := rfl
  fstat := rfl
  mmap := rfl
  format := wellFormed_repeatedTopic
  known := by
    have joysticks : ∀ t ∈ table repeatedTopic.bytes, t.topicId = 4 ∧ t.wireSize = 22 := by
      decide +kernel
    intro t ht
    obtain ⟨id, size⟩ := joysticks t ht
    exact ⟨⟨0, by decide⟩, id.symm, congrArg UInt32.toNat size⟩
  advertised _ _ := rfl

end ChronoCap.ReplayerMain

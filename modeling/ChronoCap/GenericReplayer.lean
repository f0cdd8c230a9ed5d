/- module: ChronoCap/GenericReplayer
   source: include/chrono_cap/generic_replayer.hpp, src/i2wReplayer.cpp
   digest: The hook that advertises a publisher for each topic of a file, and the dispatch of its
           records: no decoder reads outside the payload of the record it is called for. -/

import ChronoCap.FileGrammar
import ChronoCap.Foundation.Dispatch
import ChronoCap.PayloadCodec

set_option autoImplicit false
set_option relaxedAutoImplicit false

namespace ChronoCap

open ChronoCap.Foundation
open ChronoCap.WireFormat
open ChronoCap.RecordReader
open ChronoCap.RecordGrammar
open ChronoCap.FileGrammar

/-- A publisher that advertise() answered for `T` and its topic name, by the number of the call. -/
structure Publisher (T : TopicType) where
  call : Nat
  deriving DecidableEq, Repr

/-- A call of publish; a publisher that was never advertised is `none`. -/
structure Publication (Ts : List TopicType) where
  pos : Fin Ts.length
  publisher : Option (Publisher (Ts.get pos))
  value : (Ts.get pos).Msg
  stampNs : UInt64

/-- The publishers by position in the TopicList, and what i2w saw of the system: the number of
advertise() calls and the messages published. -/
structure GenericReplayerSystem (Ts : List TopicType) where
  pubs : (i : Fin Ts.length) → Option (Publisher (Ts.get i)) := fun _ => none
  calls : Nat := 0
  published : List (Publication Ts) := []

namespace GenericReplayerSystem

variable {Ts : List TopicType}

/-- TryAdvertise for the type at `i`; `advertise` tells which of the advertise() calls succeed. -/
def tryAdvertise (advertise : Nat → Bool) (topic : ResolvedTopic)
    (s : Bool × GenericReplayerSystem Ts) (i : Fin Ts.length) : Bool × GenericReplayerSystem Ts :=
  if topic.topicId ≠ (Ts.get i).id then s
  else if topic.wireSize.toNat ≠ (Ts.get i).wireSize then s
  else if advertise s.2.calls = false then (s.1, { s.2 with calls := s.2.calls + 1 })
  else
    (true, { s.2 with
      pubs := Function.update s.2.pubs i (some ⟨s.2.calls⟩)
      calls := s.2.calls + 1 })

def onTopicFound (advertise : Nat → Bool) (s : GenericReplayerSystem Ts) (topic : ResolvedTopic) :
    Bool × GenericReplayerSystem Ts :=
  (List.finRange Ts.length).foldl (tryAdvertise advertise topic) (false, s)

/-- DispatchOne for the type at `i`; `payload` is the memory from the payload pointer on, and
`none` a read past its end. -/
def dispatchOne (topicId : UInt16) (stampNs : UInt64) (payload : List UInt8)
    (s : GenericReplayerSystem Ts) (i : Fin Ts.length) : Option (GenericReplayerSystem Ts) :=
  if topicId ≠ (Ts.get i).id then some s
  else
    match (Ts.get i).decodePayload payload with
    | none => none
    | some v => some { s with published := s.published ++ [⟨i, s.pubs i, v, stampNs⟩] }

def onRecord (s : GenericReplayerSystem Ts) (topicId : UInt16) (stampNs _seq : UInt64)
    (payload : List UInt8) (_len : UInt32) : Option (GenericReplayerSystem Ts) :=
  (List.finRange Ts.length).foldlM (dispatchOne topicId stampNs payload) s

/-- Run with OnRecord as its callback. -/
def replay (r : RecordReader) (s : GenericReplayerSystem Ts) (cs : List Callback) :
    Option (GenericReplayerSystem Ts) :=
  cs.foldlM
    (fun s c => s.onRecord c.topicId c.stampNs c.seq (r.memory c.payloadOffset) c.payloadLen) s

/-! The hook. -/

/-- A table entry of a type of this build, in its size, with a publisher. -/
def Advertised (s : GenericReplayerSystem Ts) (t : ResolvedTopic) : Prop :=
  ∃ i, (Ts.get i).id = t.topicId ∧ t.wireSize.toNat = (Ts.get i).wireSize ∧ (s.pubs i).isSome

/-- A publisher may be replaced, but is not given up. -/
def Keeps (s t : GenericReplayerSystem Ts) : Prop :=
  (∀ i, (s.pubs i).isSome → (t.pubs i).isSome) ∧ t.published = s.published

theorem Keeps.refl (s : GenericReplayerSystem Ts) : Keeps s s := ⟨fun _ h => h, rfl⟩

theorem Keeps.trans {s t u : GenericReplayerSystem Ts} (h : Keeps s t) (h' : Keeps t u) :
    Keeps s u :=
  ⟨fun i some => h'.1 i (h.1 i some), h'.2.trans h.2⟩

theorem Keeps.advertised {s t : GenericReplayerSystem Ts} (keeps : Keeps s t) {e : ResolvedTopic}
    (h : Advertised s e) : Advertised t e := by
  obtain ⟨i, id, size, some⟩ := h
  exact ⟨i, id, size, keeps.1 i some⟩

/-- One type of the pack finds a topic only by advertising it. -/
theorem tryAdvertise_spec (advertise : Nat → Bool) (t : ResolvedTopic)
    (s : Bool × GenericReplayerSystem Ts) (i : Fin Ts.length) :
    Keeps s.2 (tryAdvertise advertise t s i).2 ∧
      ((tryAdvertise advertise t s i).1 = true →
        s.1 = true ∨ Advertised (tryAdvertise advertise t s i).2 t) := by
  unfold tryAdvertise
  split
  · exact ⟨Keeps.refl s.2, .inl⟩
  · rename_i id
    split
    · exact ⟨Keeps.refl s.2, .inl⟩
    · rename_i size
      split
      · exact ⟨Keeps.refl s.2, .inl⟩
      · refine ⟨⟨?_, rfl⟩, ?_⟩
        · intro j some
          change (Function.update s.2.pubs i _ j).isSome
          by_cases same : j = i
          · subst same
            rw [Function.update_self]
            rfl
          · rwa [Function.update_of_ne same]
        · intro _
          refine .inr ⟨i, (not_not.mp id).symm, not_not.mp size, ?_⟩
          change (Function.update s.2.pubs i _ i).isSome
          rw [Function.update_self]
          rfl

theorem onTopicFound_spec (advertise : Nat → Bool) (s : GenericReplayerSystem Ts)
    (t : ResolvedTopic) :
    Keeps s (s.onTopicFound advertise t).2 ∧
      ((s.onTopicFound advertise t).1 = true → Advertised (s.onTopicFound advertise t).2 t) := by
  have fold : ∀ (is : List (Fin Ts.length)) (s : Bool × GenericReplayerSystem Ts),
      Keeps s.2 (is.foldl (tryAdvertise advertise t) s).2 ∧
        ((is.foldl (tryAdvertise advertise t) s).1 = true →
          s.1 = true ∨ Advertised (is.foldl (tryAdvertise advertise t) s).2 t) := by
    intro is
    induction is with
    | nil => exact fun s => ⟨Keeps.refl s.2, .inl⟩
    | cons i is ih =>
        intro s
        obtain ⟨first, found⟩ := tryAdvertise_spec advertise t s i
        obtain ⟨rest, later⟩ := ih (tryAdvertise advertise t s i)
        refine ⟨first.trans rest, ?_⟩
        intro h
        rcases later h with here | there
        · exact (found here).imp_right rest.advertised
        · exact .inr there
  obtain ⟨keeps, found⟩ := fold (List.finRange Ts.length) (false, s)
  exact ⟨keeps, fun h => (found h).resolve_left Bool.false_ne_true⟩

/-- Once the hook has agreed to the whole table, each entry of it is advertised. -/
theorem askHook_advertised (advertise : Nat → Bool) (ts : List ResolvedTopic)
    (s : GenericReplayerSystem Ts) :
    Keeps s (askHook (onTopicFound advertise) ts s).2 ∧
      ((askHook (onTopicFound advertise) ts s).1 = true →
        ∀ t ∈ ts, Advertised (askHook (onTopicFound advertise) ts s).2 t) := by
  induction ts generalizing s with
  | nil => exact ⟨Keeps.refl s, fun _ _ h => absurd h List.not_mem_nil⟩
  | cons t ts ih =>
      obtain ⟨first, found⟩ := onTopicFound_spec advertise s t
      unfold askHook
      split
      · rename_i u refused
        rw [refused] at first
        exact ⟨first, by simp⟩
      · rename_i u agreed
        rw [agreed] at first found
        obtain ⟨rest, all⟩ := ih u
        refine ⟨first.trans rest, ?_⟩
        intro h e he
        rcases List.mem_cons.mp he with rfl | later
        · exact rest.advertised (found rfl)
        · exact all h e later

/-- A table entry of a type of this build, in its size. -/
def Known (Ts : List TopicType) (t : ResolvedTopic) : Prop :=
  ∃ i, (Ts.get i).id = t.topicId ∧ t.wireSize.toNat = (Ts.get i).wireSize

theorem onTopicFound_known (distinct : (Ts.map TopicType.id).Nodup) {t : ResolvedTopic}
    (known : Known Ts t) (s : GenericReplayerSystem Ts) :
    (s.onTopicFound (fun _ => true) t).1 = true := by
  obtain ⟨i, id, size⟩ := known
  have skips : ∀ i s, (Ts.get i).id ≠ t.topicId → tryAdvertise (fun _ => true) t s i = s :=
    fun i s other => if_pos (Ne.symm other)
  rw [onTopicFound, Dispatch.foldl_of_mem skips (map_id_finRange Ts ▸ distinct)
    (List.mem_finRange i) id, tryAdvertise, if_neg (not_not.mpr id.symm),
    if_neg (not_not.mpr size), if_neg Bool.true_eq_false.mp]

/-- If every advertise() succeeds the hook agrees to a table of known topics. -/
theorem askHook_known (distinct : (Ts.map TopicType.id).Nodup) {ts : List ResolvedTopic}
    (known : ∀ t ∈ ts, Known Ts t) (s : GenericReplayerSystem Ts) :
    (askHook (onTopicFound (fun _ => true)) ts s).1 = true := by
  induction ts generalizing s with
  | nil => rfl
  | cons t ts ih =>
      have first := onTopicFound_known distinct (known t List.mem_cons_self) s
      unfold askHook
      split
      · rename_i u refused
        rw [refused] at first
        exact first
      · exact ih (fun e he => known e (List.mem_cons_of_mem t he)) _

/-! The dispatch. -/

/-- The message a callback is to be republished as: by the type with its id, on the publisher of
that type, with the stamp of the record. -/
structure Publishes (r : RecordReader) (s : GenericReplayerSystem Ts) (c : Callback)
    (b : Publication Ts) : Prop where
  id : (Ts.get b.pos).id = c.topicId
  value : (Ts.get b.pos).decodePayload (r.memory c.payloadOffset) = some b.value
  stampNs : b.stampNs = c.stampNs
  publisher : b.publisher = s.pubs b.pos

/-- Of all types the one with the id of the record publishes, and no other. -/
theorem onRecord_publishes (distinct : (Ts.map TopicType.id).Nodup) {r : RecordReader}
    {s : GenericReplayerSystem Ts} {c : Callback} {b : Publication Ts}
    (publishes : Publishes r s c b) :
    s.onRecord c.topicId c.stampNs c.seq (r.memory c.payloadOffset) c.payloadLen =
      some { s with published := s.published ++ [b] } := by
  have skips : Dispatch.Skips (fun i => (Ts.get i).id) c.topicId
      (dispatchOne c.topicId c.stampNs (r.memory c.payloadOffset)) := by
    intro i s other
    exact if_pos (Ne.symm other)
  rw [onRecord, Dispatch.foldlM_of_mem skips (map_id_finRange Ts ▸ distinct)
    (List.mem_finRange b.pos) publishes.id, dispatchOne, if_neg (not_not.mpr publishes.id.symm),
    publishes.value]
  dsimp only
  rw [← publishes.stampNs, ← publishes.publisher]

theorem replay_publishes (distinct : (Ts.map TopicType.id).Nodup) {r : RecordReader}
    {s : GenericReplayerSystem Ts} {cs : List Callback} {bs : List (Publication Ts)}
    (all : List.Forall₂ (Publishes r s) cs bs) :
    ∃ t, s.replay r cs = some t ∧ t.pubs = s.pubs ∧ t.published = s.published ++ bs := by
  refine Dispatch.foldlM_emits ?_ all rfl
  intro t c b same publishes
  refine ⟨_, onRecord_publishes distinct ⟨publishes.id, publishes.value, publishes.stampNs, ?_⟩,
    same, rfl⟩
  rw [same, publishes.publisher]

/-! What a file can make the decoders read. -/

/-- Exactly one type is meant by a callback; it has a publisher and the delivered length, the
payload lies in the mapped file, and the decoder needs nothing but the payload. -/
def DecodesPayload (r : RecordReader) (F : FileImage) (s : GenericReplayerSystem Ts)
    (c : Callback) : Prop :=
  ∃ i, (∀ j, (Ts.get j).id = c.topicId ↔ j = i) ∧ (s.pubs i).isSome ∧
    c.payloadLen.toNat = (Ts.get i).wireSize ∧
    c.payloadOffset + (Ts.get i).wireSize ≤ F.bytes.length ∧
    r.memory c.payloadOffset = F.bytes.drop c.payloadOffset ∧
    (Ts.get i).decodePayload (r.memory c.payloadOffset) =
      (Ts.get i).decodePayload (r.payload c) ∧
    ((Ts.get i).decodePayload (r.payload c)).isSome

/-- A callback of a topic that the hook agreed to, with its payload in the file. -/
theorem decodesPayload_of_advertised (distinct : (Ts.map TopicType.id).Nodup)
    (reads : ∀ T ∈ Ts, ReadsWithin T) {r : RecordReader} {F : FileImage}
    (mapped : Mapped r F.bytes) {s : GenericReplayerSystem Ts} {c : Callback} {t : ResolvedTopic}
    (id : t.topicId = c.topicId) (len : c.payloadLen = t.wireSize)
    (within : c.payloadOffset + c.payloadLen.toNat ≤ F.bytes.length) (advertised : Advertised s t) :
    DecodesPayload r F s c := by
  obtain ⟨i, match_id, size, pub⟩ := advertised
  have length : c.payloadLen.toNat = (Ts.get i).wireSize := by rw [len, size]
  have long : (Ts.get i).wireSize ≤ (r.memory c.payloadOffset).length := by
    rw [mapped.memory, List.length_drop]
    omega
  obtain ⟨same, decoded⟩ := reads (Ts.get i) (List.get_mem Ts i) (r.memory c.payloadOffset) long
  have payload : r.payload c = (r.memory c.payloadOffset).take (Ts.get i).wireSize := by
    rw [RecordReader.payload, length]
  refine ⟨i, ?_, pub, length, by omega, mapped.memory _, ?_, ?_⟩
  · intro j
    constructor
    · intro hit
      exact pos_unique distinct (hit.trans (match_id.trans id).symm)
    · rintro rfl
      exact match_id.trans id
  · rw [payload]
    exact same
  · rw [payload, ← same]
    exact decoded

/-- A decodable callback is republished. -/
theorem DecodesPayload.publishes {r : RecordReader} {F : FileImage} {s : GenericReplayerSystem Ts}
    {c : Callback} (decodes : DecodesPayload r F s c) : ∃ b, Publishes r s c b := by
  obtain ⟨i, only, -, -, -, -, same, decoded⟩ := decodes
  rw [← same] at decoded
  obtain ⟨v, value⟩ := Option.isSome_iff_exists.mp decoded
  exact ⟨⟨i, s.pubs i, v, c.stampNs⟩, (only i).mpr rfl, value, rfl, rfl⟩

/-- Whatever a file holds, if Open accepts it with the hook then replaying it decodes payloads of
this build's sizes and nothing outside of them, and publishes a message for each record. -/
theorem replay_decodes_payloads (distinct : (Ts.map TopicType.id).Nodup)
    (reads : ∀ T ∈ Ts, ReadsWithin T) (advertise : Nat → Bool) (s₀ : GenericReplayerSystem Ts)
    (F : FileImage) (beyond : Nat → List UInt8) (now : UInt64) {r : RecordReader}
    {s : GenericReplayerSystem Ts}
    (opened : RecordReader.open 64 beyond { file := some F } (some (onTopicFound advertise)) {} s₀ =
      some (true, r, s)) :
    ∃ stop t, run 64 now r = some (stop, t) ∧ stop ≠ .fault ∧
      (∀ c ∈ t.callbacks, DecodesPayload r F s c) ∧
        ∃ s' bs, s.replay r t.callbacks = some s' ∧ s'.published = s₀.published ++ bs ∧
          List.Forall₂ (Publishes r s) t.callbacks bs := by
  have nonempty : F.bytes ≠ [] := by
    intro empty
    obtain ⟨r', refused⟩ := open_empty beyond empty (some (onTopicFound advertise)) s₀
    rw [opened] at refused
    simp at refused
  obtain ⟨ok, r', s', opened', accepted, answer⟩ :=
    open_then_run beyond now nonempty (some (onTopicFound advertise)) s₀
  rw [opened] at opened'
  obtain ⟨rfl, rfl, rfl⟩ : true = ok ∧ r = r' ∧ s = s' := by simpa using opened'
  obtain ⟨wf, mapped, topics, stop, t, ran, safe, callbacks⟩ := accepted rfl
  have asked : (true, s) = askHook (onTopicFound advertise) (readTable beyond F.bytes) s₀ :=
    answer wf
  obtain ⟨keeps, advertised⟩ := askHook_advertised advertise (readTable beyond F.bytes) s₀
  rw [← asked] at keeps advertised
  rw [← topics] at advertised
  have decodes : ∀ c ∈ t.callbacks, DecodesPayload r F s c := by
    intro c hc
    rw [callbacks] at hc
    obtain ⟨e, there, id, len, within⟩ := mem_parse wf.table hc
    exact decodesPayload_of_advertised distinct reads mapped id len within
      (advertised rfl e there)
  obtain ⟨bs, all⟩ := Dispatch.exists_forall₂ (fun c hc => (decodes c hc).publishes)
  obtain ⟨u, replayed, -, published⟩ := replay_publishes distinct all
  refine ⟨stop, t, ran, safe, decodes, u, bs, replayed, ?_, all⟩
  rw [published, keeps.2]

/-- A table that lists the joystick twice, and one record of it. -/
def repeatedTopic : FileImage where
  bytes := (FileHeader.mk kFormatVersion 2 0).bytes ++
    (encodeU16 4 ++ encodeU32 22 ++ List.replicate 32 0) ++
    (encodeU16 4 ++ encodeU32 22 ++ List.replicate 32 0) ++
    ((RecordHeader.mk 4 7 1).bytes ++ List.replicate 22 1)
  size_lt := by decide +kernel

theorem wellFormed_repeatedTopic : WellFormed repeatedTopic.bytes :=
  ⟨by decide +kernel, by decide +kernel, by decide +kernel, by decide +kernel⟩

theorem parse_repeatedTopic (beyond : Nat → List UInt8) :
    (parse (readTable beyond repeatedTopic.bytes) 108
      (repeatedTopic.bytes.drop 108)).length = 1 := by
  have isFrame : (records (table repeatedTopic.bytes)).IsFrame (repeatedTopic.bytes.drop 108) := by
    unfold Framing.IsFrame records
    decide +kernel
  have one := Framing.frames_append isFrame []
  rw [List.append_nil, Framing.frames_nil] at one
  rw [records_readTable, parse, one]
  rfl

/-- The second entry is advertised like the first, and the record is decoded from its payload. -/
theorem replay_decodes_payloads_repeated :
    ∃ r s, RecordReader.open 64 (fun _ => []) { file := some repeatedTopic }
        (some (@onTopicFound AllTopics (fun _ => true))) {} {} = some (true, r, s) ∧
      ∃ stop t, run 64 0 r = some (stop, t) ∧ t.callbacks.length = 1 ∧
        ∀ c ∈ t.callbacks, DecodesPayload r repeatedTopic s c := by
  have wf := wellFormed_repeatedTopic
  obtain ⟨ok, r, s, opened, accepted, answer⟩ := open_then_run (fun _ => []) 0 wf.nonempty
    (some (@onTopicFound AllTopics (fun _ => true))) {}
  obtain rfl : ok = true := (congrArg Prod.fst (answer wf)).trans (by decide +kernel)
  obtain ⟨-, -, topics, stop, t, ran, -, callbacks⟩ := accepted rfl
  obtain ⟨stop', t', ran', -, decodes, -⟩ := replay_decodes_payloads (by decide)
    (fun T mem => List.mem_singleton.mp mem ▸ readsWithin_joy) (fun _ => true) {} repeatedTopic
    (fun _ => []) 0 opened
  rw [ran] at ran'
  obtain ⟨-, rfl⟩ : stop = stop' ∧ t = t' := by simpa using ran'
  refine ⟨r, s, opened, stop, t, ran, ?_, decodes⟩
  rw [callbacks, topics]
  exact parse_repeatedTopic _

end GenericReplayerSystem

end ChronoCap

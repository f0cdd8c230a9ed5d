/- module: ChronoCap/GenericRecorder
   source: include/chrono_cap/generic_recorder.hpp, src/i2wRecorder.cpp
   digest: The subscriptions of the recorder, the topic table it opens the writer with, and what a
           sample's callback pushes. -/

import ChronoCap.PayloadCodec
import ChronoCap.RecordWriter
import ChronoCap.Ring.Ledger

set_option autoImplicit false
set_option relaxedAutoImplicit false

namespace ChronoCap

open ChronoCap.WireFormat
open ChronoCap.Ring

def TopicType.info (T : TopicType) : TopicInfo where
  topicId := T.id
  wireSize := UInt32.ofNat T.wireSize
  name := T.topicName

theorem TopicType.wireSize_info {T : TopicType} (small : T.wireSize < 2 ^ 32) :
    T.info.wireSize.toNat = T.wireSize := by
  rw [TopicType.info, UInt32.toNat_ofNat']
  exact Nat.mod_eq_of_lt small

/-- The subscriptions by position in the TopicList, and the topics enabled so far. -/
structure GenericRecorderSystem (Ts : List TopicType) where
  subs : Fin Ts.length → Bool := fun _ => false
  enabledTopics : List TopicInfo := []

namespace GenericRecorderSystem

variable {Ts : List TopicType}

/-- SetupOne for the type at `i`; `isEnabled` is the config, `subscribes` tells which of the
subscribe() calls succeed. -/
def setupOne (isEnabled subscribes : Fin Ts.length → Bool) (s : Bool × GenericRecorderSystem Ts)
    (i : Fin Ts.length) : Bool × GenericRecorderSystem Ts :=
  if isEnabled i = false then s
  else if subscribes i = false then (false, s.2)
  else
    (s.1, {
      subs := Function.update s.2.subs i true
      enabledTopics := s.2.enabledTopics ++ [(Ts.get i).info] })

def onSetup (isEnabled subscribes : Fin Ts.length → Bool) : Bool × GenericRecorderSystem Ts :=
  (List.finRange Ts.length).foldl (setupOne isEnabled subscribes) (true, {})

/-- `writer.Open(MakeSessionBaseName(), system.EnabledTopics())` -/
def openWriter (isEnabled subscribes : Fin Ts.length → Bool) (host : Host) (fd now : Int)
    (o : Output) : Bool × Output :=
  o.openFile host (onSetup isEnabled subscribes).2.enabledTopics fd now

end GenericRecorderSystem

/-- A sample that arrives on the subscription at `pos`; `buf` is what its callback's local buffer
holds at first. -/
structure Sample (Ts : List TopicType) where
  pos : Fin Ts.length
  value : (Ts.get pos).Msg
  stampNs : UInt64
  seq : UInt64
  buf : Vector UInt8 (Ts.get pos).wireSize

namespace Sample

variable {Ts : List TopicType}

def payload (x : Sample Ts) : List UInt8 := ((Ts.get x.pos).encodePayload x.value x.buf).toList

/-- The arguments the callback gives to Push. -/
def pushArgs (x : Sample Ts) : PushArgs where
  topicId := (Ts.get x.pos).id
  stampNs := x.stampNs
  seq := x.seq
  data := x.payload
  len := UInt32.ofNat (Ts.get x.pos).wireSize
  readable := by
    rw [UInt32.toNat_ofNat', payload, Vector.length_toList]
    exact Nat.mod_le _ _

end Sample

/-- What happens to the ring of a recorder: the callback of a sample, or a TryPop of the writer
thread. -/
inductive RecorderStep (Ts : List TopicType) where
  | sample (x : Sample Ts)
  | pop (out : PoppedRecord)

namespace RecorderStep

variable {Ts : List TopicType}

def op : RecorderStep Ts → Op
  | .sample x => .push x.pushArgs
  | .pop out => .pop out

def sample? : RecorderStep Ts → Option (Sample Ts)
  | .sample x => some x
  | .pop _ => none

theorem mem_of_sample {steps : List (RecorderStep Ts)} {x : Sample Ts}
    (mem : x ∈ steps.filterMap sample?) : .sample x ∈ steps := by
  obtain ⟨step, there, found⟩ := List.mem_filterMap.mp mem
  cases step with
  | sample y =>
      cases found
      exact there
  | pop out => cases found

/-- The ring with its history, from a new ring on. -/
def ledger (cap : Capacity) (steps : List (RecorderStep Ts)) : Ledger cap :=
  Ledger.after (steps.map op)

/-- What the ring hands to WriteRecord, one record after the other. -/
def handed (cap : Capacity) (steps : List (RecorderStep Ts)) : List PoppedRecord :=
  (ledger cap steps).popped.map Prod.snd

/-- The samples whose Push returned true are among those that arrived. -/
theorem accepted_samples (cap : Capacity) (steps : List (RecorderStep Ts)) :
    ∃ xs : List (Sample Ts), xs.Sublist (steps.filterMap sample?) ∧
      (ledger cap steps).accepted = xs.map Sample.pushArgs := by
  induction steps using List.reverseRecOn with
  | nil => exact ⟨[], List.nil_sublist _, rfl⟩
  | append_singleton steps step ih =>
      obtain ⟨xs, among, accepted⟩ := ih
      have next : ledger cap (steps ++ [step]) =
          (Ledger.machine cap).next (ledger cap steps) step.op := by
        rw [ledger, Ledger.after, List.map_append, List.foldl_append]
        rfl
      rw [next, List.filterMap_append]
      cases step with
      | sample x =>
          change ∃ xs : List (Sample Ts), _ ∧ ((ledger cap steps).push x.pushArgs).accepted = _
          rw [Ledger.accepted_push]
          split
          · refine ⟨xs ++ [x], among.append (List.Sublist.refl [x]), ?_⟩
            rw [List.map_append, accepted]
            rfl
          · exact ⟨xs, among.trans (List.sublist_append_left _ _), accepted⟩
      | pop out =>
          refine ⟨xs, among.trans (List.sublist_append_left _ _), ?_⟩
          exact (Ledger.accepted_pop _ out).trans accepted

/-- What a pop hands over is the record pushed for the accepted sample of its number. -/
theorem popped_sample {cap : Capacity} {steps : List (RecorderStep Ts)} {xs : List (Sample Ts)}
    (accepted : (ledger cap steps).accepted = xs.map Sample.pushArgs) {p : Nat × PoppedRecord}
    (popped : p ∈ (ledger cap steps).popped) :
    ∃ x, xs[p.1]? = some x ∧ p.2.record = x.pushArgs.record := by
  have inv : Ledger.Conserved (ledger cap steps) :=
    Ledger.conserved_of_run (Ledger.run_after (steps.map op))
  obtain ⟨number, -⟩ := inv.drained p popped
  rw [Ledger.record, accepted, List.map_map, List.getElem?_map] at number
  obtain ⟨x, found, same⟩ := Option.map_eq_some_iff.mp number
  exact ⟨x, found, same.symm⟩

end RecorderStep

namespace GenericRecorderSystem

variable {Ts : List TopicType} (isEnabled subscribes : Fin Ts.length → Bool)

/-- The table lists what is subscribed to, each type once and in the order of the pack. -/
structure Lists (s : GenericRecorderSystem Ts) (is : List (Fin Ts.length)) : Prop where
  subs : ∀ i, s.subs i = true ↔ i ∈ is
  table : s.enabledTopics = is.map (fun i => (Ts.get i).info)

theorem Lists.setupOne {s : Bool × GenericRecorderSystem Ts} {is : List (Fin Ts.length)}
    (lists : Lists s.2 is) (i : Fin Ts.length) :
    Lists (setupOne isEnabled subscribes s i).2
      (is ++ [i].filter (fun i => isEnabled i && subscribes i)) := by
  unfold GenericRecorderSystem.setupOne
  split
  · rename_i disabled
    simpa [disabled] using lists
  · rename_i enabled
    split
    · rename_i failed
      simpa [failed] using lists
    · rename_i subscribed
      simp only [Bool.not_eq_false] at enabled subscribed
      rw [List.filter_cons_of_pos (by simp [enabled, subscribed]), List.filter_nil]
      refine ⟨?_, ?_⟩
      · intro j
        change Function.update s.2.subs i true j = true ↔ _
        by_cases same : j = i
        · subst same
          simp
        · rw [Function.update_of_ne same, lists.subs j]
          simp [same]
      · change s.2.enabledTopics ++ [(Ts.get i).info] = _
        rw [lists.table, List.map_append]
        rfl

theorem onSetup_lists :
    Lists (onSetup isEnabled subscribes).2
      ((List.finRange Ts.length).filter (fun i => isEnabled i && subscribes i)) := by
  have fold : ∀ (js : List (Fin Ts.length)) {s : Bool × GenericRecorderSystem Ts}
      {is : List (Fin Ts.length)}, Lists s.2 is →
        Lists (js.foldl (GenericRecorderSystem.setupOne isEnabled subscribes) s).2
          (is ++ js.filter (fun i => isEnabled i && subscribes i)) := by
    intro js
    induction js with
    | nil =>
        intro s is lists
        simpa using lists
    | cons j js ih =>
        intro s is lists
        have all := ih (lists.setupOne isEnabled subscribes j)
        rwa [List.append_assoc, ← List.filter_append, List.singleton_append] at all
  have start : Lists ({} : GenericRecorderSystem Ts) [] :=
    ⟨fun i => ⟨fun h => absurd h Bool.false_ne_true, fun h => absurd h List.not_mem_nil⟩, rfl⟩
  exact @fold (List.finRange Ts.length) (true, {}) [] start

/-- OnSetup fails exactly if an enabled type could not be subscribed to. -/
theorem onSetup_ok :
    (onSetup isEnabled subscribes).1 = true ↔ ∀ i, isEnabled i = true → subscribes i = true := by
  have fold : ∀ (js : List (Fin Ts.length)) (s : Bool × GenericRecorderSystem Ts),
      (js.foldl (GenericRecorderSystem.setupOne isEnabled subscribes) s).1 = true ↔
        s.1 = true ∧ ∀ j ∈ js, isEnabled j = true → subscribes j = true := by
    intro js
    induction js with
    | nil => simp
    | cons j js ih =>
        intro s
        rw [List.foldl_cons, ih, List.forall_mem_cons]
        unfold GenericRecorderSystem.setupOne
        cases enabled : isEnabled j <;> cases subscribed : subscribes j <;> simp
  rw [onSetup, fold]
  simp

theorem topicId_nodup (distinct : (Ts.map TopicType.id).Nodup) :
    (((onSetup isEnabled subscribes).2.enabledTopics).map TopicInfo.topicId).Nodup := by
  rw [(onSetup_lists isEnabled subscribes).table, List.map_map]
  rw [← map_id_finRange] at distinct
  exact distinct.sublist (List.filter_sublist.map _)

theorem enabledTopics_few (distinct : (Ts.map TopicType.id).Nodup) :
    (onSetup isEnabled subscribes).2.enabledTopics.length < 2 ^ 32 :=
  few_of_distinct (topicId_nodup isEnabled subscribes distinct)

theorem info_mem_of_subs {i : Fin Ts.length}
    (subscribed : (onSetup isEnabled subscribes).2.subs i = true) :
    (Ts.get i).info ∈ (onSetup isEnabled subscribes).2.enabledTopics := by
  have lists := onSetup_lists isEnabled subscribes
  rw [lists.table]
  exact List.mem_map_of_mem ((lists.subs i).mp subscribed)

theorem mem_enabledTopics {t : TopicInfo}
    (mem : t ∈ (onSetup isEnabled subscribes).2.enabledTopics) :
    ∃ i, t = (Ts.get i).info := by
  rw [(onSetup_lists isEnabled subscribes).table] at mem
  obtain ⟨i, -, rfl⟩ := List.mem_map.mp mem
  exact ⟨i, rfl⟩

end GenericRecorderSystem

end ChronoCap

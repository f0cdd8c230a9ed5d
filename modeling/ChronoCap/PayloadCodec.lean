/- module: ChronoCap/PayloadCodec
   source: include/chrono_cap/payload_codec.hpp, include/chrono_cap/topic_registry.hpp,
           include/chrono_cap/topic_list.hpp
   digest: Message types with their registry entry and payload codec; the joystick message. -/

import ChronoCap.WireFormat
import Mathlib.Data.List.FinRange

set_option autoImplicit false
set_option relaxedAutoImplicit false

namespace ChronoCap

open ChronoCap.Foundation.ByteStore
open ChronoCap.WireFormat

/-- A type of a TopicList: its TopicTraits, EncodePayload into a buffer of `wire_size` bytes, and
DecodePayload from the memory at a pointer, where `none` is a read past the end of it. -/
structure TopicType where
  Msg : Type
  id : UInt16
  topicName : List UInt8
  wireSize : Nat
  encodePayload : Msg → Vector UInt8 wireSize → Vector UInt8 wireSize
  decodePayload : List UInt8 → Option Msg

/-- DecodePayload undoes EncodePayload, whatever the buffer held and whatever lies behind it. -/
structure LawfulCodec (T : TopicType) : Prop where
  fits : T.wireSize ≤ kMaxPayloadBytes
  undo : ∀ v buf rest, T.decodePayload ((T.encodePayload v buf).toList ++ rest) = some v

/-- DecodePayload needs its first `wire_size` bytes, and reads no others. -/
def ReadsWithin (T : TopicType) : Prop :=
  ∀ mem : List UInt8, T.wireSize ≤ mem.length →
    T.decodePayload mem = T.decodePayload (mem.take T.wireSize) ∧ (T.decodePayload mem).isSome

section TopicList

variable {Ts : List TopicType}

theorem map_id_finRange (Ts : List TopicType) :
    (List.finRange Ts.length).map (fun i => (Ts.get i).id) = Ts.map TopicType.id := by
  conv_rhs => rw [← List.map_get_finRange Ts, List.map_map]
  rfl

/-- If the ids are pairwise distinct, an id means at most one type. -/
theorem pos_unique (distinct : (Ts.map TopicType.id).Nodup) {i j : Fin Ts.length}
    (same : (Ts.get i).id = (Ts.get j).id) : i = j := by
  rw [← map_id_finRange] at distinct
  exact List.inj_on_of_nodup_map distinct (List.mem_finRange i) (List.mem_finRange j) same

end TopicList

/-! The joystick message. A float is its bit pattern. -/

structure JoyMsgs where
  timestamp : UInt64
  axis0 : UInt32
  axis2 : UInt32
  button0 : Bool
  button1 : Bool
  button3 : Bool
  button4 : Bool
  button5 : Bool
  button6 : Bool
  deriving DecidableEq, Repr

namespace JoyMsgs

/-- `v.button ? 1 : 0` -/
def button (b : Bool) : List UInt8 := [if b then 1 else 0]

def encodePayload (v : JoyMsgs) (out : List UInt8) : List UInt8 :=
  let out := poke out 0 (encodeU64 v.timestamp)
  let out := poke out 8 (encodeU32 v.axis0)
  let out := poke out 12 (encodeU32 v.axis2)
  let out := poke out 16 (button v.button0)
  let out := poke out 17 (button v.button1)
  let out := poke out 18 (button v.button3)
  let out := poke out 19 (button v.button4)
  let out := poke out 20 (button v.button5)
  poke out 21 (button v.button6)

def decodePayload (inp : List UInt8) : Option JoyMsgs := do
  let timestamp ← decodeU64 inp
  let axis0 ← decodeU32 (inp.drop 8)
  let axis2 ← decodeU32 (inp.drop 12)
  let b0 ← inp[16]?
  let b1 ← inp[17]?
  let b3 ← inp[18]?
  let b4 ← inp[19]?
  let b5 ← inp[20]?
  let b6 ← inp[21]?
  return ⟨timestamp, axis0, axis2, b0 ≠ 0, b1 ≠ 0, b3 ≠ 0, b4 ≠ 0, b5 ≠ 0, b6 ≠ 0⟩

def bytes (v : JoyMsgs) : List UInt8 :=
  encodeU64 v.timestamp ++ encodeU32 v.axis0 ++ encodeU32 v.axis2 ++ button v.button0 ++
    button v.button1 ++ button v.button3 ++ button v.button4 ++ button v.button5 ++
      button v.button6

@[simp] theorem length_button (b : Bool) : (button b).length = 1 := rfl

@[simp] theorem length_bytes (v : JoyMsgs) : v.bytes.length = 22 := by
  simp [bytes]

theorem encodePayload_eq (v : JoyMsgs) (out : List UInt8) :
    v.encodePayload out = v.bytes ++ out.drop 22 := by
  simp only [encodePayload, poke_zero]
  rw [poke_after _ _ _ (by simp), poke_after _ _ _ (by simp), poke_after _ _ _ (by simp),
    poke_after _ _ _ (by simp), poke_after _ _ _ (by simp), poke_after _ _ _ (by simp),
    poke_after _ _ _ (by simp), poke_after _ _ _ (by simp)]
  simp [bytes]

theorem decodePayload_bytes (v : JoyMsgs) (rest : List UInt8) :
    decodePayload (v.bytes ++ rest) = some v := by
  have d0 : v.bytes ++ rest = encodeU64 v.timestamp ++ (encodeU32 v.axis0 ++ (encodeU32 v.axis2 ++
      (button v.button0 ++ button v.button1 ++ button v.button3 ++ button v.button4 ++
        button v.button5 ++ button v.button6 ++ rest))) := by
    simp [bytes]
  have d8 : (v.bytes ++ rest).drop 8 = encodeU32 v.axis0 ++ (encodeU32 v.axis2 ++
      (button v.button0 ++ button v.button1 ++ button v.button3 ++ button v.button4 ++
        button v.button5 ++ button v.button6 ++ rest)) := by
    rw [d0, List.drop_left' (by simp)]
  have d12 : (v.bytes ++ rest).drop 12 = encodeU32 v.axis2 ++
      (button v.button0 ++ button v.button1 ++ button v.button3 ++ button v.button4 ++
        button v.button5 ++ button v.button6 ++ rest) := by
    rw [show 12 = 8 + 4 from rfl, ← List.drop_drop, d8, List.drop_left' (by simp)]
  have d16 : (v.bytes ++ rest).drop 16 = button v.button0 ++ button v.button1 ++
      button v.button3 ++ button v.button4 ++ button v.button5 ++ button v.button6 ++ rest := by
    rw [show 16 = 12 + 4 from rfl, ← List.drop_drop, d12, List.drop_left' (by simp)]
  have byte : ∀ k, (v.bytes ++ rest)[16 + k]? = ((v.bytes ++ rest).drop 16)[k]? := by
    intro k
    rw [List.getElem?_drop]
  have b0 := byte 0
  have b1 := byte 1
  have b3 := byte 2
  have b4 := byte 3
  have b5 := byte 4
  have b6 := byte 5
  rw [d16] at b0 b1 b3 b4 b5 b6
  simp only [button, List.cons_append, List.nil_append, List.getElem?_cons_zero,
    List.getElem?_cons_succ, Nat.reduceAdd] at b0 b1 b3 b4 b5 b6
  rw [decodePayload, d8, d12, b0, b1, b3, b4, b5, b6, d0]
  simp

/-- Every field comes back bit for bit, whatever the buffer held and whatever lies behind it. -/
theorem decodePayload_encodePayload (v : JoyMsgs) (out rest : List UInt8) :
    decodePayload (v.encodePayload out ++ rest) = some v := by
  rw [encodePayload_eq, List.append_assoc, decodePayload_bytes]

end JoyMsgs

/-- The registry entry and codec of the joystick message. -/
def joy : TopicType where
  Msg := JoyMsgs
  id := 4
  topicName := [0x2F, 0x6A, 0x6F, 0x79]
  wireSize := 22
  encodePayload v buf := ⟨(v.encodePayload buf.toList).toArray, by
    simp [JoyMsgs.encodePayload_eq]⟩
  decodePayload := JoyMsgs.decodePayload

/-- The types of this build. -/
def AllTopics : List TopicType := [joy]

theorem lawful_joy : LawfulCodec joy where
  fits := by decide
  undo v buf rest := JoyMsgs.decodePayload_encodePayload v buf.toList rest

theorem readsWithin_joy : ReadsWithin joy := by
  intro mem long
  change 22 ≤ mem.length at long
  change JoyMsgs.decodePayload mem = JoyMsgs.decodePayload (mem.take 22) ∧
    (JoyMsgs.decodePayload mem).isSome
  have stamp : ∀ m : List UInt8, 22 ≤ m.length → decodeU64 m = some (u64At m 0) := by
    intro m hm
    simpa using decodeU64_drop m 0 (by omega)
  have taken : (mem.take 22).length = 22 := by rw [List.length_take, Nat.min_eq_left long]
  have byte : ∀ k < 22, (mem.take 22)[k]? = mem[k]? := by
    intro k hk
    rw [List.getElem?_take, if_pos hk]
  have there : ∀ k < 22, ∃ b, mem[k]? = some b := by
    intro k hk
    exact ⟨_, List.getElem?_eq_getElem (by omega)⟩
  obtain ⟨b0, h0⟩ := there 16 (by omega)
  obtain ⟨b1, h1⟩ := there 17 (by omega)
  obtain ⟨b3, h3⟩ := there 18 (by omega)
  obtain ⟨b4, h4⟩ := there 19 (by omega)
  obtain ⟨b5, h5⟩ := there 20 (by omega)
  obtain ⟨b6, h6⟩ := there 21 (by omega)
  unfold JoyMsgs.decodePayload
  rw [stamp mem long, stamp (mem.take 22) (by omega), decodeU32_drop mem 8 (by omega),
    decodeU32_drop mem 12 (by omega), decodeU32_drop (mem.take 22) 8 (by omega),
    decodeU32_drop (mem.take 22) 12 (by omega), u64At_take mem (by omega),
    u32At_take mem (by omega), u32At_take mem (by omega), byte 16 (by omega),
    byte 17 (by omega), byte 18 (by omega), byte 19 (by omega), byte 20 (by omega),
    byte 21 (by omega), h0, h1, h3, h4, h5, h6]
  exact ⟨rfl, rfl⟩

end ChronoCap

/- module: ChronoCap/Json
   scope: library
   digest: Values of nlohmann::json, and the accessors the settings are read with. -/

import Mathlib.Data.Option.Basic

set_option autoImplicit false
set_option relaxedAutoImplicit false

namespace ChronoCap

/-- A parsed document. An object maps each of its keys to one value. -/
inductive Json where
  | null
  | boolean (b : Bool)
  | integer (n : Int)
  /-- a `double`, by its bits -/
  | float (bits : UInt64)
  | string (s : List UInt8)
  | array (elements : List Json)
  | object (members : List UInt8 → Option Json)

namespace Json

universe u

/-- `j[key]` for a key that `j.contains`. -/
def member (j : Json) (key : List UInt8) : Option Json :=
  match j with
  | .object members => members key
  | _ => none

/-- `j.value(key, fallback)`, where `get` converts to the type of the fallback; `none` throws. -/
def value {α : Type u} (get : Json → Option α) (j : Json) (key : List UInt8) (fallback : α) :
    Option α :=
  match j with
  | .object members =>
      match members key with
      | some stored => get stored
      | none => some fallback
  | _ => none

/-- What `in >> j` and the conversions of `value` do; `none` is an exception. -/
structure Library where
  parse : List UInt8 → Option Json
  getString : Json → Option (List UInt8)
  getUint16 : Json → Option UInt16
  getBool : Json → Option Bool

/-- The conversions from the type that is asked for, and `static_cast` from any integer. -/
structure Library.Converts (lib : Library) : Prop where
  string : ∀ s, lib.getString (.string s) = some s
  integer : ∀ n, lib.getUint16 (.integer n) = some (UInt16.ofInt n)
  boolean : ∀ b, lib.getBool (.boolean b) = some b

/-- The member, if the object has it, converts. -/
def Fits {α : Type u} (get : Json → Option α) (j : Json) (key : List UInt8) : Prop :=
  ∀ stored, j.member key = some stored → get stored ≠ none

def isObject : Json → Bool
  | .object _ => true
  | _ => false

section Value

variable {α : Type u} {get : Json → Option α} {j : Json} {key : List UInt8} {fallback : α}

/-- `value` throws on what is not an object, and on a member that does not convert. -/
theorem value_eq_none : j.value get key fallback = none ↔ ¬ (j.isObject ∧ j.Fits get key) := by
  cases j with
  | object members =>
      simp only [value, Fits, member, isObject, true_and]
      cases members key with
      | none => simp
      | some stored => simp
  | _ => simp [value, isObject]

theorem value_of_none (object : j.isObject = true) (absent : j.member key = none) :
    j.value get key fallback = some fallback := by
  cases j with
  | object members =>
      rw [member] at absent
      rw [value, absent]
  | _ => contradiction

theorem value_of_some (object : j.isObject = true) {stored : Json}
    (present : j.member key = some stored) : j.value get key fallback = get stored := by
  cases j with
  | object members =>
      rw [member] at present
      rw [value, present]
  | _ => contradiction

end Value

end Json

end ChronoCap

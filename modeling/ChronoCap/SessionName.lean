/- module: ChronoCap/SessionName
   source: src/i2wRecorder.cpp, src/core/record_writer.cpp
   digest: The name of a recording against the local time it is made of. -/

import ChronoCap.Foundation.Decimal

set_option autoImplicit false
set_option relaxedAutoImplicit false

namespace ChronoCap.SessionName

open ChronoCap.Foundation.Decimal

/-- What localtime_r fills in and MakeSessionBaseName reads, with the ranges it keeps; the year is
one that `tm_year + 1900` does not overflow for. -/
@[ext] structure Tm where
  tmYear : Int
  tmMon : Int
  tmMday : Int
  tmHour : Int
  tmMin : Int
  tmSec : Int
  year : -2 ^ 31 ≤ tmYear ∧ tmYear + 1900 < 2 ^ 31
  mon : 0 ≤ tmMon ∧ tmMon ≤ 11
  mday : 1 ≤ tmMday ∧ tmMday ≤ 31
  hour : 0 ≤ tmHour ∧ tmHour ≤ 23
  min : 0 ≤ tmMin ∧ tmMin ≤ 59
  sec : 0 ≤ tmSec ∧ tmSec ≤ 60
  deriving DecidableEq

def makeSessionBaseName (tm : Tm) : List Char :=
  -- snprintf leaves 63 characters of the buffer for the text
  ("recording_".toList ++ signed 4 (tm.tmYear + 1900) ++ signed 2 (tm.tmMon + 1) ++
    signed 2 tm.tmMday ++ "_".toList ++ signed 2 tm.tmHour ++ signed 2 tm.tmMin ++
    signed 2 tm.tmSec).take 63

/-- `bin_path_` -/
def binPath (sessionBase : List Char) : List Char := sessionBase ++ ".bin".toList

/-- The path of a recording for which main asks the clock at this local time. -/
def path (tm : Tm) : List Char := binPath (makeSessionBaseName tm)

namespace Tm

/-- The members in the order of the name. -/
def fields (tm : Tm) : List Int :=
  [tm.tmYear, tm.tmMon, tm.tmMday, tm.tmHour, tm.tmMin, tm.tmSec]

theorem fields_inj {t s : Tm} : t.fields = s.fields ↔ t = s := by
  constructor
  · intro same
    simp only [fields, List.cons.injEq, and_true] at same
    obtain ⟨year, mon, mday, hour, min, sec⟩ := same
    exact Tm.ext year mon mday hour min sec
  · exact congrArg fields

end Tm

/-- How the members behind the year are printed. -/
def restForms : List (Int → List Char) :=
  [fun mon => signed 2 (mon + 1), signed 2, fun hour => "_".toList ++ signed 2 hour, signed 2,
    signed 2]

def forms : List (Int → List Char) := (fun year => signed 4 (year + 1900)) :: restForms

variable (t s : Tm)

theorem row_forms :
    row forms t.fields = signed 4 (t.tmYear + 1900) ++ row restForms t.fields.tail := rfl

/-- What `%02d` prints has two digits. -/
theorem Tm.two_digits :
    ∀ x ∈ [t.tmMon + 1, t.tmMday, t.tmHour, t.tmMin, t.tmSec], 0 ≤ x ∧ x < 10 ^ 2 := by
  obtain ⟨-, -, -, -, -, -, -, mon, mday, hour, min, sec⟩ := t
  simp only [List.forall_mem_cons]
  refine ⟨by omega, by omega, by omega, by omega, by omega, ?_⟩
  exact fun _ none => absurd none List.not_mem_nil

theorem keeps_rest : Keeps (row restForms) t.fields.tail s.fields.tail := by
  have two : ∀ {x y : Int}, x ∈ [t.tmMon + 1, t.tmMday, t.tmHour, t.tmMin, t.tmSec] →
      y ∈ [s.tmMon + 1, s.tmMday, s.tmHour, s.tmMin, s.tmSec] → Keeps (signed 2) x y := by
    intro x y hx hy
    obtain ⟨low, high⟩ := t.two_digits x hx
    obtain ⟨low', high'⟩ := s.two_digits y hy
    exact keeps_signed Nat.two_pos low high low' high'
  apply keeps_row_cons (Keeps.shift (two (by simp) (by simp)))
  apply keeps_row_cons (two (by simp) (by simp))
  apply keeps_row_cons ((two (by simp) (by simp)).behind _)
  apply keeps_row_cons (two (by simp) (by simp))
  exact keeps_row_cons (two (by simp) (by simp)) keeps_row_nil

/-- The buffer is large enough. -/
theorem makeSessionBaseName_eq :
    makeSessionBaseName t = "recording_".toList ++ row forms t.fields := by
  have year : (signed 4 (t.tmYear + 1900)).length ≤ 11 := by
    obtain ⟨low, high⟩ := t.year
    exact length_signed_le (k := 10) (by omega) (by omega) (by omega)
  have two : ∀ x ∈ [t.tmMon + 1, t.tmMday, t.tmHour, t.tmMin, t.tmSec],
      (signed 2 x).length ≤ 3 := by
    intro x mem
    obtain ⟨low, high⟩ := t.two_digits x mem
    exact length_signed_le (k := 2) Nat.two_pos (Nat.le_refl 2) (by omega)
  simp only [List.forall_mem_cons] at two
  have texts : "recording_".toList.length = 10 ∧ "_".toList.length = 1 := by decide
  unfold makeSessionBaseName
  rw [List.take_of_length_le]
  · simp [row, forms, restForms, Tm.fields]
  · simp only [List.length_append]
    omega

/-- A year that `%04d` prints with four digits. -/
def Tm.FourDigits (tm : Tm) : Prop := 0 ≤ tm.tmYear + 1900 ∧ tm.tmYear + 1900 < 10000

instance : DecidablePred Tm.FourDigits := fun tm =>
  inferInstanceAs (Decidable (0 ≤ tm.tmYear + 1900 ∧ tm.tmYear + 1900 < 10000))

theorem keeps_fields (digits : t.FourDigits) (digits' : s.FourDigits) :
    Keeps (row forms) t.fields s.fields :=
  keeps_row_cons (Keeps.shift (keeps_signed (by omega) digits.1 digits.2 digits'.1 digits'.2))
    (keeps_rest t s)

theorem path_eq_iff : path t = path s ↔ t = s := by
  refine ⟨fun same => ?_, fun same => by rw [same]⟩
  rw [path, path, binPath, binPath, List.append_cancel_right_eq, makeSessionBaseName_eq,
    makeSessionBaseName_eq, List.append_cancel_left_eq, row_forms, row_forms] at same
  have rest := keeps_rest t s
  obtain ⟨year, tail⟩ := List.append_inj' same rest.length
  have first := (Int.add_left_inj 1900).mp (signed_inj year)
  apply Tm.fields_inj.mp
  change t.tmYear :: t.fields.tail = s.tmYear :: s.fields.tail
  rw [first, rest.eq.mp tail]

/-- Listed by name, recordings are in the order of their local times. -/
theorem path_lt_iff (digits : t.FourDigits) (digits' : s.FourDigits) :
    path t < path s ↔ t.fields < s.fields := by
  have name := (keeps_fields t s digits digits').behind "recording_".toList
  rw [path, path, binPath, binPath, makeSessionBaseName_eq, makeSessionBaseName_eq,
    append_lt_append_iff name.length, name.lt]
  exact or_iff_left (fun both => List.lt_irrefl ".bin".toList both.2)

end ChronoCap.SessionName

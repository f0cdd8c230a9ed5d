/- module: ChronoCap/Foundation/Decimal
   scope: library
   digest: Decimal numbers padded to a width: as texts they have the order of the numbers, and a row
           of them that of the tuple. -/

import Mathlib.Data.List.Basic
import Mathlib.Tactic.Common
import Mathlib.Tactic.Linarith

set_option autoImplicit false
set_option relaxedAutoImplicit false

namespace ChronoCap.Foundation.Decimal

open Nat (toDigits ofDigitChars)

/-- `%0<width>d` of a number that is not negative. -/
def padded (width n : Nat) : List Char :=
  List.replicate (width - (toDigits 10 n).length) '0' ++ toDigits 10 n

/-- `%0<width>d`: the sign counts for the width. -/
def signed (width : Nat) : Int → List Char
  | .ofNat n => padded width n
  | .negSucc n => '-' :: padded (width - 1) (n + 1)

/-! One number. -/

@[simp] theorem value_padded (width n : Nat) : ofDigitChars 10 (padded width n) 0 = n := by
  rw [padded, Nat.ofDigitChars_append, Nat.ofDigitChars_replicate_zero, Nat.mul_zero,
    Nat.ofDigitChars_toDigits (by decide) (by decide)]

theorem padded_inj {w v n m : Nat} (same : padded w n = padded v m) : n = m := by
  rw [← value_padded w n, same, value_padded]

theorem isDigit_of_mem_padded {w n : Nat} {c : Char} (mem : c ∈ padded w n) :
    c.isDigit = true := by
  rcases List.mem_append.mp mem with zero | digit
  · rw [List.eq_of_mem_replicate zero]
    rfl
  · exact Nat.isDigit_of_mem_toDigits (by decide) (by decide) digit

theorem length_padded {w n : Nat} (pos : 0 < w) (fits : n < 10 ^ w) :
    (padded w n).length = w := by
  have short := (Nat.length_toDigits_le_iff (by decide) pos).mpr fits
  rw [padded, List.length_append, List.length_replicate, Nat.sub_add_cancel short]

theorem length_padded_le {w k n : Nat} (pos : 0 < k) (le : w ≤ k) (fits : n < 10 ^ k) :
    (padded w n).length ≤ k := by
  have short := (Nat.length_toDigits_le_iff (by decide) pos).mpr fits
  rw [padded, List.length_append, List.length_replicate]
  omega

theorem length_signed_le {w k : Nat} {x : Int} (pos : 0 < k) (le : w ≤ k)
    (fits : x.natAbs < 10 ^ k) : (signed w x).length ≤ k + 1 := by
  cases x with
  | ofNat n => exact (length_padded_le pos le fits).trans (Nat.le_succ k)
  | negSucc n => exact Nat.succ_le_succ (length_padded_le pos ((Nat.sub_le w 1).trans le) fits)

theorem signed_inj {w : Nat} {x y : Int} (same : signed w x = signed w y) : x = y := by
  have minus : ∀ {v n m : Nat} (tail : List Char), '-' :: tail = padded v n → m = n := by
    intro v n m tail clash
    have digit := isDigit_of_mem_padded (clash ▸ List.mem_cons_self : '-' ∈ padded v n)
    exact absurd digit (by decide)
  cases x with
  | ofNat n =>
      cases y with
      | ofNat m => exact congrArg Int.ofNat (padded_inj same)
      | negSucc m => exact absurd (minus (m := n + 1) _ same.symm) (by omega)
  | negSucc n =>
      cases y with
      | ofNat m => exact absurd (minus (m := m + 1) _ same) (by omega)
      | negSucc m =>
          have number := padded_inj (List.tail_eq_of_cons_eq same)
          exact congrArg Int.negSucc (Nat.succ_injective number)

/-! The order of texts of one length. -/

theorem append_lt_append_iff {β : Type*} [LT β] {x y s t : List β} (length : x.length = y.length) :
    x ++ s < y ++ t ↔ x < y ∨ x = y ∧ s < t := by
  induction x generalizing y with
  | nil =>
      obtain rfl := List.eq_nil_of_length_eq_zero length.symm
      simp
  | cons a x ih =>
      cases y with
      | nil => contradiction
      | cons b y =>
          have rest := ih (Nat.succ_injective length)
          simp only [List.cons_append, List.cons_lt_cons_iff, rest, List.cons.injEq]
          tauto

theorem digit_bounds {c : Char} (digit : c.isDigit = true) : 48 ≤ c.toNat ∧ c.toNat < 58 := by
  rw [Char.isDigit_iff_toNat] at digit
  exact ⟨digit.1, Nat.lt_succ_of_le digit.2⟩

theorem value_cons (c : Char) (xs : List Char) :
    ofDigitChars 10 (c :: xs) 0 = 10 ^ xs.length * (c.toNat - 48) + ofDigitChars 10 xs 0 := by
  rw [Nat.ofDigitChars_cons, Nat.ofDigitChars_eq_ofDigitChars_zero, Nat.mul_zero, Nat.zero_add]
  rfl

theorem value_lt {xs : List Char} (digits : ∀ c ∈ xs, c.isDigit = true) :
    ofDigitChars 10 xs 0 < 10 ^ xs.length := by
  induction xs with
  | nil => simp
  | cons c xs ih =>
      have bounds := digit_bounds (digits c List.mem_cons_self)
      have rest := ih (fun d mem => digits d (List.mem_cons_of_mem _ mem))
      have head : c.toNat - 48 ≤ 9 := by omega
      rw [value_cons, List.length_cons, Nat.pow_succ]
      nlinarith [Nat.mul_le_mul_left (10 ^ xs.length) head]

theorem mul_add_lt_iff {b p q u v : Nat} (hu : u < b) (hv : v < b) :
    b * p + u < b * q + v ↔ p < q ∨ p = q ∧ u < v := by
  rcases Nat.lt_trichotomy p q with less | rfl | more
  · have gap := Nat.mul_le_mul_left b (Nat.succ_le_of_lt less)
    rw [Nat.mul_succ] at gap
    exact ⟨fun _ => .inl less, fun _ => by omega⟩
  · simp
  · have gap := Nat.mul_le_mul_left b (Nat.succ_le_of_lt more)
    rw [Nat.mul_succ] at gap
    exact ⟨fun lt => by omega, fun either => by omega⟩

/-- Digits in front weigh more than all behind them. -/
theorem lt_iff_value_lt {xs ys : List Char} (length : xs.length = ys.length)
    (digits : ∀ c ∈ xs, c.isDigit = true) (digits' : ∀ c ∈ ys, c.isDigit = true) :
    xs < ys ↔ ofDigitChars 10 xs 0 < ofDigitChars 10 ys 0 := by
  induction xs generalizing ys with
  | nil =>
      obtain rfl := List.eq_nil_of_length_eq_zero length.symm
      simp
  | cons c xs ih =>
      cases ys with
      | nil => contradiction
      | cons d ys =>
          have same := Nat.succ_injective length
          have digits_xs := fun e mem => digits e (List.mem_cons_of_mem c mem)
          have digits_ys := fun e mem => digits' e (List.mem_cons_of_mem d mem)
          have rest := ih same digits_xs digits_ys
          have low := value_lt digits_xs
          have low' := value_lt digits_ys
          obtain ⟨c_low, -⟩ := digit_bounds (digits c List.mem_cons_self)
          obtain ⟨d_low, -⟩ := digit_bounds (digits' d List.mem_cons_self)
          have first : c = d ↔ c.toNat - 48 = d.toNat - 48 := by
            rw [← Char.toNat_inj]
            omega
          have before : c < d ↔ c.toNat - 48 < d.toNat - 48 := by
            change c.toNat < d.toNat ↔ _
            omega
          rw [same] at low
          rw [List.cons_lt_cons_iff, rest, first, before, value_cons, value_cons, same]
          exact (mul_add_lt_iff low low').symm

theorem padded_lt_padded {w n m : Nat} (pos : 0 < w) (fits : n < 10 ^ w) (fits' : m < 10 ^ w) :
    padded w n < padded w m ↔ n < m := by
  have length : (padded w n).length = (padded w m).length := by
    rw [length_padded pos fits, length_padded pos fits']
  rw [lt_iff_value_lt length (fun _ => isDigit_of_mem_padded) (fun _ => isDigit_of_mem_padded),
    value_padded, value_padded]

/-! A row of texts. -/

/-- Texts of one length, in the order of what they stand for. -/
structure Keeps {α β : Type*} [LT α] [LT β] (f : α → List β) (a b : α) : Prop where
  length : (f a).length = (f b).length
  lt : f a < f b ↔ a < b
  eq : f a = f b ↔ a = b

theorem keeps_signed {w : Nat} {x y : Int} (pos : 0 < w) (low : 0 ≤ x) (high : x < 10 ^ w)
    (low' : 0 ≤ y) (high' : y < 10 ^ w) : Keeps (signed w) x y := by
  obtain ⟨n, rfl⟩ := Int.eq_ofNat_of_zero_le low
  obtain ⟨m, rfl⟩ := Int.eq_ofNat_of_zero_le low'
  have fits : n < 10 ^ w := by exact_mod_cast high
  have fits' : m < 10 ^ w := by exact_mod_cast high'
  refine ⟨?_, ?_, ⟨signed_inj, congrArg _⟩⟩
  · exact (length_padded pos fits).trans (length_padded pos fits').symm
  · exact (padded_lt_padded pos fits fits').trans Int.ofNat_lt.symm

theorem Keeps.shift {f : Int → List Char} {x y k : Int} (keeps : Keeps f (x + k) (y + k)) :
    Keeps (fun x => f (x + k)) x y where
  length := keeps.length
  lt := by rw [keeps.lt, Int.add_lt_add_iff_right]
  eq := by rw [keeps.eq, Int.add_left_inj]

theorem Keeps.behind {α β : Type*} [LT α] [LT β] [Std.Irrefl ((· < ·) : β → β → Prop)]
    {f : α → List β} {a b : α} (keeps : Keeps f a b) (text : List β) :
    Keeps (fun a => text ++ f a) a b where
  length := by rw [List.length_append, List.length_append, keeps.length]
  lt := by
    rw [append_lt_append_iff rfl, keeps.lt]
    exact ⟨fun either => (either.resolve_left (List.lt_irrefl text)).2, fun lt => .inr ⟨rfl, lt⟩⟩
  eq := by rw [List.append_cancel_left_eq, keeps.eq]

/-- Each entry in its own form, side by side. -/
def row {α β : Type*} (forms : List (α → List β)) (entries : List α) : List β :=
  (List.zipWith (fun form a => form a) forms entries).flatten

section Row

variable {α β : Type*} [LT α] [LT β] {form : α → List β} {forms : List (α → List β)} {a b : α}
  {as bs : List α}

theorem keeps_row_nil : Keeps (row ([] : List (α → List β))) [] [] where
  length := rfl
  lt := by simp [row]
  eq := by simp [row]

theorem keeps_row_cons (first : Keeps form a b) (rest : Keeps (row forms) as bs) :
    Keeps (row (form :: forms)) (a :: as) (b :: bs) where
  length := by
    change (form a ++ row forms as).length = (form b ++ row forms bs).length
    rw [List.length_append, List.length_append, first.length, rest.length]
  lt := by
    change form a ++ row forms as < form b ++ row forms bs ↔ _
    rw [append_lt_append_iff first.length, first.lt, first.eq, rest.lt, List.cons_lt_cons_iff]
  eq := by
    change form a ++ row forms as = form b ++ row forms bs ↔ _
    rw [List.cons.injEq, ← first.eq, ← rest.eq]
    exact ⟨fun same => List.append_inj same first.length,
      fun ⟨head, tail⟩ => congrArg₂ (· ++ ·) head tail⟩

end Row

end ChronoCap.Foundation.Decimal

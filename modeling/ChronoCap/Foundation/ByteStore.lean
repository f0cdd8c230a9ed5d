/- module: ChronoCap/Foundation/ByteStore
   scope: library
   digest: Stores at an offset of a byte buffer, C strings, and reads that may run out. -/

import Mathlib.Data.List.TakeWhile
import Mathlib.Tactic.Common

set_option autoImplicit false
set_option relaxedAutoImplicit false

namespace ChronoCap.Foundation.ByteStore

/-- Overwrite the bytes of `buf` from offset `off` on with `bs`. -/
def poke (buf : List UInt8) (off : Nat) (bs : List UInt8) : List UInt8 :=
  buf.take off ++ bs ++ buf.drop (off + bs.length)

theorem length_poke {buf : List UInt8} {off : Nat} {bs : List UInt8}
    (h : off + bs.length ≤ buf.length) : (poke buf off bs).length = buf.length := by
  simp [poke]
  omega

/-- A store right after an already written prefix extends that prefix. -/
theorem poke_after (pre rest bs : List UInt8) {off : Nat} (h : off = pre.length) :
    poke (pre ++ rest) off bs = pre ++ bs ++ rest.drop bs.length := by
  subst h
  simp [poke, List.drop_append]

@[simp] theorem poke_zero (buf bs : List UInt8) : poke buf 0 bs = bs ++ buf.drop bs.length := by
  simp [poke]

/-- Stores at given offsets, one after the other. -/
def pokes (buf : List UInt8) (stores : List (Nat × List UInt8)) : List UInt8 :=
  stores.foldl (fun buf s => poke buf s.1 s.2) buf

/-- Each store begins where the one before it ends, the first at `start`, and the last ends at
`stop`. -/
def Tiles : (start : Nat) → List (Nat × List UInt8) → (stop : Nat) → Prop
  | start, [], stop => start = stop
  | start, s :: stores, stop => s.1 = start ∧ Tiles (start + s.2.length) stores stop

/-- A byte of the buffer is one that the store writes. -/
def Covers (s : Nat × List UInt8) (k : Nat) : Prop := s.1 ≤ k ∧ k < s.1 + s.2.length

section Tiles

variable {start stop : Nat} {stores : List (Nat × List UInt8)}

theorem Tiles.length (tiles : Tiles start stores stop) :
    start + (stores.map Prod.snd).flatten.length = stop := by
  induction stores generalizing start with
  | nil => exact tiles
  | cons s stores ih =>
      have rest := ih tiles.2
      rw [List.map_cons, List.flatten_cons, List.length_append]
      omega

/-- Stores side by side leave their bytes in a row, whatever the buffer held. -/
theorem pokes_of_tiles (pre rest : List UInt8) (tiles : Tiles pre.length stores stop) :
    pokes (pre ++ rest) stores = pre ++ (stores.map Prod.snd).flatten ++
      rest.drop (stores.map Prod.snd).flatten.length := by
  induction stores generalizing pre rest with
  | nil => simp [pokes]
  | cons s stores ih =>
      obtain ⟨here, later⟩ := tiles
      rw [← List.length_append] at later
      have next := ih (pre ++ s.2) (rest.drop s.2.length) later
      rw [pokes, List.foldl_cons, poke_after pre rest s.2 here]
      rw [pokes] at next
      rw [next]
      simp [List.append_assoc, List.drop_drop]

/-- A store behind `start` does not reach back before it. -/
theorem Tiles.start_le (tiles : Tiles start stores stop) {s : Nat × List UInt8}
    (mem : s ∈ stores) : start ≤ s.1 := by
  induction stores generalizing start with
  | nil => contradiction
  | cons t stores ih =>
      obtain ⟨here, later⟩ := tiles
      rcases List.mem_cons.mp mem with rfl | mem
      · exact here.ge
      · have := ih later mem
        omega

/-- Every byte from `start` to `stop` is written by exactly one of the stores. -/
theorem Tiles.covers (tiles : Tiles start stores stop) {k : Nat} (above : start ≤ k)
    (below : k < stop) : ∃ pre s post, stores = pre ++ s :: post ∧ Covers s k ∧
      ∀ t ∈ pre ++ post, ¬ Covers t k := by
  induction stores generalizing start with
  | nil =>
      have empty : start = stop := tiles
      omega
  | cons s stores ih =>
      obtain ⟨here, later⟩ := tiles
      by_cases first : k < start + s.2.length
      · refine ⟨[], s, stores, rfl, ⟨by omega, by omega⟩, ?_⟩
        intro t mem covers
        have := later.start_le mem
        have := covers.1
        omega
      · obtain ⟨pre, t, post, rfl, covers, others⟩ := ih later (by omega)
        refine ⟨s :: pre, t, post, rfl, covers, ?_⟩
        intro u mem
        rcases List.mem_cons.mp mem with rfl | mem
        · intro covers
          have := covers.2
          omega
        · exact others u mem

end Tiles

/-- `n` indeterminate bytes, as found in an uninitialised local array. -/
def uninit (stack : Nat → UInt8) (n : Nat) : List UInt8 := (List.range n).map stack

@[simp] theorem length_uninit (stack : Nat → UInt8) (n : Nat) : (uninit stack n).length = n := by
  simp [uninit]

/-- The characters a scan from the start of an array finds before the first NUL.
The scan does not know where the array ends: it goes on into the bytes behind it. -/
def cString (array beyond : List UInt8) : List UInt8 :=
  (array ++ beyond).takeWhile (· ≠ 0)

/-- Read an array of `n` bytes at the head of the memory, if they are all there. -/
def readArray (n : Nat) (mem : List UInt8) : Option (Vector UInt8 n) :=
  if h : n ≤ mem.length then some ⟨(mem.take n).toArray, by simp [h]⟩ else none

theorem readArray_append (n : Nat) (bs rest : List UInt8) (h : bs.length = n) :
    readArray n (bs ++ rest) = some ⟨bs.toArray, by simpa using h⟩ := by
  subst h
  simp [readArray]

theorem readArray_of_le {n : Nat} {mem : List UInt8} (h : n ≤ mem.length) :
    ∃ v, readArray n mem = some v ∧ v.toList = mem.take n := by
  exact ⟨_, dif_pos h, rfl⟩

theorem takeWhile_append_of_mem {α : Type*} {p : α → Bool} {as : List α} (bs : List α)
    (h : ∃ a ∈ as, p a = false) : (as ++ bs).takeWhile p = as.takeWhile p := by
  induction as with
  | nil => simp at h
  | cons a as ih =>
      by_cases ha : p a = true
      · have rest : ∃ b ∈ as, p b = false := by
          obtain ⟨b, hb, hp⟩ := h
          rcases List.mem_cons.mp hb with rfl | hb
          · simp [ha] at hp
          · exact ⟨b, hb, hp⟩
        simp [ha, ih rest]
      · simp [ha]

/-- A terminator inside the array stops the scan there. -/
theorem cString_of_nul {array : List UInt8} (beyond : List UInt8) (h : 0 ∈ array) :
    cString array beyond = array.takeWhile (· ≠ 0) :=
  takeWhile_append_of_mem beyond ⟨0, h, by simp⟩

/-- Without a terminator the scan takes the whole array and what follows it. -/
theorem cString_of_no_nul {array : List UInt8} (beyond : List UInt8) (h : 0 ∉ array) :
    cString array beyond = array ++ beyond.takeWhile (· ≠ 0) := by
  have all : ∀ b ∈ array, decide (b ≠ 0) = true := by
    intro b hb
    exact decide_eq_true (fun hb0 => h (hb0 ▸ hb))
  rw [cString, List.takeWhile_append_of_pos all]

/-- Text without NUL, closed by one, is read back as it was written. -/
theorem cString_terminated {text : List UInt8} (h : 0 ∉ text) (tail beyond : List UInt8) :
    cString (text ++ 0 :: tail) beyond = text := by
  have all : ∀ b ∈ text, decide (b ≠ 0) = true := by
    intro b hb
    exact decide_eq_true (fun hb0 => h (hb0 ▸ hb))
  rw [cString_of_nul beyond (by simp), List.takeWhile_append_of_pos all]
  simp

theorem not_mem_takeWhile_ne (bs : List UInt8) : 0 ∉ bs.takeWhile (· ≠ 0) := by
  intro h
  simpa using List.mem_takeWhile_imp h

/-- A terminator leaves the scan short of the end of the array. -/
theorem length_takeWhile_ne_lt {bs : List UInt8} (nul : 0 ∈ bs) :
    (bs.takeWhile (· ≠ 0)).length < bs.length := by
  have prefixed : bs.takeWhile (· ≠ 0) <+: bs := List.takeWhile_prefix _
  have le := prefixed.length_le
  by_contra long
  have whole := prefixed.eq_of_length (by omega)
  exact not_mem_takeWhile_ne _ (whole ▸ nul)

end ChronoCap.Foundation.ByteStore

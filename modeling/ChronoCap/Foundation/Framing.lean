/- module: ChronoCap/Foundation/Framing
   scope: library
   digest: Streams cut into frames by a length each frame tells at its start, without any mark
           between them: concatenation, torn tails and truncation. -/

import Mathlib.Data.List.Infix
import Mathlib.Tactic.Common

set_option autoImplicit false
set_option relaxedAutoImplicit false

namespace ChronoCap.Foundation

universe u

/-- `size` reads the length of the first frame of a stream off the `header` elements it begins
with; it is `none` where these are missing or begin no frame. -/
structure Framing (α : Type u) where
  header : Nat
  size : List α → Option Nat
  header_pos : 0 < header
  header_le : ∀ bs n, size bs = some n → header ≤ n
  short : ∀ bs, bs.length < header → size bs = none
  size_take : ∀ bs m, header ≤ m → size (bs.take m) = size bs

namespace Framing

variable {α : Type u} (G : Framing α)

/-- The complete frames at the head of a stream; the first incomplete one ends it for good. -/
def frames (bs : List α) : List (List α) :=
  match _size : G.size bs with
  | none => []
  | some n => if _fits : n ≤ bs.length then bs.take n :: frames (bs.drop n) else []
termination_by bs.length
decreasing_by
  have := G.header_pos
  have := G.header_le bs n _size
  rw [List.length_drop]
  omega

def IsFrame (f : List α) : Prop := G.size f = some f.length

variable {G} {bs f : List α} {n : Nat}

theorem frames_of_none (none : G.size bs = none) : G.frames bs = [] := by
  unfold frames
  split
  · rfl
  · rename_i n some
    rw [some] at none
    contradiction

theorem frames_of_cut (some : G.size bs = some n) (cut : bs.length < n) : G.frames bs = [] := by
  unfold frames
  split
  · rfl
  · rename_i m same
    have : m = n := Option.some.inj (same.symm.trans some)
    rw [dif_neg (by omega)]

theorem frames_of_le (some : G.size bs = some n) (fits : n ≤ bs.length) :
    G.frames bs = bs.take n :: G.frames (bs.drop n) := by
  rw [frames]
  split
  · rename_i none
    rw [some] at none
    contradiction
  · rename_i m same
    have : m = n := Option.some.inj (same.symm.trans some)
    subst this
    rw [dif_pos fits]

@[simp] theorem frames_nil : G.frames [] = [] := frames_of_none (G.short [] G.header_pos)

theorem IsFrame.header_le (h : G.IsFrame f) : G.header ≤ f.length := G.header_le f _ h

/-- What follows a frame does not change its length. -/
theorem size_append (h : G.header ≤ f.length) (rest : List α) : G.size (f ++ rest) = G.size f := by
  have taken := G.size_take (f ++ rest) f.length h
  rw [List.take_left] at taken
  exact taken.symm

theorem frames_append (h : G.IsFrame f) (rest : List α) :
    G.frames (f ++ rest) = f :: G.frames rest := by
  have size : G.size (f ++ rest) = some f.length := (size_append h.header_le rest).trans h
  rw [frames_of_le size (by simp), List.take_left, List.drop_left]

/-- Frames written one after the other are found again, whatever follows them. -/
theorem frames_flatten_append {fs : List (List α)} (h : ∀ f ∈ fs, G.IsFrame f) (tail : List α) :
    G.frames (fs.flatten ++ tail) = fs ++ G.frames tail := by
  induction fs with
  | nil => rfl
  | cons f fs ih =>
      have first : G.IsFrame f := h f List.mem_cons_self
      have rest := ih (fun g hg => h g (List.mem_cons_of_mem f hg))
      rw [List.flatten_cons, List.append_assoc, frames_append first, rest, List.cons_append]

/-- A torn frame is no frame, and none is found in it. -/
theorem frames_torn (h : G.IsFrame f) {k : Nat} (torn : k < f.length) :
    G.frames (f.take k) = [] := by
  by_cases short : k < G.header
  · exact frames_of_none (G.short _ (by rw [List.length_take]; omega))
  · have size : G.size (f.take k) = some f.length := (G.size_take f k (by omega)).trans h
    exact frames_of_cut size (by rw [List.length_take]; omega)

theorem isFrame_take (some : G.size bs = some n) (fits : n ≤ bs.length) :
    G.IsFrame (bs.take n) := by
  unfold IsFrame
  rw [G.size_take bs n (G.header_le bs n some), some, List.length_take, Nat.min_eq_left fits]

/-- The frames that end within the first `n` elements. -/
def upTo : Nat → List (List α) → List (List α)
  | _, [] => []
  | n, f :: fs => if f.length ≤ n then f :: upTo (n - f.length) fs else []

/-- Cutting a stream loses the frames the cut falls into or before, and no others. -/
theorem frames_take (bs : List α) (n : Nat) : G.frames (bs.take n) = upTo n (G.frames bs) := by
  induction bs using frames.induct G generalizing n with
  | case1 bs none =>
      rw [frames_of_none none, upTo]
      by_cases h : n < G.header
      · exact frames_of_none (G.short _ (by rw [List.length_take]; omega))
      · exact frames_of_none ((G.size_take bs n (by omega)).trans none)
  | case2 bs m size fits ih =>
      have header := G.header_le bs m size
      rw [frames_of_le size fits, upTo, List.length_take, Nat.min_eq_left fits]
      split
      · rename_i within
        have cut : G.size (bs.take n) = some m := (G.size_take bs n (by omega)).trans size
        rw [frames_of_le cut (by rw [List.length_take]; omega), List.take_take, List.drop_take,
          Nat.min_eq_left within, ih]
      · rename_i beyond
        by_cases h : n < G.header
        · exact frames_of_none (G.short _ (by rw [List.length_take]; omega))
        · have cut : G.size (bs.take n) = some m := (G.size_take bs n (by omega)).trans size
          exact frames_of_cut cut (by rw [List.length_take]; omega)
  | case3 bs m size cut =>
      rw [frames_of_cut size (by omega), upTo]
      by_cases h : n < G.header
      · exact frames_of_none (G.short _ (by rw [List.length_take]; omega))
      · exact frames_of_cut ((G.size_take bs n (by omega)).trans size)
          (by rw [List.length_take]; omega)

theorem upTo_eq_take (n : Nat) (fs : List (List α)) : upTo n fs = fs.take (upTo n fs).length := by
  induction fs generalizing n with
  | nil => rfl
  | cons f fs ih =>
      rw [upTo]
      split
      · rw [List.length_cons, List.take_succ_cons, ← ih]
      · rfl

/-- How many frames are kept: as many as end, together, within the first `n` elements. -/
theorem le_length_upTo_iff {n j : Nat} {fs : List (List α)} (hj : j ≤ fs.length) :
    j ≤ (upTo n fs).length ↔ (fs.take j).flatten.length ≤ n := by
  induction fs generalizing n j with
  | nil =>
      obtain rfl : j = 0 := Nat.le_zero.mp hj
      exact iff_of_true (Nat.zero_le _) (Nat.zero_le _)
  | cons f fs ih =>
      cases j with
      | zero => exact iff_of_true (Nat.zero_le _) (Nat.zero_le _)
      | succ j =>
          have next := ih (n := n - f.length) (Nat.le_of_succ_le_succ hj)
          rw [upTo, List.take_succ_cons, List.flatten_cons, List.length_append]
          split
          · rw [List.length_cons, Nat.add_le_add_iff_right, next]
            omega
          · rw [List.length_nil]
            omega

/-- Frames with the offset each begins at, the first one at `start`. -/
def located : Nat → List (List α) → List (Nat × List α)
  | _, [] => []
  | start, f :: fs => (start, f) :: located (start + f.length) fs

theorem map_snd_located (start : Nat) (fs : List (List α)) :
    (located start fs).map Prod.snd = fs := by
  induction fs generalizing start with
  | nil => rfl
  | cons f fs ih => rw [located, List.map_cons, ih]

theorem le_of_mem_located {start : Nat} {fs : List (List α)} {x : Nat × List α}
    (h : x ∈ located start fs) : start ≤ x.1 := by
  induction fs generalizing start with
  | nil => simp [located] at h
  | cons f fs ih =>
      rcases List.mem_cons.mp h with rfl | later
      · exact Nat.le_refl _
      · have := ih later
        omega

/-- The frames up to a cut are those whose end does not lie behind it. -/
theorem located_upTo (start n : Nat) (fs : List (List α)) :
    located start (upTo n fs) =
      (located start fs).filter (fun x => x.1 + x.2.length ≤ start + n) := by
  induction fs generalizing start n with
  | nil => rfl
  | cons f fs ih =>
      rw [upTo, located, List.filter_cons]
      split
      · rename_i within
        rw [if_pos (by simpa using within), located, ih,
          show start + f.length + (n - f.length) = start + n by omega]
      · rename_i beyond
        rw [if_neg (by simpa using beyond)]
        refine (List.filter_eq_nil_iff.mpr ?_).symm
        intro x hx
        have := le_of_mem_located hx
        simp only [decide_eq_true_eq]
        omega

theorem located_prefix_upTo (start n : Nat) (fs : List (List α)) :
    located start (upTo n fs) <+: located start fs := by
  induction fs generalizing start n with
  | nil => exact List.prefix_refl _
  | cons f fs ih =>
      rw [upTo, located]
      split
      · rw [located]
        exact (List.cons_prefix_cons.mpr ⟨rfl, ih _ _⟩)
      · exact List.nil_prefix

/-- Each frame lies where it was found, and inside the stream. -/
theorem located_frames {start : Nat} {x : Nat × List α}
    (h : x ∈ located start (G.frames bs)) :
    G.IsFrame x.2 ∧ start ≤ x.1 ∧ x.1 + x.2.length ≤ start + bs.length ∧
      (bs.drop (x.1 - start)).take x.2.length = x.2 := by
  induction bs using frames.induct G generalizing start with
  | case1 bs none =>
      rw [frames_of_none none] at h
      simp [located] at h
  | case2 bs n size fits ih =>
      rw [frames_of_le size fits, located] at h
      have header := G.header_le bs n size
      have long : (bs.take n).length = n := by rw [List.length_take, Nat.min_eq_left fits]
      rcases List.mem_cons.mp h with rfl | later
      · refine ⟨isFrame_take size fits, Nat.le_refl _, by simp only [long]; omega, ?_⟩
        rw [long, Nat.sub_self, List.drop_zero]
      · rw [long] at later
        obtain ⟨frame, after, inside, found⟩ := ih later
        rw [List.length_drop] at inside
        rw [List.drop_drop, show n + (x.1 - (start + n)) = x.1 - start by omega] at found
        exact ⟨frame, by omega, by omega, found⟩
  | case3 bs n size cut =>
      rw [frames_of_cut size (by omega)] at h
      simp [located] at h

end Framing

end ChronoCap.Foundation

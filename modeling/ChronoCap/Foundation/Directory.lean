/- module: ChronoCap/Foundation/Directory
   scope: library
   digest: Files by path: creating and truncating one, and writing at an offset of it. -/

import ChronoCap.Foundation.ByteStore
import Mathlib.Logic.Function.Basic

set_option autoImplicit false
set_option relaxedAutoImplicit false

namespace ChronoCap.Foundation

universe u

abbrev Directory (Path : Type u) := Path → Option (List UInt8)

namespace Directory

variable {Path : Type u} [DecidableEq Path]

/-- `O_CREAT | O_TRUNC` -/
def create (d : Directory Path) (path : Path) : Directory Path :=
  Function.update d path (some [])

/-- write() at an offset: a gap behind the end of the file is filled with zeros. -/
def writeAt (d : Directory Path) (path : Path) (off : Nat) (bs : List UInt8) : Directory Path :=
  match d path with
  | none => d
  | some file =>
      if bs = [] then d
      else
        Function.update d path
          (some (ByteStore.poke (file ++ List.replicate (off - file.length) 0) off bs))

variable {d : Directory Path} {path other : Path}

@[simp] theorem create_same (d : Directory Path) (path : Path) : d.create path path = some [] :=
  Function.update_self _ _ _

theorem create_of_ne (ne : other ≠ path) : d.create path other = d other :=
  Function.update_of_ne ne _ _

theorem writeAt_of_ne (ne : other ≠ path) (off : Nat) (bs : List UInt8) :
    d.writeAt path off bs other = d other := by
  unfold writeAt
  cases d path with
  | none => rfl
  | some file =>
      dsimp only
      split
      · rfl
      · exact Function.update_of_ne ne _ _

/-- A write at the end appends. -/
theorem writeAt_end {file : List UInt8} (holds : d path = some file) (bs : List UInt8) :
    d.writeAt path file.length bs path = some (file ++ bs) := by
  unfold writeAt
  rw [holds]
  dsimp only
  split
  · rename_i nothing
    rw [nothing, List.append_nil, holds]
  · have whole := ByteStore.poke_after file [] bs rfl
    rw [List.append_nil, List.drop_nil, List.append_nil] at whole
    rw [Function.update_self, Nat.sub_self, List.replicate_zero, List.append_nil, whole]

end Directory

end ChronoCap.Foundation

/-
Aesd.Library.CString — byte strings that end at a NUL.

`contents mem` is the C string at the start of the memory `mem`: the bytes
before the first NUL. Its length is what `strlen` returns.
-/
import Mathlib.Data.List.TakeWhile

namespace CString

/-- The C string at the start of `mem`. -/
def contents (mem : List UInt8) : List UInt8 := mem.takeWhile (· ≠ 0)

theorem nul_notMem_contents (mem : List UInt8) : (0 : UInt8) ∉ contents mem := fun h => by
  simpa using List.mem_takeWhile_imp h

/-- A NUL ends the string. -/
theorem contents_append_nul {s : List UInt8} (h : (0 : UInt8) ∉ s) (t : List UInt8) :
    contents (s ++ 0 :: t) = s := by
  induction s with
  | nil => rfl
  | cons b s ih =>
    have hb : b ≠ 0 := fun e => h (by simp [e])
    have hs : (0 : UInt8) ∉ s := fun e => h (by simp [e])
    rw [List.cons_append, contents, List.takeWhile_cons_of_pos (by simpa using hb)]
    exact congrArg (b :: ·) (ih hs)

/-- What is behind a NUL is not read. -/
theorem contents_append_of_mem {s : List UInt8} (h : (0 : UInt8) ∈ s) (t : List UInt8) :
    contents (s ++ t) = contents s := by
  induction s with
  | nil => exact absurd h List.not_mem_nil
  | cons b s ih =>
    by_cases hb : b = 0
    · simp [contents, hb]
    · have hs : (0 : UInt8) ∈ s := (List.mem_cons.mp h).resolve_left (Ne.symm hb)
      rw [List.cons_append, contents, contents, List.takeWhile_cons_of_pos (by simpa using hb),
        List.takeWhile_cons_of_pos (by simpa using hb)]
      exact congrArg (b :: ·) (ih hs)

theorem contents_of_notMem {s : List UInt8} (h : (0 : UInt8) ∉ s) : contents s = s := by
  refine List.takeWhile_eq_self_iff.mpr fun b hb => ?_
  have hne : b ≠ 0 := fun e => h (e ▸ hb)
  simpa using hne

end CString

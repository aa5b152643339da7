/-
Aesd.Library.CheckedNat — sums and differences of unsigned machine words that
notice when they would wrap.

A word type is given by the bound that its values stay below. An operation is
none where its exact result is no value of the type, so that a computation
that comes out as `some` has not wrapped anywhere.
-/
import Mathlib.Data.List.Basic

namespace CheckedNat

/-- `a + b` in the type of the values below `bound`. -/
def add (bound a b : Nat) : Option Nat := if a + b < bound then some (a + b) else none

/-- `a - b` in an unsigned type. -/
def sub (a b : Nat) : Option Nat := if b ≤ a then some (a - b) else none

theorem add_of_lt {bound a b : Nat} (h : a + b < bound) : add bound a b = some (a + b) := if_pos h

theorem sub_of_le {a b : Nat} (h : b ≤ a) : sub a b = some (a - b) := if_pos h

section Sums

variable {α : Type*} {f : α → Nat} {xs : List α}

theorem le_foldl_add (f : α → Nat) (xs : List α) (acc : Nat) :
    acc ≤ xs.foldl (fun acc x => acc + f x) acc := by
  induction xs generalizing acc with
  | nil => exact Nat.le_refl _
  | cons x xs ih => exact Nat.le_trans (Nat.le_add_right ..) (ih _)

theorem foldl_add_le {m : Nat} (hm : ∀ x ∈ xs, f x ≤ m) (acc : Nat) :
    xs.foldl (fun acc x => acc + f x) acc ≤ acc + xs.length * m := by
  induction xs generalizing acc with
  | nil => exact Nat.le_add_right ..
  | cons x xs ih =>
    have hx := hm x List.mem_cons_self
    have hrest := ih (fun y hy => hm y (List.mem_cons_of_mem x hy)) (acc + f x)
    rw [List.foldl_cons, List.length_cons, Nat.succ_mul]
    omega

/-- **A sum does not wrap** on the way if its total does not. -/
theorem foldlM_add {bound acc : Nat} (h : xs.foldl (fun acc x => acc + f x) acc < bound) :
    xs.foldlM (fun acc x => add bound acc (f x)) acc
      = some (xs.foldl (fun acc x => acc + f x) acc) := by
  induction xs generalizing acc with
  | nil => rfl
  | cons x xs ih =>
    rw [List.foldl_cons] at h ⊢
    have hx : acc + f x < bound := Nat.lt_of_le_of_lt (le_foldl_add f xs _) h
    rw [List.foldlM_cons, add_of_lt hx]
    exact ih h

end Sums

end CheckedNat

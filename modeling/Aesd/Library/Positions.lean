/-
Aesd.Library.Positions — positions in the concatenation of pieces.

A position in a concatenation is a piece and an offset inside it. `locate`
finds the pair from the piece sizes alone; `locate_eq_some_iff` and
`locate_eq_none_iff` say that it is the only pair, and that there is one
exactly below the total size. `drop_flatten` is the same fact for the
contents: what follows a position is the rest of its piece and all later
pieces.
-/
import Mathlib.Algebra.GroupWithZero.Nat
import Mathlib.Data.List.Basic
import Mathlib.Data.List.Flatten

namespace Positions

/-- The piece that holds position `p`, and the offset of `p` in it. -/
def locate : List Nat → Nat → Option (Nat × Nat)
  | [], _ => none
  | n :: sizes, p =>
    if p < n then some (0, p)
    else (locate sizes (p - n)).map (fun q => (q.1 + 1, q.2))

/-- The position at offset `o` of piece `k`. -/
def position (sizes : List Nat) (k o : Nat) : Nat := (sizes.take k).sum + o

theorem locate_eq_some_iff (sizes : List Nat) (p k o : Nat) :
    locate sizes p = some (k, o) ↔
      ∃ n, sizes[k]? = some n ∧ o < n ∧ p = position sizes k o := by
  induction sizes generalizing p k with
  | nil => simp [locate]
  | cons n sizes ih =>
    by_cases hp : p < n
    · rw [locate, if_pos hp]
      cases k with
      | zero => simp [position]; omega
      | succ k =>
        simp only [Option.some.injEq, Prod.mk.injEq, List.getElem?_cons_succ, position,
                   List.take_succ_cons, List.sum_cons]
        omega
    · rw [locate, if_neg hp]
      cases k with
      | zero => simp [position]; omega
      | succ k =>
        have hmap : (locate sizes (p - n)).map (fun q => (q.1 + 1, q.2)) = some (k + 1, o)
            ↔ locate sizes (p - n) = some (k, o) := by
          cases locate sizes (p - n) with
          | none => simp
          | some q => simp [Prod.ext_iff]
        rw [hmap, ih (p - n) k, List.getElem?_cons_succ]
        simp only [position, List.take_succ_cons, List.sum_cons]
        constructor
        · rintro ⟨m, hm, ho, hpos⟩
          exact ⟨m, hm, ho, by omega⟩
        · rintro ⟨m, hm, ho, hpos⟩
          exact ⟨m, hm, ho, by omega⟩

theorem locate_eq_none_iff (sizes : List Nat) (p : Nat) :
    locate sizes p = none ↔ sizes.sum ≤ p := by
  induction sizes generalizing p with
  | nil => simp [locate]
  | cons n sizes ih =>
    by_cases hp : p < n
    · simp [locate, hp]; omega
    · simp only [locate, if_neg hp, Option.map_eq_none_iff, ih, List.sum_cons]
      omega

/-- Pieces of size zero in front are never found. -/
theorem locate_replicate_zero (m : Nat) (sizes : List Nat) (p : Nat) :
    locate (List.replicate m 0 ++ sizes) p
      = (locate sizes p).map (fun q => (q.1 + m, q.2)) := by
  induction m with
  | zero => simp
  | succ m ih =>
    rw [List.replicate_succ, List.cons_append, locate, if_neg (Nat.not_lt_zero p),
        Nat.sub_zero, ih, Option.map_map]
    congr 1

/-- What follows a position in a concatenation. -/
theorem drop_flatten {α : Type*} (pieces : List (List α)) {k o : Nat} {l : List α}
    (hk : pieces[k]? = some l) (ho : o ≤ l.length) :
    pieces.flatten.drop (position (pieces.map List.length) k o)
      = l.drop o ++ (pieces.drop (k + 1)).flatten := by
  induction pieces generalizing k with
  | nil => simp at hk
  | cons l' pieces ih =>
    cases k with
    | zero =>
      simp only [List.getElem?_cons_zero, Option.some.injEq] at hk
      subst hk
      simp [position, List.drop_append_of_le_length ho]
    | succ k =>
      have hrec := ih (k := k) (by simpa using hk)
      simp only [position, List.map_cons, List.take_succ_cons, List.sum_cons,
                 List.flatten_cons, List.drop_succ_cons] at hrec ⊢
      rw [Nat.add_assoc, List.drop_append, Nat.add_sub_cancel_left, hrec,
          List.drop_eq_nil_of_le (by omega)]
      simp

end Positions

/-
Aesd.Library.RegularFile — writes to a regular file at the offset of an open
descriptor.

Truncating the file does not move the descriptors that are open on it. A write
behind the end of the file fills the gap (`writeAt_of_length_le`), with zeros
where the elements are bytes. What a descriptor writes one piece after the
other, from an offset behind the end on, is `behind` that gap.
-/
import Mathlib.Data.List.Basic

namespace RegularFile

variable {α : Type*}

/-- The contents after a write at `offset`. -/
def writeAt (fill : α) (contents : List α) (offset : Nat) (data : List α) : List α :=
  if data.isEmpty then contents
  else contents.take offset ++ List.replicate (offset - contents.length) fill ++ data
    ++ contents.drop (offset + data.length)

@[simp] theorem writeAt_nil (fill : α) (contents : List α) (offset : Nat) :
    writeAt fill contents offset [] = contents := rfl

/-- A write at or behind the end. -/
theorem writeAt_of_length_le {fill : α} {contents data : List α} {offset : Nat}
    (h : contents.length ≤ offset) (hdata : data ≠ []) :
    writeAt fill contents offset data
      = contents ++ List.replicate (offset - contents.length) fill ++ data := by
  have hne : ¬ data.isEmpty = true := by rwa [List.isEmpty_iff]
  rw [writeAt, if_neg hne, List.take_of_length_le h, List.drop_eq_nil_of_le (by omega),
    List.append_nil]

/-- A write at the end appends. -/
theorem writeAt_length (fill : α) (contents data : List α) :
    writeAt fill contents contents.length data = contents ++ data := by
  cases data with
  | nil => simp
  | cons x data => rw [writeAt_of_length_le (Nat.le_refl _) (List.cons_ne_nil x data)]; simp

/-- The contents when all of `data` was written from `offset` on to an empty
file. Without data there is no gap either. -/
def behind (fill : α) (offset : Nat) (data : List α) : List α :=
  if data.isEmpty then [] else List.replicate offset fill ++ data

theorem behind_zero (fill : α) (data : List α) : behind fill 0 data = data := by
  cases data <;> simp [behind]

/-- The next piece. -/
theorem writeAt_behind (fill : α) (offset : Nat) (data next : List α) :
    writeAt fill (behind fill offset data) (offset + data.length) next
      = behind fill offset (data ++ next) := by
  cases data with
  | nil =>
    cases next with
    | nil => rfl
    | cons y next =>
      rw [writeAt_of_length_le (Nat.zero_le _) (List.cons_ne_nil y next)]
      simp [behind]
  | cons x data =>
    have hlen : (behind fill offset (x :: data)).length = offset + (x :: data).length := by
      simp [behind]
    rw [← hlen, writeAt_length]
    simp [behind]

/-- **When an empty file has lost nothing** of what was written before it was
emptied. -/
theorem behind_eq_append_iff {fill : α} {before data : List α} :
    behind fill before.length data = before ++ data ↔
      (∀ x ∈ before, x = fill) ∧ (before = [] ∨ data ≠ []) := by
  cases data with
  | nil =>
    simp only [behind, List.isEmpty_nil, if_true, List.append_nil, ne_eq, not_true, or_false]
    constructor
    · rintro h
      exact ⟨by simp [← h], h.symm⟩
    · rintro ⟨-, rfl⟩
      rfl
  | cons x data =>
    have hgap : behind fill before.length (x :: data)
        = List.replicate before.length fill ++ x :: data := rfl
    rw [hgap, List.append_left_inj, eq_comm, List.eq_replicate_iff]
    simp

end RegularFile

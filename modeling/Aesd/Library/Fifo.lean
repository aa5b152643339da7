/-
Aesd.Library.Fifo — a first-in-first-out queue of bounded length, over any
type, and the list facts a ring of slots needs to represent one.

`push n` adds at the back of a queue that holds at most `n` elements and
`evicted n` is the element it drops from the front. Two views of a queue
are connected here:

* the HISTORY view: a queue that holds the last `n` elements of a sequence
  still does after a push (`push_rtake`);
* the RING view: a queue kept in a circular list of slots is read by
  rotating the list, and overwriting one slot is a push
  (`rotate_set_succ` when the ring is full, `take_set_succ` before).
-/
import Mathlib.Data.List.Rotate
import Mathlib.Data.List.DropRight
import Mathlib.Data.List.GetD

namespace Fifo

variable {α : Type*}

/-! ## The bounded queue -/

/-- Add `x` at the back of a queue that holds at most `n` elements; a full
queue loses its oldest element first. -/
def push (n : Nat) (xs : List α) (x : α) : List α :=
  if xs.length < n then xs ++ [x] else xs.tail ++ [x]

/-- The element a push into the queue `xs` drops. -/
def evicted (n : Nat) (xs : List α) : Option α :=
  if xs.length < n then none else xs.head?

theorem push_of_lt {n : Nat} {xs : List α} (x : α) (h : xs.length < n) :
    push n xs x = xs ++ [x] := if_pos h

theorem push_of_le {n : Nat} {xs : List α} (x : α) (h : n ≤ xs.length) :
    push n xs x = xs.tail ++ [x] := if_neg (by omega)

/-- The newest element is the one pushed last. -/
theorem getLast?_push (n : Nat) (xs : List α) (x : α) :
    (push n xs x).getLast? = some x := by
  unfold push
  split <;> simp

theorem mem_push {n : Nat} {xs : List α} {x y : α} (h : y ∈ push n xs x) :
    y ∈ xs ∨ y = x := by
  unfold push at h
  split at h
  · simpa using h
  · rcases List.mem_append.mp h with h | h
    · exact Or.inl (List.mem_of_mem_tail h)
    · exact Or.inr (List.mem_singleton.mp h)

/-- Mapping over the elements commutes with a push. -/
theorem map_push {β : Type*} (f : α → β) (n : Nat) (xs : List α) (x : α) :
    (push n xs x).map f = push n (xs.map f) (f x) := by
  unfold push
  rw [List.length_map]
  split
  · simp
  · simp [List.map_tail]

/-- A push into the last `n` elements of a history gives the last `n`
elements of the longer history. -/
theorem push_rtake {n : Nat} (hn : 0 < n) (xs : List α) (x : α) :
    push n (xs.rtake n) x = (xs ++ [x]).rtake n := by
  simp only [List.rtake, List.length_append, List.length_singleton]
  by_cases hlt : xs.length < n
  · rw [push_of_lt x (by simp; omega), Nat.sub_eq_zero_of_le (by omega),
        Nat.sub_eq_zero_of_le (by omega)]
    simp
  · rw [push_of_le x (by simp; omega), List.tail_drop,
        List.drop_append_of_le_length (by omega)]
    congr 2
    omega

/-- What a push drops, followed by what it leaves, is the queue with the new
element at its back. -/
theorem evicted_append_push (n : Nat) (xs : List α) (x : α) :
    (evicted n xs).toList ++ push n xs x = xs ++ [x] := by
  unfold evicted push
  split
  · simp
  · cases xs with
    | nil => simp
    | cons y ys => simp

theorem length_push {n : Nat} {xs : List α} (x : α) (h : xs.length ≤ n) (hn : 0 < n) :
    (push n xs x).length = min n (xs.length + 1) := by
  unfold push
  split
  · simp; omega
  · simp; omega

/-- A part that has the last `n` elements is the last `n` elements. -/
theorem eq_rtake_of_append {n : Nat} {dropped kept all : List α} (h : dropped ++ kept = all)
    (hlen : kept.length = min n all.length) : kept = all.rtake n := by
  subst h
  simp only [List.length_append] at hlen
  rw [List.rtake, List.length_append]
  by_cases hn : n ≤ dropped.length + kept.length
  · rw [show dropped.length + kept.length - n = dropped.length by omega, List.drop_left]
  · have hnil : dropped = [] := List.eq_nil_of_length_eq_zero (by omega)
    subst hnil
    rw [List.length_nil] at hn ⊢
    rw [Nat.sub_eq_zero_of_le (by omega), List.nil_append, List.drop_zero]

/-! ## A queue in a ring of slots -/

/-- Reading `l.length` slots from slot `k` on, wrapping at the end, is a
rotation. -/
theorem map_range_getD_eq_rotate (l : List α) (d : α) (k : Nat) :
    (List.range l.length).map (fun i => l.getD ((k + i) % l.length) d) = l.rotate k := by
  apply List.ext_getElem
  · simp
  · intro i hi _
    simp only [List.length_map, List.length_range] at hi
    have hmod : (k + i) % l.length < l.length := Nat.mod_lt _ (by omega)
    rw [List.getElem_map, List.getElem_range, List.getElem_rotate,
        List.getD_eq_getElem _ _ hmod]
    simp only [Nat.add_comm k i]

/-- Reading the first `i` slots of a ring that has not wrapped. -/
theorem map_range_getD_eq_take (l : List α) (d : α) {i : Nat} (hi : i ≤ l.length) :
    (List.range i).map (fun j => l.getD j d) = l.take i := by
  apply List.ext_getElem
  · simp [hi]
  · intro j hj _
    simp only [List.length_map, List.length_range] at hj
    rw [List.getElem_map, List.getElem_range, List.getElem_take,
        List.getD_eq_getElem _ _ (by omega)]

/-- Overwriting the oldest slot of a full ring and starting one slot later
drops the oldest element and adds the new one at the back. -/
theorem rotate_set_succ {l : List α} {i : Nat} (hi : i < l.length) (x : α) :
    (l.set i x).rotate (i + 1) = (l.rotate i).tail ++ [x] := by
  rw [List.rotate_eq_drop_append_take (by rw [List.length_set]; omega),
      List.rotate_eq_drop_append_take (Nat.le_of_lt hi),
      List.drop_set_of_lt (by omega), List.take_set,
      List.drop_eq_getElem_cons hi, List.cons_append, List.tail_cons,
      List.append_assoc]
  congr 1
  rw [List.take_succ_eq_append_getElem hi,
      List.set_append_right _ _ (by rw [List.length_take]; omega)]
  simp [Nat.min_eq_left (Nat.le_of_lt hi)]

/-- Writing the first free slot of a ring that has not wrapped adds the new
element at the back. -/
theorem take_set_succ {l : List α} {i : Nat} (hi : i < l.length) (x : α) :
    (l.set i x).take (i + 1) = l.take i ++ [x] := by
  rw [List.take_set, List.take_succ_eq_append_getElem hi,
      List.set_append_right _ _ (by rw [List.length_take]; omega)]
  simp [Nat.min_eq_left (Nat.le_of_lt hi)]

end Fifo

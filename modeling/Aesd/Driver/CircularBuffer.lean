/-
Aesd.Driver.CircularBuffer — `aesd-circular-buffer.c`, and what its ring of
ten entries is: a bounded queue of the entries added last.

The first section is the source: the two structures, `init`, `add_entry`
and the search for a file position. Offsets are `Nat` (the source's are
`uint8_t` and are only ever set to a value below ten). The search returns
the slot it found and the offset in it where the source returns a pointer
to the slot and sets `*entry_offset_byte_rtn`; `none` is its `NULL`.
`add_entry` returns the evicted entry by value: the source hands out a
static copy, which its caller clears before the next call.

`WellFormed` is the invariant of the four fields. Under it `fromOldest`, the
slots read from `out_offs` on, is a `Fifo` queue (`fromOldest_addEntry`),
and the search, although it starts at `in_offs` and walks all ten slots,
locates positions in that queue (`findEntryOffsetForFpos_eq_locate`).
-/
import Aesd.Library.Fifo
import Aesd.Library.Positions

namespace Aesd.Driver

/-! ## The source -/

/-- `AESDCHAR_MAX_WRITE_OPERATIONS_SUPPORTED`. -/
abbrev aesdcharMaxWriteOperationsSupported : Nat := 10

/-- `struct aesd_buffer_entry`: a buffer (`none` is `NULL`) and its size. -/
structure AesdBufferEntry where
  buffptr : Option Nat
  size : Nat
  deriving DecidableEq, Repr

/-- An entry of zero bytes, as `memset` leaves it. -/
def AesdBufferEntry.zero : AesdBufferEntry := ⟨none, 0⟩

/-- `struct aesd_circular_buffer`. -/
structure AesdCircularBuffer where
  entry : List AesdBufferEntry
  inOffs : Nat
  outOffs : Nat
  full : Bool
  deriving DecidableEq, Repr

/-- `buffer->entry[i]`. -/
def AesdCircularBuffer.slot (buffer : AesdCircularBuffer) (i : Nat) : AesdBufferEntry :=
  buffer.entry.getD i .zero

/-- `aesd_circular_buffer_init`. -/
def aesdCircularBufferInit : AesdCircularBuffer :=
  { entry := List.replicate aesdcharMaxWriteOperationsSupported .zero
    inOffs := 0
    outOffs := 0
    full := false }

/-- `aesd_circular_buffer_add_entry`: the overwritten entry, if the buffer
was full, and the buffer with `addEntry` in it. Entries are values here: the
argument is not the static `evicted_entry` to which an earlier call has returned
a pointer, and which a call on a full buffer overwrites first. -/
def aesdCircularBufferAddEntry (buffer : AesdCircularBuffer) (addEntry : AesdBufferEntry) :
    Option AesdBufferEntry × AesdCircularBuffer :=
  let overwrittenEntry := if buffer.full then some (buffer.slot buffer.inOffs) else none
  let outOffs :=
    if buffer.full then (buffer.outOffs + 1) % aesdcharMaxWriteOperationsSupported
    else buffer.outOffs
  let entry := buffer.entry.set buffer.inOffs addEntry
  let inOffs := (buffer.inOffs + 1) % aesdcharMaxWriteOperationsSupported
  let full := if inOffs = outOffs then true else buffer.full
  (overwrittenEntry, { entry, inOffs, outOffs, full })

/-- The loop of the position search, with `n` iterations left. -/
def findEntryLoop (buffer : AesdCircularBuffer) (charOffset : Nat) :
    (n i accumulation : Nat) → Option (Nat × Nat)
  | 0, _, _ => none
  | n + 1, i, accumulation =>
    let currentElement := (i + buffer.inOffs) % aesdcharMaxWriteOperationsSupported
    if buffer.inOffs < buffer.outOffs ∧ buffer.inOffs > currentElement then none
    else
      let currentSize := (buffer.slot currentElement).size
      if accumulation + currentSize > charOffset then
        some (currentElement, charOffset - accumulation)
      else findEntryLoop buffer charOffset n (i + 1) (accumulation + currentSize)

/-- `aesd_circular_buffer_find_entry_offset_for_fpos`: the slot that holds
`charOffset` and the offset in it. The source's test of `full` before the
loop has an empty body. -/
def aesdCircularBufferFindEntryOffsetForFpos (buffer : AesdCircularBuffer)
    (charOffset : Nat) : Option (Nat × Nat) :=
  findEntryLoop buffer charOffset aesdcharMaxWriteOperationsSupported 0 0

/-! ## The invariant of the ring -/

/-- The number of stored entries. -/
def AesdCircularBuffer.stored (buffer : AesdCircularBuffer) : Nat :=
  if buffer.full then 10 else (buffer.inOffs + 10 - buffer.outOffs) % 10

/-- The slot of the `k`-th oldest entry. -/
def AesdCircularBuffer.slotOf (buffer : AesdCircularBuffer) (k : Nat) : Nat :=
  (buffer.outOffs + k) % 10

/-- The stored entries, oldest first: the slots from `out_offs` on. -/
def AesdCircularBuffer.fromOldest (buffer : AesdCircularBuffer) : List AesdBufferEntry :=
  (List.range buffer.stored).map (fun k => buffer.slot (buffer.slotOf k))

/-- What ties `in_offs`, `out_offs`, `full` and the slots together. -/
structure AesdCircularBuffer.WellFormed (buffer : AesdCircularBuffer) : Prop where
  length : buffer.entry.length = 10
  inOffs_lt : buffer.inOffs < 10
  full_offs : buffer.full = true → buffer.inOffs = buffer.outOffs
  notFull_out : buffer.full = false → buffer.outOffs = 0
  notFull_zero : buffer.full = false →
    ∀ i, buffer.inOffs ≤ i → i < 10 → buffer.slot i = .zero

variable {buffer : AesdCircularBuffer}

theorem AesdCircularBuffer.WellFormed.outOffs_lt (h : buffer.WellFormed) :
    buffer.outOffs < 10 := by
  cases hf : buffer.full with
  | true => rw [← h.full_offs hf]; exact h.inOffs_lt
  | false => rw [h.notFull_out hf]; decide

theorem AesdCircularBuffer.WellFormed.stored_of_notFull (h : buffer.WellFormed)
    (hf : buffer.full = false) : buffer.stored = buffer.inOffs := by
  have hin := h.inOffs_lt
  simp only [stored, hf, h.notFull_out hf]
  simp only [Bool.false_eq_true, if_false]
  omega

/-- A full ring is its slots, rotated. -/
theorem AesdCircularBuffer.WellFormed.fromOldest_full (h : buffer.WellFormed)
    (hf : buffer.full = true) : buffer.fromOldest = buffer.entry.rotate buffer.outOffs := by
  rw [← Fifo.map_range_getD_eq_rotate buffer.entry .zero]
  simp only [fromOldest, stored, hf, if_true, h.length, slot, slotOf]

/-- A ring that is not full is its first slots. -/
theorem AesdCircularBuffer.WellFormed.fromOldest_notFull (h : buffer.WellFormed)
    (hf : buffer.full = false) : buffer.fromOldest = buffer.entry.take buffer.inOffs := by
  have hin := h.inOffs_lt
  rw [fromOldest, h.stored_of_notFull hf,
      ← Fifo.map_range_getD_eq_take buffer.entry .zero (by rw [h.length]; omega)]
  apply List.map_congr_left
  intro k hk
  have hk' := List.mem_range.mp hk
  rw [slot, slotOf, h.notFull_out hf, Nat.zero_add, Nat.mod_eq_of_lt (by omega)]

theorem AesdCircularBuffer.length_fromOldest (buffer : AesdCircularBuffer) :
    buffer.fromOldest.length = buffer.stored := by
  simp [fromOldest]

theorem AesdCircularBuffer.stored_le (buffer : AesdCircularBuffer) : buffer.stored ≤ 10 := by
  unfold stored
  split
  · exact Nat.le_refl _
  · omega

theorem AesdCircularBuffer.getElem?_fromOldest {i : Nat} (hi : i < buffer.stored) :
    buffer.fromOldest[i]? = some (buffer.slot (buffer.slotOf i)) := by
  rw [fromOldest, List.getElem?_map, List.getElem?_range hi, Option.map_some]

/-- The ring is full exactly when ten entries are stored. -/
theorem AesdCircularBuffer.WellFormed.full_iff (h : buffer.WellFormed) :
    buffer.full = true ↔ ¬ buffer.fromOldest.length < 10 := by
  have hin := h.inOffs_lt
  rw [length_fromOldest]
  cases hf : buffer.full with
  | true => simp [stored, hf]
  | false => rw [h.stored_of_notFull hf]; simp [hin]

/-! ## Init and add_entry -/

theorem wellFormed_init : aesdCircularBufferInit.WellFormed where
  length := rfl
  inOffs_lt := by decide
  full_offs := by decide
  notFull_out := fun _ => rfl
  notFull_zero := by
    intro _ i _ hi
    exact List.getD_replicate _ hi

theorem fromOldest_init : aesdCircularBufferInit.fromOldest = [] := rfl

/-- `add_entry` on a full ring. -/
theorem addEntry_full (h : buffer.WellFormed) (hf : buffer.full = true)
    (e : AesdBufferEntry) :
    aesdCircularBufferAddEntry buffer e
      = (some (buffer.slot buffer.inOffs),
         { entry := buffer.entry.set buffer.inOffs e
           inOffs := (buffer.inOffs + 1) % 10
           outOffs := (buffer.inOffs + 1) % 10
           full := true }) := by
  simp [aesdCircularBufferAddEntry, hf, ← h.full_offs hf,
        aesdcharMaxWriteOperationsSupported]

/-- `add_entry` on a ring that is not full. -/
theorem addEntry_notFull (h : buffer.WellFormed) (hf : buffer.full = false)
    (e : AesdBufferEntry) :
    aesdCircularBufferAddEntry buffer e
      = (none,
         { entry := buffer.entry.set buffer.inOffs e
           inOffs := (buffer.inOffs + 1) % 10
           outOffs := 0
           full := decide ((buffer.inOffs + 1) % 10 = 0) }) := by
  simp [aesdCircularBufferAddEntry, hf, h.notFull_out hf,
        aesdcharMaxWriteOperationsSupported]

theorem wellFormed_addEntry (h : buffer.WellFormed) (e : AesdBufferEntry) :
    (aesdCircularBufferAddEntry buffer e).2.WellFormed := by
  have hin := h.inOffs_lt
  cases hf : buffer.full with
  | true =>
    rw [addEntry_full h hf]
    exact ⟨by simp [h.length], Nat.mod_lt _ (by decide), fun _ => rfl, by simp, by simp⟩
  | false =>
    rw [addEntry_notFull h hf]
    refine ⟨by simp [h.length], Nat.mod_lt _ (by decide), by simp, fun _ => rfl, ?_⟩
    intro hfull i hi hi10
    have hne : (buffer.inOffs + 1) % 10 ≠ 0 := by simpa using hfull
    have hlt : buffer.inOffs < i := by simp only at hi; omega
    rw [← h.notFull_zero hf i (by omega) hi10]
    simp [AesdCircularBuffer.slot, List.getD, List.getElem?_set_ne (Nat.ne_of_lt hlt)]

/-- **`add_entry` pushes**: the stored entries are a queue of at most ten. -/
theorem fromOldest_addEntry (h : buffer.WellFormed) (e : AesdBufferEntry) :
    (aesdCircularBufferAddEntry buffer e).2.fromOldest = Fifo.push 10 buffer.fromOldest e := by
  have hin := h.inOffs_lt
  have hwf := wellFormed_addEntry h e
  cases hf : buffer.full with
  | true =>
    rw [addEntry_full h hf] at hwf ⊢
    rw [hwf.fromOldest_full rfl,
        Fifo.push_of_le e (Nat.le_of_not_lt (h.full_iff.mp hf)), h.fromOldest_full hf,
        ← h.full_offs hf, ← Fifo.rotate_set_succ (by rw [h.length]; omega)]
    have hlen : (buffer.entry.set buffer.inOffs e).length = 10 := by simp [h.length]
    show (buffer.entry.set buffer.inOffs e).rotate ((buffer.inOffs + 1) % 10) = _
    rw [← hlen, List.rotate_mod]
  | false =>
    rw [Fifo.push_of_lt e (by rw [buffer.length_fromOldest, h.stored_of_notFull hf]; omega),
        h.fromOldest_notFull hf, ← Fifo.take_set_succ (by rw [h.length]; omega)]
    rw [addEntry_notFull h hf] at hwf ⊢
    have hlen : (buffer.entry.set buffer.inOffs e).length = 10 := by simp [h.length]
    by_cases h9 : (buffer.inOffs + 1) % 10 = 0
    · rw [hwf.fromOldest_full (by simpa using h9)]
      show (buffer.entry.set buffer.inOffs e).rotate 0 = _
      rw [List.rotate_zero, List.take_of_length_le (by omega)]
    · rw [hwf.fromOldest_notFull (by simpa using h9)]
      show (buffer.entry.set buffer.inOffs e).take ((buffer.inOffs + 1) % 10) = _
      rw [Nat.mod_eq_of_lt (by omega)]

/-- The returned entry is the one the push drops. -/
theorem overwritten_addEntry (h : buffer.WellFormed) (e : AesdBufferEntry) :
    (aesdCircularBufferAddEntry buffer e).1 = Fifo.evicted 10 buffer.fromOldest := by
  have hin := h.inOffs_lt
  cases hf : buffer.full with
  | true =>
    rw [addEntry_full h hf, Fifo.evicted, if_neg (h.full_iff.mp hf), h.fromOldest_full hf,
        ← h.full_offs hf, List.rotate_eq_drop_append_take (by rw [h.length]; omega),
        List.drop_eq_getElem_cons (by rw [h.length]; omega)]
    simp [AesdCircularBuffer.slot, h.length, hin]
  | false =>
    rw [addEntry_notFull h hf, Fifo.evicted, if_pos]
    rw [buffer.length_fromOldest, h.stored_of_notFull hf]
    omega

/-! ## The position search -/

/-- The sizes in the order the search visits the slots. -/
def AesdCircularBuffer.visited (buffer : AesdCircularBuffer) (i n : Nat) : List Nat :=
  (List.range' i n).map (fun j => (buffer.slot ((j + buffer.inOffs) % 10)).size)

/-- The early `return NULL` needs `in_offs < out_offs`, which never holds. -/
theorem AesdCircularBuffer.WellFormed.not_in_lt_out (h : buffer.WellFormed) :
    ¬ buffer.inOffs < buffer.outOffs := by
  cases hf : buffer.full with
  | true => rw [h.full_offs hf]; exact Nat.lt_irrefl _
  | false => rw [h.notFull_out hf]; exact Nat.not_lt_zero _

/-- The loop locates what is left of the position in what is left to visit. -/
theorem findEntryLoop_eq_locate (h : buffer.WellFormed) (p : Nat) (n i acc : Nat)
    (hacc : acc ≤ p) :
    findEntryLoop buffer p n i acc
      = (Positions.locate (buffer.visited i n) (p - acc)).map
          (fun q => ((i + q.1 + buffer.inOffs) % 10, q.2)) := by
  induction n generalizing i acc with
  | zero => rfl
  | succ n ih =>
    have hvis : buffer.visited i (n + 1)
        = (buffer.slot ((i + buffer.inOffs) % 10)).size :: buffer.visited (i + 1) n := by
      simp [AesdCircularBuffer.visited, List.range'_succ]
    rw [hvis, findEntryLoop, Positions.locate]
    simp only [aesdcharMaxWriteOperationsSupported, h.not_in_lt_out, false_and, if_false]
    by_cases hp : acc + (buffer.slot ((i + buffer.inOffs) % 10)).size > p
    · rw [if_pos hp, if_pos (by omega)]
      rfl
    · rw [if_neg hp, if_neg (by omega), ih (i + 1) _ (by omega),
          Option.map_map, Nat.sub_sub]
      congr 1
      funext q
      simp only [Function.comp_apply]
      congr 2
      omega

/-- Before the ring is full the search visits the free slots, of size zero,
and then the stored entries. -/
theorem AesdCircularBuffer.WellFormed.visited_notFull (h : buffer.WellFormed)
    (hf : buffer.full = false) :
    buffer.visited 0 10
      = List.replicate (10 - buffer.inOffs) 0
          ++ buffer.fromOldest.map AesdBufferEntry.size := by
  have hin := h.inOffs_lt
  have hsplit : List.range' 0 10
      = List.range' 0 (10 - buffer.inOffs) ++ List.range' (10 - buffer.inOffs) buffer.inOffs := by
    have happ : List.range' 0 (10 - buffer.inOffs)
        ++ List.range' (0 + (10 - buffer.inOffs)) buffer.inOffs
          = List.range' 0 (10 - buffer.inOffs + buffer.inOffs) := List.range'_append_1
    rwa [Nat.zero_add, Nat.sub_add_cancel (by omega), eq_comm] at happ
  rw [visited, hsplit, List.map_append, fromOldest, h.stored_of_notFull hf, List.map_map]
  congr 1
  · rw [List.eq_replicate_iff]
    refine ⟨by simp, fun size hsize => ?_⟩
    obtain ⟨j, hj, rfl⟩ := List.mem_map.mp hsize
    have hj' := List.mem_range'_1.mp hj
    rw [Nat.mod_eq_of_lt (by omega), h.notFull_zero hf _ (by omega) (by omega)]
    rfl
  · rw [List.range'_eq_map_range, List.map_map]
    apply List.map_congr_left
    intro j hj
    have hj' := List.mem_range.mp hj
    simp only [Function.comp_apply, slotOf, h.notFull_out hf]
    congr 2
    omega

/-- A full ring is visited from its oldest entry. -/
theorem AesdCircularBuffer.WellFormed.visited_full (h : buffer.WellFormed)
    (hf : buffer.full = true) :
    buffer.visited 0 10 = buffer.fromOldest.map AesdBufferEntry.size := by
  simp only [visited, fromOldest, stored, hf, if_true, List.map_map, ← List.range_eq_range']
  apply List.map_congr_left
  intro k _
  simp only [Function.comp_apply, slotOf, ← h.full_offs hf, Nat.add_comm k]

/-- The search visits all the stored bytes. -/
theorem AesdCircularBuffer.WellFormed.sum_visited (h : buffer.WellFormed) :
    (buffer.visited 0 10).sum = (buffer.fromOldest.map AesdBufferEntry.size).sum := by
  cases hf : buffer.full with
  | true => rw [h.visited_full hf]
  | false => simp [h.visited_notFull hf]

/-- The raw slots hold no bytes but those of the stored entries. -/
theorem AesdCircularBuffer.WellFormed.sum_entry (h : buffer.WellFormed) :
    (buffer.entry.map AesdBufferEntry.size).sum
      = (buffer.fromOldest.map AesdBufferEntry.size).sum := by
  have hvis : buffer.visited 0 10
      = (buffer.entry.rotate buffer.inOffs).map AesdBufferEntry.size := by
    rw [visited, ← Fifo.map_range_getD_eq_rotate buffer.entry .zero, h.length, List.map_map,
        ← List.range_eq_range']
    apply List.map_congr_left
    intro j _
    simp only [Function.comp_apply, slot, Nat.add_comm j]
  rw [← h.sum_visited, hvis]
  exact ((List.rotate_perm buffer.entry buffer.inOffs).symm.map _).sum_nat

/-- **The search locates positions in the stored entries.** -/
theorem findEntryOffsetForFpos_eq_locate (h : buffer.WellFormed) (p : Nat) :
    aesdCircularBufferFindEntryOffsetForFpos buffer p
      = (Positions.locate (buffer.fromOldest.map AesdBufferEntry.size) p).map
          (fun q => (buffer.slotOf q.1, q.2)) := by
  have hin := h.inOffs_lt
  rw [aesdCircularBufferFindEntryOffsetForFpos, aesdcharMaxWriteOperationsSupported,
      findEntryLoop_eq_locate h p _ _ _ (Nat.zero_le p), Nat.sub_zero]
  cases hf : buffer.full with
  | true =>
    rw [h.visited_full hf]
    congr 1
    funext q
    simp only [AesdCircularBuffer.slotOf, ← h.full_offs hf, Nat.zero_add, Nat.add_comm q.1]
  | false =>
    rw [h.visited_notFull hf, Positions.locate_replicate_zero, Option.map_map]
    congr 1
    funext q
    simp only [Function.comp_apply, AesdCircularBuffer.slotOf, h.notFull_out hf]
    congr 1
    omega

end Aesd.Driver

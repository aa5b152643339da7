/-
Aesd.Driver.RingRuns — the ring of `aesd-circular-buffer.c` on its own, over
any sequence of added entries.

`addEntries` is a run of `add_entry` calls. What the calls return and what
the ring still holds are the added entries, each once
(`addEntries_append`), so the ring holds the ten newest
(`addEntries_bounded_fifo`).

The position search is stated here in the arithmetic of `size_t`, with the
pointer it sets and the `return` statement it leaves by
(`findEntryOffsetForFposC`). While the retained sizes add up without
wrapping it is the search of `CircularBuffer` (`findEntryLoopC_eq`), and so
it finds the entry that holds a position (`findEntry_addEntries`).
-/
import Aesd.Driver.CircularBuffer

namespace Aesd.Driver

/-! ## A run of add_entry calls -/

/-- `add_entry` for each entry in turn: the entries returned as overwritten,
and the ring. -/
def addEntries : List AesdBufferEntry → AesdCircularBuffer →
    List AesdBufferEntry × AesdCircularBuffer
  | [], buffer => ([], buffer)
  | e :: es, buffer =>
    let (overwritten, buffer) := aesdCircularBufferAddEntry buffer e
    let (returned, buffer) := addEntries es buffer
    (overwritten.toList ++ returned, buffer)

theorem addEntries_cons (e : AesdBufferEntry) (es : List AesdBufferEntry)
    (buffer : AesdCircularBuffer) :
    addEntries (e :: es) buffer
      = ((aesdCircularBufferAddEntry buffer e).1.toList
          ++ (addEntries es (aesdCircularBufferAddEntry buffer e).2).1,
         (addEntries es (aesdCircularBufferAddEntry buffer e).2).2) := rfl

variable {buffer : AesdCircularBuffer}

theorem AesdCircularBuffer.WellFormed.addEntries (h : buffer.WellFormed)
    (es : List AesdBufferEntry) : (addEntries es buffer).2.WellFormed := by
  induction es generalizing buffer with
  | nil => exact h
  | cons e es ih => rw [addEntries_cons]; exact ih (wellFormed_addEntry h e)

/-- **Nothing is lost and nothing is duplicated**: what was returned, and
then what is stored, is what was stored and then added. -/
theorem addEntries_append (h : buffer.WellFormed) (es : List AesdBufferEntry) :
    (addEntries es buffer).1 ++ (addEntries es buffer).2.fromOldest
      = buffer.fromOldest ++ es := by
  induction es generalizing buffer with
  | nil => simp [addEntries]
  | cons e es ih =>
    rw [addEntries_cons, List.append_assoc, ih (wellFormed_addEntry h e),
        fromOldest_addEntry h, overwritten_addEntry h, ← List.append_assoc,
        Fifo.evicted_append_push, List.append_assoc, List.singleton_append]

theorem length_addEntries (h : buffer.WellFormed) (es : List AesdBufferEntry) :
    (addEntries es buffer).2.fromOldest.length
      = min 10 (buffer.fromOldest.length + es.length) := by
  have hten : buffer.fromOldest.length ≤ 10 := by
    rw [buffer.length_fromOldest]; exact buffer.stored_le
  induction es generalizing buffer with
  | nil => simp [addEntries, hten]
  | cons e es ih =>
    have hlen := Fifo.length_push e hten (by decide)
    rw [← fromOldest_addEntry h] at hlen
    rw [addEntries_cons, ih (wellFormed_addEntry h e) (by omega), hlen, List.length_cons]
    omega

/-- The ring after a run from `init`. -/
def ringOf (es : List AesdBufferEntry) : AesdCircularBuffer :=
  (addEntries es aesdCircularBufferInit).2

theorem wellFormed_ringOf (es : List AesdBufferEntry) : (ringOf es).WellFormed :=
  wellFormed_init.addEntries es

theorem stored_ringOf (es : List AesdBufferEntry) : (ringOf es).stored = min 10 es.length := by
  rw [← AesdCircularBuffer.length_fromOldest, ringOf, length_addEntries wellFormed_init]
  simp [fromOldest_init]

/-- A ring filled from empty holds the ten entries added last. -/
theorem fromOldest_ringOf (es : List AesdBufferEntry) :
    (ringOf es).fromOldest = es.rtake 10 := by
  have happ := addEntries_append wellFormed_init es
  rw [fromOldest_init, List.nil_append] at happ
  exact Fifo.eq_rtake_of_append happ (by
    rw [AesdCircularBuffer.length_fromOldest, stored_ringOf])

/-- **The ring is a bounded queue with exact eviction.** -/
theorem addEntries_bounded_fifo (es : List AesdBufferEntry) :
    let returned := (addEntries es aesdCircularBufferInit).1
    let buffer := (addEntries es aesdCircularBufferInit).2
    let retained := (List.range (min 10 es.length)).map
      (fun k => buffer.slot ((buffer.outOffs + k) % 10))
    retained = es.drop (es.length - min 10 es.length) ∧
      buffer.inOffs < 10 ∧ buffer.outOffs < 10 ∧
      (buffer.full = true ↔ 10 ≤ es.length) ∧
      (buffer.full = true → buffer.inOffs = buffer.outOffs) ∧
      (buffer.full = false → buffer.outOffs = 0 ∧
        ∀ i, buffer.inOffs ≤ i → i < 10 → buffer.slot i = .zero) ∧
      returned ++ retained = es := by
  intro returned buffer retained
  have hwf : buffer.WellFormed := wellFormed_ringOf es
  have hretained : retained = buffer.fromOldest := by
    rw [AesdCircularBuffer.fromOldest, show buffer.stored = _ from stored_ringOf es]
    rfl
  refine ⟨?_, hwf.inOffs_lt, hwf.outOffs_lt, ?_, hwf.full_offs, fun hf => ?_, ?_⟩
  · rw [hretained, show buffer.fromOldest = _ from fromOldest_ringOf es, List.rtake]
    congr 1
    omega
  · rw [hwf.full_iff, buffer.length_fromOldest, show buffer.stored = _ from stored_ringOf es]
    omega
  · exact ⟨hwf.notFull_out hf, hwf.notFull_zero hf⟩
  · rw [hretained, show returned ++ buffer.fromOldest = _ from
      addEntries_append wellFormed_init es]
    rfl

/-! ## The position search in size_t -/

/-- Which `return` the search leaves by: the one of a slot, the `NULL`
inside the loop, or the `NULL` after it. -/
inductive FindReturn where
  | found (slot : Nat)
  | early
  | exhausted
  deriving DecidableEq, Repr

/-- The returned pointer, `none` for `NULL`. -/
def FindReturn.pointer : FindReturn → Option Nat
  | .found slot => some slot
  | .early => none
  | .exhausted => none

/-- The loop of the search with a `size_t` that ends at `sizeMax`, and the
value of `*entry_offset_byte_rtn`. -/
def findEntryLoopC (sizeMax : Nat) (buffer : AesdCircularBuffer) (charOffset : Nat) :
    (n i accumulation entryOffsetByteRtn : Nat) → FindReturn × Nat
  | 0, _, _, entryOffsetByteRtn => (.exhausted, entryOffsetByteRtn)
  | n + 1, i, accumulation, entryOffsetByteRtn =>
    let currentElement := (i + buffer.inOffs) % aesdcharMaxWriteOperationsSupported
    if buffer.inOffs < buffer.outOffs ∧ buffer.inOffs > currentElement then
      (.early, entryOffsetByteRtn)
    else
      let currentSize := (buffer.slot currentElement).size
      let next := (accumulation + currentSize) % (sizeMax + 1)
      if next > charOffset then
        (.found currentElement, (charOffset + (sizeMax + 1) - accumulation) % (sizeMax + 1))
      else findEntryLoopC sizeMax buffer charOffset n (i + 1) next entryOffsetByteRtn

/-- `aesd_circular_buffer_find_entry_offset_for_fpos`, called with
`*entry_offset_byte_rtn = entryOffsetByteRtn`. -/
def findEntryOffsetForFposC (sizeMax : Nat) (buffer : AesdCircularBuffer)
    (charOffset entryOffsetByteRtn : Nat) : FindReturn × Nat :=
  findEntryLoopC sizeMax buffer charOffset aesdcharMaxWriteOperationsSupported 0 0
    entryOffsetByteRtn

/-- While the sizes still to visit do not wrap, the loop is the unbounded
one, and it leaves neither early nor with another offset. -/
theorem findEntryLoopC_eq (h : buffer.WellFormed) {sizeMax charOffset : Nat} (n : Nat) :
    ∀ {i accumulation rtn : Nat}, accumulation + (buffer.visited i n).sum ≤ sizeMax →
      accumulation ≤ charOffset →
      findEntryLoopC sizeMax buffer charOffset n i accumulation rtn
        = (findEntryLoop buffer charOffset n i accumulation).elim (.exhausted, rtn)
            (fun q => (.found q.1, q.2)) := by
  induction n with
  | zero => intro i accumulation rtn _ _; rfl
  | succ n ih =>
    intro i accumulation rtn hsum hacc
    have hvis : buffer.visited i (n + 1)
        = (buffer.slot ((i + buffer.inOffs) % 10)).size :: buffer.visited (i + 1) n := by
      simp [AesdCircularBuffer.visited, List.range'_succ]
    rw [hvis, List.sum_cons] at hsum
    simp only [findEntryLoopC, findEntryLoop, aesdcharMaxWriteOperationsSupported,
               h.not_in_lt_out, false_and, if_false]
    generalize hsize : (buffer.slot ((i + buffer.inOffs) % 10)).size = size at hsum
    have hnowrap : (accumulation + size) % (sizeMax + 1) = accumulation + size :=
      Nat.mod_eq_of_lt (by omega)
    rw [hnowrap]
    by_cases hp : accumulation + size > charOffset
    · have hoff : (charOffset + (sizeMax + 1) - accumulation) % (sizeMax + 1)
          = charOffset - accumulation := by
        rw [show charOffset + (sizeMax + 1) - accumulation
              = charOffset - accumulation + (sizeMax + 1) by omega,
            Nat.add_mod_right, Nat.mod_eq_of_lt (by omega)]
      rw [if_pos hp, if_pos hp, hoff]
      rfl
    · rw [if_neg hp, if_neg hp]
      exact ih (by omega) (by omega)

/-- Different entries are in different slots. -/
theorem AesdCircularBuffer.slotOf_inj (h : buffer.WellFormed) {k k' : Nat} (hk : k < 10)
    (hk' : k' < 10) (heq : buffer.slotOf k = buffer.slotOf k') : k = k' := by
  have hout := h.outOffs_lt
  unfold slotOf at heq
  omega

/-- The search in `size_t` locates positions in the stored entries. -/
theorem findEntryOffsetForFposC_eq_locate (h : buffer.WellFormed) {sizeMax : Nat}
    (hsum : (buffer.fromOldest.map AesdBufferEntry.size).sum ≤ sizeMax)
    (charOffset entryOffsetByteRtn : Nat) :
    findEntryOffsetForFposC sizeMax buffer charOffset entryOffsetByteRtn
      = (Positions.locate (buffer.fromOldest.map AesdBufferEntry.size) charOffset).elim
          (.exhausted, entryOffsetByteRtn) (fun q => (.found (buffer.slotOf q.1), q.2)) := by
  have hfind := findEntryOffsetForFpos_eq_locate h charOffset
  rw [aesdCircularBufferFindEntryOffsetForFpos] at hfind
  rw [findEntryOffsetForFposC, findEntryLoopC_eq h _ (by rw [h.sum_visited]; omega)
      (Nat.zero_le charOffset), hfind]
  cases Positions.locate (buffer.fromOldest.map AesdBufferEntry.size) charOffset <;> rfl

/-- It returns the slot of the `k`-th oldest entry for the positions located
there and for no others. -/
theorem findEntryOffsetForFposC_eq_found_iff (h : buffer.WellFormed) {sizeMax : Nat}
    (hsum : (buffer.fromOldest.map AesdBufferEntry.size).sum ≤ sizeMax)
    {charOffset entryOffsetByteRtn k o : Nat} (hk : k < buffer.stored) :
    findEntryOffsetForFposC sizeMax buffer charOffset entryOffsetByteRtn
        = (.found (buffer.slotOf k), o) ↔
      Positions.locate (buffer.fromOldest.map AesdBufferEntry.size) charOffset
        = some (k, o) := by
  have hten := buffer.stored_le
  rw [findEntryOffsetForFposC_eq_locate h hsum]
  cases hloc : Positions.locate (buffer.fromOldest.map AesdBufferEntry.size) charOffset with
  | none => simp
  | some q =>
    obtain ⟨k', o'⟩ := q
    obtain ⟨n, hn, -, -⟩ := (Positions.locate_eq_some_iff _ _ _ _).mp hloc
    have hk' : k' < buffer.stored := by
      have := (List.getElem?_eq_some_iff.mp hn).1
      simpa [AesdCircularBuffer.length_fromOldest] using this
    simp only [Option.elim_some, Prod.mk.injEq, FindReturn.found.injEq, Option.some.injEq]
    constructor
    · rintro ⟨hslot, ho⟩
      exact ⟨AesdCircularBuffer.slotOf_inj h (by omega) (by omega) hslot, ho⟩
    · rintro ⟨rfl, ho⟩
      exact ⟨rfl, ho⟩

/-- **The search finds the entry that holds the position**, in every ring
filled from `init`: the slot of the `k`-th oldest entry and the offset in
it, or `NULL` past the end. -/
theorem findEntry_addEntries (sizeMax : Nat) (es : List AesdBufferEntry)
    (hsum : ((es.rtake 10).map AesdBufferEntry.size).sum ≤ sizeMax)
    (charOffset entryOffsetByteRtn : Nat) :
    let buffer := (addEntries es aesdCircularBufferInit).2
    let retained := es.rtake 10
    let r := findEntryOffsetForFposC sizeMax buffer charOffset entryOffsetByteRtn
    (∀ (k : Nat) (e : AesdBufferEntry), retained[k]? = some e →
      buffer.slot (buffer.slotOf k) = e ∧
      ∀ o, r = (.found (buffer.slotOf k), o) ↔
        charOffset = ((retained.take k).map AesdBufferEntry.size).sum + o ∧ o < e.size) ∧
    (r.1.pointer = none ↔ (retained.map AesdBufferEntry.size).sum ≤ charOffset) ∧
    (r.1.pointer = none → r.2 = entryOffsetByteRtn) ∧
    r.1 ≠ .early := by
  intro buffer retained r
  have hwf : buffer.WellFormed := wellFormed_ringOf es
  have hret : buffer.fromOldest = retained := fromOldest_ringOf es
  have hsum' : (buffer.fromOldest.map AesdBufferEntry.size).sum ≤ sizeMax := by
    rw [hret]; exact hsum
  refine ⟨fun k e he => ?_, ?_⟩
  · have hk : k < buffer.stored := by
      rw [← AesdCircularBuffer.length_fromOldest, hret]
      exact (List.getElem?_eq_some_iff.mp he).1
    have hslot := AesdCircularBuffer.getElem?_fromOldest hk
    rw [hret, he, Option.some.injEq] at hslot
    refine ⟨hslot.symm, fun o => ?_⟩
    rw [show r = _ from rfl, findEntryOffsetForFposC_eq_found_iff hwf hsum' hk,
        Positions.locate_eq_some_iff, hret, List.getElem?_map, he, Positions.position,
        ← List.map_take]
    simp only [Option.map_some, Option.some.injEq, exists_eq_left', and_comm]
  · have hr := findEntryOffsetForFposC_eq_locate hwf hsum' charOffset entryOffsetByteRtn
    rw [hret] at hr
    cases hloc : Positions.locate (retained.map AesdBufferEntry.size) charOffset with
    | none =>
      have hend := (Positions.locate_eq_none_iff _ _).mp hloc
      simp [r, hr, hloc, FindReturn.pointer, hend]
    | some q =>
      have hlt : ¬ (retained.map AesdBufferEntry.size).sum ≤ charOffset := fun hend => by
        rw [(Positions.locate_eq_none_iff _ _).mpr hend] at hloc
        exact absurd hloc (by simp)
      simp only [r, hr, hloc, Option.elim_some, FindReturn.pointer, reduceCtorEq, hlt,
                 not_false_eq_true, false_imp_iff, ne_eq, and_self]

/-- Eleven entries of 0, 1 and 2 bytes in turn. -/
def elevenEntries : List AesdBufferEntry :=
  (List.range 11).map (fun i => ⟨some i, i % 3⟩)

/-- The ring has wrapped; position 3 is in the fourth oldest entry, after an
empty one. -/
theorem findEntry_addEntries_wrapped :
    findEntryOffsetForFposC 18446744073709551615
        (addEntries elevenEntries aesdCircularBufferInit).2 3 7 = (.found 4, 0) :=
  (((findEntry_addEntries 18446744073709551615 elevenEntries (by decide) 3 7).1 3
    ⟨some 4, 1⟩ (by decide)).2 0).mpr (by decide)

end Aesd.Driver

/-
Aesd.Driver.Ownership — which buffers the device owns, and what one
allocate-and-copy step or one `add_entry` step does to them.

`Kernel.Owned k frame` is the invariant of every state between two
statements of a driver call: the ring is well formed, the live allocations
are those the device refers to and those in `frame` (the temporary buffer of
a write in progress), and every entry is backed by a buffer of exactly its
size, or is null and empty.

`Kernel.view` reads the device as a `Device`: the stored lines, oldest
first, and the unfinished line. Each step has two lemmas, one that gives the
state it leaves in closed form and one that carries `Owned` to that state
and says what it does to the view.
-/
import Aesd.Driver.CharDevice

namespace Aesd.Driver

/-! ## Entries and their buffers -/

/-- The entry is null and empty, or its buffer is live and of its size. -/
def AesdBufferEntry.Backed (h : BlockHeap UInt8) (e : AesdBufferEntry) : Prop :=
  match e.buffptr with
  | none => e.size = 0
  | some id => ∃ bs, h.block id = some bs ∧ bs.length = e.size ∧ 0 < e.size

/-- The bytes an entry refers to. -/
def AesdBufferEntry.content (h : BlockHeap UInt8) (e : AesdBufferEntry) : List UInt8 :=
  (e.buffptr.bind h.block).getD []

theorem AesdBufferEntry.backed_zero (h : BlockHeap UInt8) : zero.Backed h := rfl

theorem AesdBufferEntry.Backed.length_content {h : BlockHeap UInt8} {e : AesdBufferEntry}
    (hb : e.Backed h) : (e.content h).length = e.size := by
  unfold Backed at hb
  cases hp : e.buffptr with
  | none => rw [hp] at hb; simp [content, hp, hb]
  | some id =>
    rw [hp] at hb
    obtain ⟨bs, hbs, hlen, _⟩ := hb
    simp [content, hp, hbs, hlen]

/-- A null buffer pointer is a zero size. -/
theorem AesdBufferEntry.Backed.null_iff {h : BlockHeap UInt8} {e : AesdBufferEntry}
    (hb : e.Backed h) : e.buffptr = none ↔ e.size = 0 := by
  unfold Backed at hb
  cases hp : e.buffptr with
  | none => rw [hp] at hb; simp [hb]
  | some id =>
    rw [hp] at hb
    obtain ⟨_, _, _, hpos⟩ := hb
    simp only [reduceCtorEq, false_iff]
    omega

theorem AesdBufferEntry.Backed.eq_zero {h : BlockHeap UInt8} {e : AesdBufferEntry}
    (hb : e.Backed h) (hs : e.size = 0) : e = zero := by
  obtain ⟨buffptr, size⟩ := e
  have hp := hb.null_iff.mpr hs
  simp only at hp hs
  rw [hp, hs]; rfl

theorem AesdBufferEntry.Backed.block {h : BlockHeap UInt8} {e : AesdBufferEntry} {id : Nat}
    (hb : e.Backed h) (hp : e.buffptr = some id) : h.block id = some (e.content h) := by
  unfold Backed at hb
  rw [hp] at hb
  obtain ⟨bs, hbs, _, _⟩ := hb
  simp [content, hp, hbs]

/-- An entry is as before when its own buffer is. -/
theorem AesdBufferEntry.Backed.congr {h h' : BlockHeap UInt8} {e : AesdBufferEntry}
    (hb : e.Backed h) (hsame : ∀ id, e.buffptr = some id → h'.block id = h.block id) :
    e.Backed h' := by
  unfold Backed at hb ⊢
  cases hp : e.buffptr with
  | none => rw [hp] at hb; exact hb
  | some id => rw [hp] at hb; simp only [hsame id hp]; exact hb

theorem AesdBufferEntry.content_congr {h h' : BlockHeap UInt8} {e : AesdBufferEntry}
    (hsame : ∀ id, e.buffptr = some id → h'.block id = h.block id) :
    e.content h' = e.content h := by
  unfold content
  cases hp : e.buffptr with
  | none => rfl
  | some id => simp [hsame id hp]

/-! ## The invariant -/

/-- The entries of the device: the slots of the ring and the partial line. -/
def AesdDev.buffers (dev : AesdDev) : List AesdBufferEntry :=
  dev.cBuffer.entry ++ [dev.partialBuffer]

/-- The allocations the device refers to. -/
def AesdDev.refs (dev : AesdDev) : List Nat := dev.buffers.filterMap AesdBufferEntry.buffptr

structure Kernel.Owned (k : Kernel) (frame : List Nat) : Prop where
  ring : k.dev.cBuffer.WellFormed
  owns : k.heap.Owns (frame ++ k.dev.refs)
  backed : ∀ e ∈ k.dev.buffers, e.Backed k.heap

/-- The device as its readers and writers see it: the stored lines, oldest
first, and the unfinished line. -/
structure Device where
  lines : List (List UInt8)
  part : List UInt8
  deriving DecidableEq, Repr

def Kernel.view (k : Kernel) : Device :=
  { lines := k.dev.cBuffer.fromOldest.map (AesdBufferEntry.content k.heap)
    part := k.dev.partialBuffer.content k.heap }

theorem AesdDev.partial_mem_buffers (dev : AesdDev) : dev.partialBuffer ∈ dev.buffers := by
  simp [buffers]

theorem AesdDev.mem_refs {dev : AesdDev} {e : AesdBufferEntry} {id : Nat}
    (he : e ∈ dev.buffers) (hp : e.buffptr = some id) : id ∈ dev.refs :=
  List.mem_filterMap.mpr ⟨e, he, hp⟩

theorem AesdCircularBuffer.WellFormed.slot_mem {buffer : AesdCircularBuffer}
    (h : buffer.WellFormed) {i : Nat} (hi : i < 10) : buffer.slot i ∈ buffer.entry := by
  rw [slot, List.getD_eq_getElem _ _ (by rw [h.length]; exact hi)]
  exact List.getElem_mem _

theorem AesdCircularBuffer.WellFormed.mem_entry {buffer : AesdCircularBuffer}
    (h : buffer.WellFormed) {e : AesdBufferEntry} (he : e ∈ buffer.fromOldest) :
    e ∈ buffer.entry := by
  obtain ⟨k, _, rfl⟩ := List.mem_map.mp he
  exact h.slot_mem (Nat.mod_lt _ (by decide))

theorem Kernel.Owned.backed_slot {k : Kernel} {frame : List Nat} (h : k.Owned frame)
    {i : Nat} (hi : i < 10) : (k.dev.cBuffer.slot i).Backed k.heap :=
  h.backed _ (List.mem_append_left _ (h.ring.slot_mem hi))

theorem Kernel.Owned.backed_partial {k : Kernel} {frame : List Nat} (h : k.Owned frame) :
    k.dev.partialBuffer.Backed k.heap := h.backed _ k.dev.partial_mem_buffers

theorem Kernel.Owned.length_part {k : Kernel} {frame : List Nat} (h : k.Owned frame) :
    k.view.part.length = k.dev.partialBuffer.size := h.backed_partial.length_content

/-- The sizes of the stored entries are the lengths of the stored lines. -/
theorem Kernel.Owned.map_size {k : Kernel} {frame : List Nat} (h : k.Owned frame) :
    k.dev.cBuffer.fromOldest.map AesdBufferEntry.size = k.view.lines.map List.length := by
  rw [view, List.map_map]
  apply List.map_congr_left
  intro e he
  exact (h.backed e (List.mem_append_left _ (h.ring.mem_entry he))).length_content.symm

/-- A buffer the device refers to is older than the next request. -/
theorem Kernel.Owned.ref_lt_next {k : Kernel} {frame : List Nat} (h : k.Owned frame)
    {e : AesdBufferEntry} {id : Nat} (he : e ∈ k.dev.buffers) (hp : e.buffptr = some id) :
    id < k.heap.next := h.owns.fresh id (List.mem_append_right _ (AesdDev.mem_refs he hp))

theorem owned_init : aesdInitModule.Owned [] where
  ring := wellFormed_init
  owns := BlockHeap.owns_empty
  backed := by
    intro e he
    have hz : e = .zero := by
      rcases List.mem_append.mp he with he | he
      · exact List.eq_of_mem_replicate he
      · exact List.mem_singleton.mp he
    rw [hz]
    exact AesdBufferEntry.backed_zero _

theorem view_init : aesdInitModule.view = ⟨[], []⟩ := rfl

/-! ## The lock -/

theorem Kernel.Owned.lock {k : Kernel} {frame : List Nat} (h : k.Owned frame) (b : Bool) :
    Kernel.Owned { k with dev := { k.dev with lock := b } } frame :=
  ⟨h.ring, h.owns, h.backed⟩

/-- A refused request leaves the device as it is. -/
def Kernel.refused (k : Kernel) : Kernel :=
  { k with heap := { k.heap with next := k.heap.next + 1 } }

theorem Kernel.Owned.refused {k : Kernel} {frame : List Nat} (h : k.Owned frame) :
    k.refused.Owned frame := ⟨h.ring, h.owns.bump, h.backed⟩

/-! ## Extending the partial line -/

/-- The heap after the partial buffer's own block has been released. -/
def Kernel.partialFreed (k : Kernel) : Nat → Option (List UInt8) :=
  match k.dev.partialBuffer.buffptr with
  | none => k.heap.block
  | some p => Function.update k.heap.block p none

/-- The state once `bytes` has become the contents of the partial line, in
the block allocated for it. -/
def Kernel.grown (k : Kernel) (bytes : List UInt8) : Kernel :=
  { heap :=
      { k.heap with
        block := Function.update k.partialFreed k.heap.next (some bytes)
        next := k.heap.next + 1 }
    dev := { k.dev with partialBuffer := ⟨some k.heap.next, bytes.length⟩ } }

section Extend

variable {kmalloc : Kmalloc} {k : Kernel} {frame : List Nat} {mem start len : Nat}
  {bytes : List UInt8}

/-- A refused allocation changes nothing. -/
theorem extendPartial_refused (h : k.Owned frame)
    (hno : kmalloc k.heap.next (k.dev.partialBuffer.size + len) = none) :
    extendPartial kmalloc (some mem) start len k = (false, k.refused) := by
  by_cases hs : k.dev.partialBuffer.size = 0
  · have hz := h.backed_partial.eq_zero hs
    obtain ⟨heap, lock, cBuffer, partialBuffer⟩ := k
    simp only at hz
    subst hz
    simp only [AesdBufferEntry.zero, Nat.zero_add] at hno
    simp only [extendPartial, AesdBufferEntry.zero, if_true, Kernel.kmalloc, hno,
               BlockHeap.alloc]
    rfl
  · simp only [extendPartial, hs, if_false, Kernel.kmalloc, hno, BlockHeap.alloc]
    rfl

/-- A granted one appends `len` bytes of `mem` to the partial line. -/
theorem extendPartial_granted (h : k.Owned frame) (hmem : mem ∈ frame)
    (hbytes : k.heap.block mem = some bytes) (hlen : start + len ≤ bytes.length)
    {g : Nat → UInt8} (hg : kmalloc k.heap.next (k.dev.partialBuffer.size + len) = some g) :
    extendPartial kmalloc (some mem) start len k
      = (true, k.grown (k.view.part ++ (bytes.drop start).take len)) := by
  have hmne : mem ≠ k.heap.next := fun e =>
    h.owns.next_not_live (e ▸ List.mem_append_left _ hmem)
  have hseg : ((bytes.drop start).take len).length = len := by
    rw [List.length_take, List.length_drop]; omega
  by_cases hs : k.dev.partialBuffer.size = 0
  · have hz := h.backed_partial.eq_zero hs
    have hpart : k.view.part = [] := by rw [Kernel.view, hz]; rfl
    rw [hs, Nat.zero_add] at hg
    simp only [extendPartial, hs, if_true, Kernel.kmalloc, hg, BlockHeap.alloc,
               Kernel.setPartial, Kernel.memcpy]
    rw [BlockHeap.copy_into hmne hbytes hlen (by simp),
        BlockHeap.splice_all (by simp [hseg])]
    simp [Kernel.grown, Kernel.partialFreed, hz, AesdBufferEntry.zero, hpart, hseg]
  · have hbp := h.backed_partial
    obtain ⟨p, hp⟩ := Option.ne_none_iff_exists'.mp (fun e => hs (hbp.null_iff.mp e))
    have hblock : k.heap.block p = some k.view.part := hbp.block hp
    have hpart := h.length_part
    have hpne : p ≠ k.heap.next := Nat.ne_of_lt (h.ref_lt_next k.dev.partial_mem_buffers hp)
    simp only [extendPartial, hs, if_false, Kernel.kmalloc, hg, BlockHeap.alloc,
               Kernel.setPartial, Kernel.memcpy, Kernel.kfree, hp]
    rw [BlockHeap.copy_into hpne hblock (by omega) (by simp),
        BlockHeap.copy_into hmne hbytes hlen
          (by rw [BlockHeap.length_splice (by simp [hpart])]; simp),
        List.drop_zero, ← hpart, List.take_length,
        BlockHeap.splice_splice (by simp [hpart, hseg])]
    have hfreed : Function.update k.heap.block k.heap.next
        (some (k.view.part ++ (bytes.drop start).take len)) p = some k.view.part := by
      rw [Function.update_of_ne hpne, hblock]
    rw [BlockHeap.free_live hfreed]
    simp only [Kernel.grown, Kernel.partialFreed, hp, List.length_append, hseg,
               Function.update_comm hpne.symm]

end Extend

theorem AesdDev.refs_eq (dev : AesdDev) :
    dev.refs = dev.cBuffer.entry.filterMap AesdBufferEntry.buffptr
      ++ dev.partialBuffer.buffptr.toList := by
  cases h : dev.partialBuffer.buffptr <;> simp [refs, buffers, h]

/-- The partial buffer's block, released, leaves those of the frame and the ring. -/
theorem Kernel.Owned.free_partial {k : Kernel} {frame : List Nat} (h : k.Owned frame) :
    BlockHeap.Owns { k.heap with block := k.partialFreed }
      (frame ++ k.dev.cBuffer.entry.filterMap AesdBufferEntry.buffptr) := by
  have howns := h.owns
  rw [AesdDev.refs_eq] at howns
  cases hp : k.dev.partialBuffer.buffptr with
  | none => simpa [partialFreed, hp] using howns
  | some p =>
    rw [hp, Option.toList_some, ← List.append_assoc] at howns
    have hfree := (howns.perm (List.perm_append_singleton p _)).free
    rw [BlockHeap.free_live (h.backed_partial.block hp)] at hfree
    simpa [partialFreed, hp] using hfree

theorem Kernel.Owned.grown_block {k : Kernel} {frame : List Nat} (h : k.Owned frame)
    (bytes : List UInt8) {id : Nat}
    (hid : id ∈ frame ++ k.dev.cBuffer.entry.filterMap AesdBufferEntry.buffptr) :
    (k.grown bytes).heap.block id = k.heap.block id := by
  have hnext : id ≠ k.heap.next := fun e => h.free_partial.next_not_live (e ▸ hid)
  show Function.update k.partialFreed k.heap.next (some bytes) id = _
  rw [Function.update_of_ne hnext]
  have hnd := h.owns.nodup
  rw [AesdDev.refs_eq, ← List.append_assoc] at hnd
  cases hp : k.dev.partialBuffer.buffptr with
  | none => simp [partialFreed, hp]
  | some p =>
    have hne : id ≠ p := fun e =>
      (List.nodup_append.mp hnd).2.2 id hid p (by simp [hp]) e
    simp [partialFreed, hp, hne]

theorem Kernel.Owned.grown {k : Kernel} {frame : List Nat} (h : k.Owned frame)
    {bytes : List UInt8} (hne : bytes ≠ []) : (k.grown bytes).Owned frame where
  ring := h.ring
  owns := by
    have hins := h.free_partial.insert bytes
    refine hins.perm ?_
    rw [AesdDev.refs_eq, ← List.append_assoc]
    exact (List.perm_append_singleton _ _).symm
  backed := by
    intro e he
    rcases List.mem_append.mp he with he | he
    · refine (h.backed e (List.mem_append_left _ he)).congr fun id hid => ?_
      exact h.grown_block bytes
        (List.mem_append_right _ (List.mem_filterMap.mpr ⟨e, he, hid⟩))
    · rw [List.mem_singleton.mp he]
      exact ⟨bytes, Function.update_self .., rfl, List.length_pos_iff.mpr hne⟩

theorem Kernel.Owned.view_grown {k : Kernel} {frame : List Nat} (h : k.Owned frame)
    (bytes : List UInt8) : (k.grown bytes).view = ⟨k.view.lines, bytes⟩ := by
  have hlines : (k.grown bytes).view.lines = k.view.lines := by
    apply List.map_congr_left
    intro e he
    refine AesdBufferEntry.content_congr fun id hid => ?_
    exact h.grown_block bytes (List.mem_append_right _
      (List.mem_filterMap.mpr ⟨e, h.ring.mem_entry he, hid⟩))
  have hpart : (k.grown bytes).view.part = bytes := by
    simp [view, Kernel.grown, AesdBufferEntry.content]
  exact congrArg₂ Device.mk hlines hpart

/-! ## Committing the partial line -/

/-- The entry `add_entry` is about to overwrite; a zero entry before the
ring is full. -/
def AesdCircularBuffer.victim (buffer : AesdCircularBuffer) : AesdBufferEntry :=
  buffer.slot buffer.inOffs

/-- What committing does, whether or not the ring was full: freeing the
null pointer of a free slot does nothing. -/
theorem commitPartial_eq {k : Kernel} {frame : List Nat} (h : k.Owned frame) :
    commitPartial k
      = { heap := k.heap.free k.dev.cBuffer.victim.buffptr
          dev := { k.dev with
            cBuffer := (aesdCircularBufferAddEntry k.dev.cBuffer k.dev.partialBuffer).2
            partialBuffer := .zero } } := by
  unfold commitPartial
  cases hf : k.dev.cBuffer.full with
  | true =>
    rw [addEntry_full h.ring hf]
    rfl
  | false =>
    have hz : k.dev.cBuffer.victim = .zero :=
      h.ring.notFull_zero hf _ (Nat.le_refl _) h.ring.inOffs_lt
    rw [addEntry_notFull h.ring hf, hz]
    rfl

/-- Every buffer held before is either freed or still held. -/
theorem refs_commit_perm {k : Kernel} {frame : List Nat} (h : k.Owned frame) :
    (frame ++ k.dev.refs).Perm
      (k.dev.cBuffer.victim.buffptr.toList ++ (frame ++ (commitPartial k).dev.refs)) := by
  have hlt : k.dev.cBuffer.inOffs < k.dev.cBuffer.entry.length := by
    rw [h.ring.length]; exact h.ring.inOffs_lt
  have hvictim : k.dev.cBuffer.victim = k.dev.cBuffer.entry[k.dev.cBuffer.inOffs] :=
    List.getD_eq_getElem _ _ hlt
  have hold := (List.getElem_cons_eraseIdx_perm hlt).filterMap AesdBufferEntry.buffptr
  have hnew := (List.set_perm_cons_eraseIdx hlt k.dev.partialBuffer).filterMap
    AesdBufferEntry.buffptr
  rw [← hvictim] at hold
  rw [commitPartial_eq h, AesdDev.refs_eq, AesdDev.refs_eq]
  show List.Perm _ (_ ++ (_ ++ (List.filterMap _ (k.dev.cBuffer.entry.set _ _) ++ [])))
  rw [List.perm_iff_count] at hold hnew ⊢
  intro id
  have hold' := hold id
  have hnew' := hnew id
  have hcons : ∀ (e : AesdBufferEntry) (l : List AesdBufferEntry),
      (e :: l).filterMap AesdBufferEntry.buffptr
        = e.buffptr.toList ++ l.filterMap AesdBufferEntry.buffptr := by
    intro e l
    cases he : e.buffptr <;> simp [he]
  simp only [hcons, List.count_append] at hold' hnew' ⊢
  simp only [List.count_nil]
  omega

/-- The block of an entry that is still held is untouched. -/
theorem Kernel.Owned.commit_block {k : Kernel} {frame : List Nat} (h : k.Owned frame)
    {id : Nat} (hid : id ∈ frame ++ (commitPartial k).dev.refs) :
    (commitPartial k).heap.block id = k.heap.block id := by
  rw [commitPartial_eq h]
  have hnd := (refs_commit_perm h).nodup_iff.mp h.owns.nodup
  cases hv : k.dev.cBuffer.victim.buffptr with
  | none => rfl
  | some v =>
    have hne : id ≠ v := fun e =>
      (List.nodup_append.mp hnd).2.2 v (by simp [hv]) id hid e.symm
    have hlive := (h.backed_slot h.ring.inOffs_lt).block hv
    rw [BlockHeap.free_live hlive]
    exact Function.update_of_ne hne _ _

/-- Every entry after the commit is one of those before it, or null. -/
theorem mem_buffers_commit {k : Kernel} {frame : List Nat} (h : k.Owned frame)
    {e : AesdBufferEntry} (he : e ∈ (commitPartial k).dev.buffers) :
    e ∈ k.dev.buffers ∨ e = .zero := by
  rw [commitPartial_eq h] at he
  rcases List.mem_append.mp he with he | he
  · rcases List.mem_or_eq_of_mem_set he with he | he
    · exact Or.inl (List.mem_append_left _ he)
    · exact Or.inl (he ▸ k.dev.partial_mem_buffers)
  · exact Or.inr (List.mem_singleton.mp he)

theorem Kernel.Owned.commit {k : Kernel} {frame : List Nat} (h : k.Owned frame) :
    (commitPartial k).Owned frame where
  ring := by rw [commitPartial_eq h]; exact wellFormed_addEntry h.ring _
  owns := by
    have howns := h.owns.perm (refs_commit_perm h)
    rw [show (commitPartial k).heap = k.heap.free k.dev.cBuffer.victim.buffptr by
      rw [commitPartial_eq h]]
    cases hv : k.dev.cBuffer.victim.buffptr with
    | none => rwa [hv] at howns
    | some v =>
      rw [hv] at howns
      exact howns.free
  backed := by
    intro e he
    rcases mem_buffers_commit h he with hold | rfl
    · exact (h.backed e hold).congr fun id hid =>
        h.commit_block (List.mem_append_right _ (AesdDev.mem_refs he hid))
    · exact AesdBufferEntry.backed_zero _

theorem Kernel.Owned.fromOldest_commit {k : Kernel} {frame : List Nat} (h : k.Owned frame) :
    (commitPartial k).dev.cBuffer.fromOldest
      = Fifo.push 10 k.dev.cBuffer.fromOldest k.dev.partialBuffer := by
  rw [commitPartial_eq h]; exact fromOldest_addEntry h.ring _

/-- **Committing pushes the partial line** and starts an empty one. -/
theorem Kernel.Owned.view_commit {k : Kernel} {frame : List Nat} (h : k.Owned frame) :
    (commitPartial k).view = ⟨Fifo.push 10 k.view.lines k.view.part, []⟩ := by
  have hpart : (commitPartial k).view.part = [] := by
    rw [Kernel.view, commitPartial_eq h]; rfl
  have hlines : (commitPartial k).view.lines = Fifo.push 10 k.view.lines k.view.part := by
    show (commitPartial k).dev.cBuffer.fromOldest.map _ = _
    simp only [view, ← Fifo.map_push, ← h.fromOldest_commit]
    apply List.map_congr_left
    intro e he
    refine AesdBufferEntry.content_congr fun id hid => h.commit_block ?_
    exact List.mem_append_right _
      (AesdDev.mem_refs (List.mem_append_left _ (h.commit.ring.mem_entry he)) hid)
  exact congrArg₂ Device.mk hlines hpart

end Aesd.Driver

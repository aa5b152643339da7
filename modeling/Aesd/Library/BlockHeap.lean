/-
Aesd.Library.BlockHeap — a heap of separately allocated blocks, with the
misuses of it on record.

A block is named by its allocation, never by an address, and its name is
not used again. The operations are total: a misuse (freeing a block that is
not live, an access outside a block) changes no block and is added to
`faults`, so "no misuse ever happens" is the statement `faults = []` about
a run.

`Owns h refs` says that the live blocks of `h` are exactly those named in
`refs`, each named once, and that nothing was misused so far. Every
operation has one rule that carries `Owns` across it; a client keeps the
list of the references it holds and applies these rules.
-/
import Mathlib.Data.List.Perm.Basic
import Mathlib.Logic.Function.Basic

/-- What can go wrong with a block. -/
inductive BlockHeap.Fault where
  | badFree (id : Nat)
  | outOfBounds
  deriving DecidableEq, Repr

/-- Blocks of `β`, by allocation; a block's length is its allocated size. -/
structure BlockHeap (β : Type*) where
  block : Nat → Option (List β)
  next : Nat
  faults : List BlockHeap.Fault

namespace BlockHeap

variable {β : Type*}

/-- No block, no fault. -/
def empty : BlockHeap β := ⟨fun _ => none, 0, []⟩

/-! ## Operations -/

/-- Request `n` units. The answer is either a refusal or the contents the
fresh block happens to have. Every request uses up one name. -/
def alloc (answer : Option (Nat → β)) (n : Nat) (h : BlockHeap β) :
    Option Nat × BlockHeap β :=
  match answer with
  | none => (none, { h with next := h.next + 1 })
  | some g =>
    (some h.next,
      { h with
        block := Function.update h.block h.next (some ((List.range n).map g))
        next := h.next + 1 })

/-- Release a block; releasing the null pointer does nothing. -/
def free (p : Option Nat) (h : BlockHeap β) : BlockHeap β :=
  match p with
  | none => h
  | some id =>
    match h.block id with
    | none => { h with faults := .badFree id :: h.faults }
    | some _ => { h with block := Function.update h.block id none }

/-- Overwrite part of a block's contents. -/
def splice (bs : List β) (off : Nat) (src : List β) : List β :=
  bs.take off ++ src ++ bs.drop (off + src.length)

/-- Read `n` units from `off` on, if they lie inside the block. -/
def load (p : Option Nat) (off n : Nat) (h : BlockHeap β) : Option (List β) :=
  match p.bind h.block with
  | none => none
  | some bs => if off + n ≤ bs.length then some ((bs.drop off).take n) else none

/-- Write `src` from `off` on. -/
def store (p : Option Nat) (off : Nat) (src : List β) (h : BlockHeap β) : BlockHeap β :=
  match p with
  | none => { h with faults := .outOfBounds :: h.faults }
  | some id =>
    match h.block id with
    | none => { h with faults := .outOfBounds :: h.faults }
    | some bs =>
      if off + src.length ≤ bs.length then
        { h with block := Function.update h.block id (some (splice bs off src)) }
      else { h with faults := .outOfBounds :: h.faults }

/-- The first `n` units of a block; those behind its end are what they happen
to be. -/
def resize (fresh : Nat → β) (n : Nat) (bs : List β) : List β :=
  (List.range n).map fun k => bs[k]?.getD (fresh k)

/-- Give a block another size, where it is or in a new block. The answer is
the name that the block has then; the old one is not live any more. -/
def realloc (moves : Bool) (fresh : Nat → β) (n id : Nat) (h : BlockHeap β) : Nat × BlockHeap β :=
  match h.block id with
  | none => (id, { h with faults := .badFree id :: h.faults })
  | some bs =>
    if moves then
      (h.next,
        { h with
          block := Function.update (Function.update h.block id none) h.next
            (some (resize fresh n bs))
          next := h.next + 1 })
    else (id, { h with block := Function.update h.block id (some (resize fresh n bs)) })

/-- Copy `n` units from one block to another. -/
def copy (dst : Option Nat) (dstOff : Nat) (src : Option Nat) (srcOff n : Nat)
    (h : BlockHeap β) : BlockHeap β :=
  match load src srcOff n h with
  | none => { h with faults := .outOfBounds :: h.faults }
  | some bytes => store dst dstOff bytes h

/-! ## Faults stay on record -/

theorem faults_free (p : Option Nat) (h : BlockHeap β) : h.faults <:+ (h.free p).faults := by
  unfold free
  split
  · exact List.suffix_rfl
  · split
    · exact List.suffix_cons ..
    · exact List.suffix_rfl

theorem faults_store (p : Option Nat) (off : Nat) (src : List β) (h : BlockHeap β) :
    h.faults <:+ (h.store p off src).faults := by
  unfold store
  split
  · exact List.suffix_cons ..
  · split
    · exact List.suffix_cons ..
    · split
      · exact List.suffix_rfl
      · exact List.suffix_cons ..

theorem faults_copy (dst : Option Nat) (dstOff : Nat) (src : Option Nat) (srcOff n : Nat)
    (h : BlockHeap β) : h.faults <:+ (h.copy dst dstOff src srcOff n).faults := by
  unfold copy
  split
  · exact List.suffix_cons ..
  · exact faults_store ..

/-! ## The operations on live blocks -/

theorem length_splice {bs : List β} {off : Nat} {src : List β}
    (h : off + src.length ≤ bs.length) : (splice bs off src).length = bs.length := by
  simp only [splice, List.length_append, List.length_take, List.length_drop]
  omega

/-- Writing a prefix and then exactly the remaining part replaces the
whole contents. -/
theorem splice_splice {bs a b : List β} (h : a.length + b.length = bs.length) :
    splice (splice bs 0 a) a.length b = a ++ b := by
  simp only [splice, List.take_zero, List.nil_append, Nat.zero_add]
  rw [List.take_append_of_le_length (Nat.le_refl _), List.take_length,
      List.drop_eq_nil_of_le]
  · simp
  · simp only [List.length_append, List.length_drop]; omega

/-- What lies behind the part overwritten stays. -/
theorem getElem?_splice_of_le {bs src : List β} {off i : Nat}
    (h : off + src.length ≤ bs.length) (hi : off + src.length ≤ i) :
    (splice bs off src)[i]? = bs[i]? := by
  have hlen : (bs.take off ++ src).length = off + src.length := by
    rw [List.length_append, List.length_take, Nat.min_eq_left (by omega)]
  rw [splice, List.getElem?_append_right (by omega), hlen, List.getElem?_drop]
  congr 1
  omega

theorem splice_all {bs src : List β} (h : src.length = bs.length) :
    splice bs 0 src = src := by
  simp [splice, h]

theorem load_live {h : BlockHeap β} {id off n : Nat} {bs : List β}
    (hb : h.block id = some bs) (hn : off + n ≤ bs.length) :
    load (some id) off n h = some ((bs.drop off).take n) := by
  simp [load, hb, hn]

theorem store_live {h : BlockHeap β} {id off : Nat} {bs src : List β}
    (hb : h.block id = some bs) (hn : off + src.length ≤ bs.length) :
    store (some id) off src h
      = { h with block := Function.update h.block id (some (splice bs off src)) } := by
  simp [store, hb, hn]

theorem copy_live {h : BlockHeap β} {dst dstOff src srcOff n : Nat} {bs ss : List β}
    (hd : h.block dst = some bs) (hs : h.block src = some ss)
    (hsn : srcOff + n ≤ ss.length) (hdn : dstOff + n ≤ bs.length) :
    copy (some dst) dstOff (some src) srcOff n h
      = { h with block :=
            Function.update h.block dst (some (splice bs dstOff ((ss.drop srcOff).take n))) } := by
  have hlen : ((ss.drop srcOff).take n).length = n := by
    rw [List.length_take, List.length_drop]; omega
  rw [copy, load_live hs hsn]
  exact store_live hd (by rw [hlen]; exact hdn)

/-- Copying into a block that was just given the contents `bs`. -/
theorem copy_into {h : BlockHeap β} {dst dstOff src srcOff n m : Nat} {bs ss : List β}
    (hne : src ≠ dst) (hs : h.block src = some ss) (hsn : srcOff + n ≤ ss.length)
    (hdn : dstOff + n ≤ bs.length) :
    copy (some dst) dstOff (some src) srcOff n
        { h with block := Function.update h.block dst (some bs), next := m }
      = { h with
          block := Function.update h.block dst
            (some (splice bs dstOff ((ss.drop srcOff).take n)))
          next := m } := by
  have hdst : Function.update h.block dst (some bs) dst = some bs := Function.update_self ..
  have hsrc : Function.update h.block dst (some bs) src = some ss := by
    rw [Function.update_of_ne hne, hs]
  rw [copy_live hdst hsrc hsn hdn]
  simp only [Function.update_idem]

theorem free_live {h : BlockHeap β} {id : Nat} {bs : List β} (hb : h.block id = some bs) :
    free (some id) h = { h with block := Function.update h.block id none } := by
  simp [free, hb]

/-- Releasing uses up no name. -/
@[simp] theorem next_free (p : Option Nat) (h : BlockHeap β) : (free p h).next = h.next := by
  unfold free
  split
  · rfl
  · split <;> rfl

/-! ## Ownership -/

/-- The live blocks are exactly those in `refs`, each held once, and there
was no misuse. -/
structure Owns (h : BlockHeap β) (refs : List Nat) : Prop where
  nodup : refs.Nodup
  live : ∀ id, (h.block id).isSome ↔ id ∈ refs
  fresh : ∀ id ∈ refs, id < h.next
  faults : h.faults = []

theorem owns_empty : Owns (empty : BlockHeap β) [] :=
  ⟨List.nodup_nil, fun id => by simp [empty], fun id hid => absurd hid (by simp), rfl⟩

theorem Owns.perm {h : BlockHeap β} {refs refs' : List Nat} (ho : Owns h refs)
    (hp : refs.Perm refs') : Owns h refs' :=
  ⟨hp.nodup_iff.mp ho.nodup, fun id => (ho.live id).trans hp.mem_iff,
   fun id hid => ho.fresh id (hp.mem_iff.mpr hid), ho.faults⟩

theorem Owns.next_not_live {h : BlockHeap β} {refs : List Nat} (ho : Owns h refs) :
    h.next ∉ refs := fun hm => absurd (ho.fresh _ hm) (Nat.lt_irrefl _)

/-- A refused request changes nothing but the name counter. -/
theorem Owns.bump {h : BlockHeap β} {refs : List Nat} (ho : Owns h refs) :
    Owns { h with next := h.next + 1 } refs :=
  ⟨ho.nodup, ho.live, fun id hid => Nat.lt_succ_of_lt (ho.fresh id hid), ho.faults⟩

/-- A fresh block, with whatever contents, is added to the owned ones. -/
theorem Owns.insert {h : BlockHeap β} {refs : List Nat} (ho : Owns h refs) (bs : List β) :
    Owns { h with block := Function.update h.block h.next (some bs), next := h.next + 1 }
      (h.next :: refs) := by
  refine ⟨List.nodup_cons.mpr ⟨ho.next_not_live, ho.nodup⟩, fun id => ?_, fun id hid => ?_,
    ho.faults⟩
  · by_cases hid : id = h.next
    · simp [hid]
    · simp [ho.live id, hid]
  · rcases List.mem_cons.mp hid with rfl | hid
    · exact Nat.lt_succ_self _
    · exact Nat.lt_succ_of_lt (ho.fresh id hid)

/-- Releasing a held block gives it up. -/
theorem Owns.free {h : BlockHeap β} {refs : List Nat} {id : Nat}
    (ho : Owns h (id :: refs)) : Owns (free (some id) h) refs := by
  obtain ⟨bs, hbs⟩ := Option.isSome_iff_exists.mp ((ho.live id).mpr (List.mem_cons_self ..))
  obtain ⟨hnot, hnd⟩ := List.nodup_cons.mp ho.nodup
  rw [free_live hbs]
  refine ⟨hnd, fun j => ?_, fun j hj => ho.fresh j (List.mem_cons_of_mem _ hj), ho.faults⟩
  by_cases hj : j = id
  · simp [hj, hnot]
  · simp [hj, ho.live j]

/-! ## One block -/

theorem length_resize (fresh : Nat → β) (n : Nat) (bs : List β) :
    (resize fresh n bs).length = n := by
  simp [resize]

/-- What fits into the new size stays. -/
theorem exists_resize (fresh : Nat → β) {n : Nat} {front : List β} (h : front.length ≤ n)
    (back : List β) : ∃ rest, resize fresh n (front ++ back) = front ++ rest := by
  refine ⟨(resize fresh n (front ++ back)).drop front.length, ?_⟩
  have htake : (resize fresh n (front ++ back)).take front.length = front := by
    apply List.ext_getElem
    · rw [List.length_take, length_resize, Nat.min_eq_left h]
    · intro k hk hk'
      simp [resize, List.getElem?_append_left hk', List.getElem?_eq_getElem hk']
  calc resize fresh n (front ++ back)
      = (resize fresh n (front ++ back)).take front.length
          ++ (resize fresh n (front ++ back)).drop front.length := (List.take_append_drop ..).symm
    _ = front ++ (resize fresh n (front ++ back)).drop front.length := by rw [htake]

/-- `id` is the only live block and holds `bs`. -/
structure Sole (h : BlockHeap β) (id : Nat) (bs : List β) : Prop where
  self : h.block id = some bs
  other : ∀ j, j ≠ id → h.block j = none
  fresh : id < h.next

variable {h : BlockHeap β} {id : Nat} {bs : List β}

/-- In place. -/
theorem Sole.realloc_stays (hs : Sole h id bs) (fresh : Nat → β) (n : Nat) :
    h.realloc false fresh n id
      = (id, { h with block := Function.update h.block id (some (resize fresh n bs)) }) := by
  rw [BlockHeap.realloc, hs.self]
  rfl

theorem Sole.realloc_moves (hs : Sole h id bs) (fresh : Nat → β) (n : Nat) :
    h.realloc true fresh n id
      = (h.next,
          { h with
            block := Function.update (Function.update h.block id none) h.next
              (some (resize fresh n bs))
            next := h.next + 1 }) := by
  rw [BlockHeap.realloc, hs.self]
  rfl

/-- Either way there is one block, of the new size, and no misuse. -/
theorem Sole.realloc (hs : Sole h id bs) (moves : Bool) (fresh : Nat → β) (n : Nat) :
    Sole (h.realloc moves fresh n id).2 (h.realloc moves fresh n id).1 (resize fresh n bs) ∧
      (h.realloc moves fresh n id).2.faults = h.faults ∧
      h.next ≤ (h.realloc moves fresh n id).2.next := by
  cases moves with
  | false =>
    rw [hs.realloc_stays]
    refine ⟨⟨Function.update_self .., fun j hj => ?_, hs.fresh⟩, rfl, Nat.le_refl _⟩
    exact (Function.update_of_ne hj ..).trans (hs.other j hj)
  | true =>
    rw [hs.realloc_moves]
    refine ⟨⟨Function.update_self .., fun j hj => ?_, Nat.lt_succ_self _⟩, rfl, Nat.le_succ _⟩
    refine (Function.update_of_ne hj ..).trans ?_
    by_cases hid : j = id
    · rw [hid, Function.update_self]
    · rw [Function.update_of_ne hid, hs.other j hid]

theorem Sole.store (hs : Sole h id bs) {off : Nat} {src : List β}
    (hfits : off + src.length ≤ bs.length) :
    Sole (h.store (some id) off src) id (splice bs off src) := by
  rw [store_live hs.self hfits]
  exact ⟨Function.update_self .., fun j hj => (Function.update_of_ne hj ..).trans (hs.other j hj),
    hs.fresh⟩

/-- A store that reaches over the end is a misuse and no store. -/
theorem Sole.store_of_lt (hs : Sole h id bs) {off : Nat} {src : List β}
    (hlt : bs.length < off + src.length) :
    h.store (some id) off src = { h with faults := .outOfBounds :: h.faults } := by
  rw [BlockHeap.store, hs.self]
  exact if_neg (Nat.not_le.mpr hlt)

end BlockHeap

/-
Aesd.Driver.WriteRuns — what the device holds after any run of writes, and
what a failed write leaves behind.

* `aesdWrites_stream`: after a run from `aesd_init_module` the device is what
  it would be after reading one byte stream, made of the whole buffers of
  the writes that succeeded and, for each write that failed, of the lines it
  had stored before it failed. Where nothing that the writes meet fails each
  returns its count, and only the bytes matter, not how they are cut.
* `aesdWrite_failed_unchanged_iff`: a failed write leaves the device as it was,
  except when an allocation is refused after the first line of the same
  write has been stored: then that line stays and the caller is told that
  nothing was written.
-/
import Aesd.Driver.Calls

namespace Aesd.Driver

/-! ## Runs of writes -/

/-- The return values of a run of writes and the state it leaves. -/
def aesdWrites : List WriteCall → Kernel → List Int × Kernel
  | [], k => ([], k)
  | c :: cs, k =>
    let (ret, k) := c.run k
    let (rets, k) := aesdWrites cs k
    (ret :: rets, k)

/-- The part of its bytes that a write put into the stream: all of them, or
after an error a prefix that ends with a line. -/
def Accepted (c : WriteCall) (ret : Int) (piece : List UInt8) : Prop :=
  ret = c.buf.length ∧ piece = c.buf ∨
    ret < 0 ∧ piece <+: c.buf ∧ (piece = [] ∨ ∃ t, piece = t ++ [endCharacter])

/-- One write feeds the device the part of its bytes it accepted. -/
theorem aesdWrite_accepted (c : WriteCall) {k : Kernel} (h : k.Owned []) :
    ∃ piece, Accepted c (c.run k).1 piece ∧ (c.run k).2.view = k.view.feed piece := by
  have hout := aesdWrite_outcome c h
  refine ⟨(c.segs.take (c.stored k)).flatten, ?_, hout.view⟩
  by_cases hs : c.Succeeds k
  · refine Or.inl ⟨hout.ret_ok hs, ?_⟩
    rcases hs with hnil | ⟨_, hall⟩
    · simp [WriteCall.segs, hnil, Delimited.segments, Delimited.lines, Delimited.rest,
            Delimited.split]
    · rw [hall, List.take_length]
      exact Delimited.flatten_segments _ _
  · refine Or.inr ⟨hout.ret_err hs, Delimited.flatten_take_segments_prefix _ _ _, ?_⟩
    by_cases hlt : c.stored k < c.segs.length
    · exact Delimited.flatten_take_segments _ _ hlt
    · refine Or.inl ?_
      have hno : ¬ c.Arrives k := fun ha => hs (Or.inr ⟨ha, by
        have := c.stored_le k
        omega⟩)
      rw [WriteCall.stored, if_neg hno]
      rfl

/-- A run of writes feeds the device the accepted parts, in order. -/
theorem aesdWrites_accepted (cs : List WriteCall) {k : Kernel} (h : k.Owned []) :
    ∃ pieces, List.Forall₂ (fun call piece => Accepted call.1 call.2 piece)
        (cs.zip (aesdWrites cs k).1) pieces ∧
      (aesdWrites cs k).2.view = k.view.feed pieces.flatten := by
  induction cs generalizing k with
  | nil => exact ⟨[], List.Forall₂.nil, rfl⟩
  | cons c cs ih =>
    obtain ⟨piece, hacc, hview⟩ := aesdWrite_accepted c h
    obtain ⟨pieces, hall, hviews⟩ := ih (aesdWrite_outcome c h).owned
    refine ⟨piece :: pieces, List.Forall₂.cons hacc hall, ?_⟩
    show (aesdWrites cs (c.run k).2).2.view = _
    rw [hviews, hview, List.flatten_cons, Device.feed_append]

/-- When no write fails, the stream is what was written. -/
theorem flatten_accepted (cs : List WriteCall) {rets : List Int} {pieces : List (List UInt8)}
    (hlen : rets.length = cs.length)
    (hacc : List.Forall₂ (fun call piece => Accepted call.1 call.2 piece) (cs.zip rets) pieces)
    (hok : ∀ ret ∈ rets, 0 ≤ ret) :
    pieces.flatten = (cs.map WriteCall.buf).flatten := by
  induction cs generalizing rets pieces with
  | nil =>
    simp only [List.zip_nil_left, List.forall₂_nil_left_iff] at hacc
    rw [hacc]; rfl
  | cons c cs ih =>
    cases rets with
    | nil => simp at hlen
    | cons ret rets =>
      rw [List.zip_cons_cons, List.forall₂_cons_left_iff] at hacc
      obtain ⟨piece, pieces', hpiece, hrest, rfl⟩ := hacc
      have hnonneg := hok ret (List.mem_cons_self ..)
      rcases hpiece with ⟨_, rfl⟩ | ⟨hneg, _, _⟩
      · simp [ih (by simpa using hlen) hrest
          (fun r hr => hok r (List.mem_cons_of_mem _ hr))]
      · omega

theorem length_rets (cs : List WriteCall) (k : Kernel) :
    (aesdWrites cs k).1.length = cs.length := by
  induction cs generalizing k with
  | nil => rfl
  | cons c cs ih =>
    show ((c.run k).1 :: (aesdWrites cs (c.run k).2).1).length = _
    simp [ih]

/-- Writes that meet no failure return their counts. -/
theorem rets_of_unhindered {cs : List WriteCall} (hcs : ∀ c ∈ cs, c.Unhindered) {k : Kernel}
    (h : k.Owned []) : (aesdWrites cs k).1 = cs.map fun c => (c.buf.length : Int) := by
  induction cs generalizing k with
  | nil => rfl
  | cons c cs ih =>
    obtain ⟨hc, hcs⟩ := List.forall_mem_cons.mp hcs
    have hout := aesdWrite_outcome c h
    show (c.run k).1 :: (aesdWrites cs (c.run k).2).1 = _
    rw [hout.ret_ok (hc.succeeds k), ih hcs hout.owned, List.map_cons]

/-- **The device is the reference state of one byte stream.** -/
theorem aesdWrites_stream (cs : List WriteCall) :
    (∃ pieces, List.Forall₂ (fun call piece => Accepted call.1 call.2 piece)
        (cs.zip (aesdWrites cs aesdInitModule).1) pieces ∧
      (aesdWrites cs aesdInitModule).2.view.lines
        = (Delimited.lines endCharacter pieces.flatten).rtake 10 ∧
      (aesdWrites cs aesdInitModule).2.view.part
        = Delimited.rest endCharacter pieces.flatten) ∧
    (∀ cs' : List WriteCall,
      (∀ ret ∈ (aesdWrites cs aesdInitModule).1, 0 ≤ ret) →
      (∀ ret ∈ (aesdWrites cs' aesdInitModule).1, 0 ≤ ret) →
      (cs.map WriteCall.buf).flatten = (cs'.map WriteCall.buf).flatten →
      (aesdWrites cs aesdInitModule).2.view = (aesdWrites cs' aesdInitModule).2.view) ∧
    ∀ cs' : List WriteCall, (∀ c ∈ cs, c.Unhindered) → (∀ c ∈ cs', c.Unhindered) →
      (cs.map WriteCall.buf).flatten = (cs'.map WriteCall.buf).flatten →
      (aesdWrites cs aesdInitModule).1 = cs.map (fun c => (c.buf.length : Int)) ∧
      (aesdWrites cs' aesdInitModule).1 = cs'.map (fun c => (c.buf.length : Int)) ∧
      (aesdWrites cs aesdInitModule).2.view = (aesdWrites cs' aesdInitModule).2.view := by
  obtain ⟨pieces, hacc, hview⟩ := aesdWrites_accepted cs owned_init
  have hsplit : ∀ cs' : List WriteCall,
      (∀ ret ∈ (aesdWrites cs aesdInitModule).1, 0 ≤ ret) →
      (∀ ret ∈ (aesdWrites cs' aesdInitModule).1, 0 ≤ ret) →
      (cs.map WriteCall.buf).flatten = (cs'.map WriteCall.buf).flatten →
      (aesdWrites cs aesdInitModule).2.view = (aesdWrites cs' aesdInitModule).2.view := by
    intro cs' hok hok' hsame
    obtain ⟨pieces', hacc', hview'⟩ := aesdWrites_accepted cs' owned_init
    rw [hview, hview', flatten_accepted cs (length_rets cs _) hacc hok,
        flatten_accepted cs' (length_rets cs' _) hacc' hok', hsame]
  refine ⟨⟨pieces, hacc, ?_, ?_⟩, hsplit, fun cs' hcs hcs' hsame => ?_⟩
  · rw [hview, view_init]
    exact congrArg Device.lines (Device.feed_empty _)
  · rw [hview, view_init]
    exact congrArg Device.part (Device.feed_empty _)
  · have hrets := rets_of_unhindered hcs owned_init
    have hrets' := rets_of_unhindered hcs' owned_init
    refine ⟨hrets, hrets', hsplit cs' ?_ ?_ hsame⟩
    · rw [hrets]
      exact List.forall_mem_map.mpr fun c _ => Int.natCast_nonneg _
    · rw [hrets']
      exact List.forall_mem_map.mpr fun c _ => Int.natCast_nonneg _

/-- A write that meets no failure. -/
def WriteCall.plain (buf : List UInt8) : WriteCall := ⟨fun _ _ => some fun _ => 0, .ok, buf⟩

theorem WriteCall.unhindered_plain (buf : List UInt8) : (WriteCall.plain buf).Unhindered :=
  ⟨rfl, rfl, fun _ _ => Option.some_ne_none _⟩

/-- `"a\nb"`, in one write and in two. -/
theorem aesdWrites_stream_two_chunkings :
    (aesdWrites [.plain [97, endCharacter, 98]] aesdInitModule).1 = [3] ∧
      (aesdWrites [.plain [97], .plain [endCharacter, 98]] aesdInitModule).1 = [1, 2] ∧
      (aesdWrites [.plain [97, endCharacter, 98]] aesdInitModule).2.view
        = (aesdWrites [.plain [97], .plain [endCharacter, 98]] aesdInitModule).2.view :=
  (aesdWrites_stream [.plain [97, endCharacter, 98]]).2.2
    [.plain [97], .plain [endCharacter, 98]]
    (by simp [WriteCall.unhindered_plain]) (by simp [WriteCall.unhindered_plain]) rfl

/-! ## Failed writes -/

/-- The ring and what the device holds are the same. -/
def SameStore (k k' : Kernel) : Prop := k'.dev.cBuffer = k.dev.cBuffer ∧ k'.view = k.view

/-- The allocation of the first segment is granted and that of a later one
is refused. The requests are numbered from the one after the temporary
buffer's. -/
def WriteCall.RefusedAfterLine (c : WriteCall) (k : Kernel) : Prop :=
  c.Arrives k ∧
    (∃ n, (requests k.dev.partialBuffer.size c.segs)[0]? = some n ∧
      c.kmalloc (k.heap.next + 1) n ≠ none) ∧
    ∃ i n, 0 < i ∧ (requests k.dev.partialBuffer.size c.segs)[i]? = some n ∧
      c.kmalloc (k.heap.next + 1 + i) n = none

theorem Kmalloc.granted_pos_iff (kmalloc : Kmalloc) (i : Nat) (ns : List Nat) :
    0 < kmalloc.granted i ns ↔ ∃ n, ns[0]? = some n ∧ kmalloc i n ≠ none := by
  cases ns with
  | nil => simp [granted]
  | cons n ns => cases hg : kmalloc i n <;> simp [granted, hg]

theorem Kmalloc.granted_lt_iff (kmalloc : Kmalloc) (i : Nat) (ns : List Nat) :
    kmalloc.granted i ns < ns.length ↔
      ∃ j n, ns[j]? = some n ∧ kmalloc (i + j) n = none := by
  induction ns generalizing i with
  | nil => simp [granted]
  | cons n ns ih =>
    cases hg : kmalloc i n with
    | none => simpa [granted, hg] using ⟨0, n, rfl, hg⟩
    | some g =>
      simp only [granted, hg, List.length_cons, Nat.add_lt_add_iff_right, ih (i + 1)]
      constructor
      · rintro ⟨j, m, hj, hm⟩
        exact ⟨j + 1, m, hj, by rw [← hm]; congr 1; omega⟩
      · rintro ⟨j, m, hj, hm⟩
        cases j with
        | zero =>
          simp only [List.getElem?_cons_zero, Option.some.injEq] at hj
          subst hj
          rw [Nat.add_zero, hg] at hm
          exact absurd hm (by simp)
        | succ j => exact ⟨j, m, hj, by rw [← hm]; congr 1; omega⟩

/-- The condition, counted: some but not all segments are stored. -/
theorem refusedAfterLine_iff (c : WriteCall) (k : Kernel) :
    c.RefusedAfterLine k ↔ 0 < c.stored k ∧ c.stored k < c.segs.length := by
  by_cases ha : c.Arrives k
  · rw [WriteCall.stored, if_pos ha, Kmalloc.granted_pos_iff,
        ← length_requests k.dev.partialBuffer.size c.segs, Kmalloc.granted_lt_iff]
    constructor
    · rintro ⟨_, hfirst, i, n, _, hi, hn⟩
      exact ⟨hfirst, i, n, hi, hn⟩
    · rintro ⟨⟨n0, h0, hg0⟩, i, n, hi, hn⟩
      refine ⟨ha, ⟨n0, h0, hg0⟩, i, n, Nat.pos_of_ne_zero fun hz => ?_, hi, hn⟩
      subst hz
      rw [h0, Option.some.injEq] at hi
      subst hi
      exact hg0 hn
  · rw [WriteCall.stored, if_neg ha]
    exact ⟨fun hr => absurd hr.1 ha, fun hr => absurd hr.1 (Nat.lt_irrefl 0)⟩

/-- A stored line changes the ring: its buffer is new. -/
theorem Kernel.NewestSince.ring_ne {k k' : Kernel} {frame : List Nat} (h : k.Owned frame)
    (hn : k'.NewestSince k.heap.next) : k'.dev.cBuffer ≠ k.dev.cBuffer := by
  intro heq
  obtain ⟨e, he, id, hid, hle⟩ := hn
  rw [heq] at he
  have hlt := h.ref_lt_next
    (List.mem_append_left _ (h.ring.mem_entry (List.mem_of_getLast? he))) hid
  omega

/-- **A failed write leaves the device as it was, except after a stored
line**: exactly when an allocation is refused after the first line of the
call has been stored, the device keeps that line although the call reports
an error. -/
theorem aesdWrite_failed_unchanged_iff (c : WriteCall) {k : Kernel} (h : k.Reachable) :
    ((c.run k).1 < 0 → SameStore k (c.run k).2) ↔ ¬ c.RefusedAfterLine k := by
  have howned := h.idle.owned
  have hout := aesdWrite_outcome c howned
  rw [refusedAfterLine_iff]
  constructor
  · rintro hsame ⟨hpos, hlt⟩
    have hfail : ¬ c.Succeeds k := by
      rintro (hnil | ⟨_, hall⟩)
      · rw [WriteCall.segs, hnil] at hlt
        exact absurd hlt (Nat.not_lt_zero _)
      · omega
    exact (hout.changed hpos hlt).ring_ne howned (hsame (hout.ret_err hfail)).1
  · intro hnot hneg
    have h0 : c.stored k = 0 := by
      by_contra hne
      have hall : c.stored k = c.segs.length := by
        have := c.stored_le k
        omega
      have harr : c.Arrives k := by
        by_contra hna
        exact hne (if_neg hna)
      have := hout.ret_ok (Or.inr ⟨harr, hall⟩)
      omega
    refine ⟨hout.same h0, ?_⟩
    rw [hout.view, h0]
    rfl

/-- Two lines in one write, the buffer of the second refused. -/
def secondLineRefused : WriteCall where
  kmalloc := fun i _ => if i = 2 then none else some (fun _ => 0)
  env := .ok
  buf := [97, endCharacter, 98, endCharacter]

/-- The write reports an error and the first line is stored. -/
theorem aesdWrite_failed_stores_line :
    ¬ ∀ (c : WriteCall) (k : Kernel), k.Reachable →
      (c.run k).1 < 0 → SameStore k (c.run k).2 := by
  intro hall
  have hsame := hall secondLineRefused aesdInitModule reachable_init (by decide)
  exact absurd hsame.1 (by decide)

/-- The same write, on a fresh device. -/
theorem aesdWrite_failed_unchanged_init :
    ((secondLineRefused.run aesdInitModule).1 < 0 →
      SameStore aesdInitModule (secondLineRefused.run aesdInitModule).2) ↔
      ¬ secondLineRefused.RefusedAfterLine aesdInitModule :=
  aesdWrite_failed_unchanged_iff secondLineRefused reachable_init

end Aesd.Driver

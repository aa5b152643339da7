/-
Aesd.Driver.Write — one call of `aesd_write`, completely.

The call first copies the user's bytes to a temporary buffer; until they
have arrived (`WriteCall.Arrives`) it only gives up again. Then it stores
the segments of the bytes, as many as the allocator lets it
(`WriteCall.stored`). `aesdWrite_outcome` says for every exit what is
returned and what the device holds; nothing later looks at the body again.
-/
import Aesd.Driver.Stream

namespace Aesd.Driver

/-! ## The temporary copy -/

/-- The state with the user's bytes copied to a fresh buffer. -/
def Kernel.withTemp (bytes : List UInt8) (k : Kernel) : Kernel :=
  { heap :=
      { k.heap with
        block := Function.update k.heap.block k.heap.next (some bytes)
        next := k.heap.next + 1 }
    dev := { k.dev with lock := true } }

theorem Kernel.Owned.block_next {k : Kernel} {frame : List Nat} (h : k.Owned frame) :
    k.heap.block k.heap.next = none := by
  have hnot := (h.owns.live k.heap.next).not.mpr h.owns.next_not_live
  simpa using hnot

theorem Kernel.Owned.withTemp {k : Kernel} (h : k.Owned []) (bytes : List UInt8) :
    (k.withTemp bytes).Owned [k.heap.next] where
  ring := h.ring
  owns := h.owns.insert bytes
  backed := fun _ he => (h.backed _ he).congr fun _ hid =>
    Function.update_of_ne (Nat.ne_of_lt (h.ref_lt_next he hid)) _ _

theorem Kernel.Owned.view_withTemp {k : Kernel} (h : k.Owned []) (bytes : List UInt8) :
    (k.withTemp bytes).view = k.view := by
  have hsame : ∀ e ∈ k.dev.buffers,
      e.content (k.withTemp bytes).heap = e.content k.heap := fun _ he =>
    AesdBufferEntry.content_congr fun _ hid =>
      Function.update_of_ne (Nat.ne_of_lt (h.ref_lt_next he hid)) _ _
  refine congrArg₂ Device.mk (List.map_congr_left fun e he => ?_) ?_
  · exact hsame e (List.mem_append_left _ (h.ring.mem_entry he))
  · exact hsame _ k.dev.partial_mem_buffers

/-- Releasing the temporary copy touches no block of the device. -/
theorem Kernel.Owned.block_dropTemp {k : Kernel} {mem : Nat} (h : k.Owned [mem])
    {e : AesdBufferEntry} {id : Nat} (he : e ∈ k.dev.buffers) (hp : e.buffptr = some id) :
    (k.kfree (some mem)).mutexUnlock.heap.block id = k.heap.block id := by
  obtain ⟨hnot, _⟩ := List.nodup_cons.mp h.owns.nodup
  have hne : id ≠ mem := fun e' => hnot (e' ▸ AesdDev.mem_refs he hp)
  obtain ⟨bs, hbs⟩ := Option.isSome_iff_exists.mp
    ((h.owns.live mem).mpr (List.mem_cons_self ..))
  show (k.heap.free (some mem)).block id = _
  rw [BlockHeap.free_live hbs]
  exact Function.update_of_ne hne _ _

theorem Kernel.Owned.dropTemp {k : Kernel} {mem : Nat} (h : k.Owned [mem]) :
    (k.kfree (some mem)).mutexUnlock.Owned [] where
  ring := h.ring
  owns := h.owns.free
  backed := fun e he => (h.backed e he).congr fun _ hid => h.block_dropTemp he hid

theorem Kernel.Owned.view_dropTemp {k : Kernel} {mem : Nat} (h : k.Owned [mem]) :
    (k.kfree (some mem)).mutexUnlock.view = k.view := by
  have hsame : ∀ e ∈ k.dev.buffers,
      e.content (k.kfree (some mem)).mutexUnlock.heap = e.content k.heap := fun _ he =>
    AesdBufferEntry.content_congr fun _ hid => h.block_dropTemp he hid
  refine congrArg₂ Device.mk (List.map_congr_left fun e he => ?_) ?_
  · exact hsame e (List.mem_append_left _ (h.ring.mem_entry he))
  · exact hsame _ k.dev.partial_mem_buffers

/-- A temporary copy that is given up at once leaves nothing behind. -/
theorem Kernel.Owned.drop_withTemp {k : Kernel} (h : k.Owned []) (bytes : List UInt8) :
    ((k.withTemp bytes).kfree (some k.heap.next)).mutexUnlock = k.refused.mutexUnlock := by
  have hlive : (k.withTemp bytes).heap.block k.heap.next = some bytes :=
    Function.update_self ..
  rw [Kernel.kfree, BlockHeap.free_live hlive]
  simp only [Kernel.withTemp, Function.update_idem, Kernel.mutexUnlock, Kernel.refused]
  rw [← h.block_next, Function.update_eq_self]

/-! ## One call -/

/-- A call of `aesd_write`, with what it meets. -/
structure WriteCall where
  kmalloc : Kmalloc
  env : CallEnv
  buf : List UInt8

namespace WriteCall

def run (c : WriteCall) (k : Kernel) : Int × Kernel := aesdWrite c.kmalloc c.env c.buf k

/-- The user's bytes reach the kernel: the lock is taken, the temporary
buffer is granted and every byte is copied. -/
def Arrives (c : WriteCall) (k : Kernel) : Prop :=
  c.env.interrupted = false ∧ c.env.notCopied = 0 ∧
    (c.kmalloc k.heap.next c.buf.length).isSome = true

instance (c : WriteCall) (k : Kernel) : Decidable (c.Arrives k) :=
  inferInstanceAs (Decidable (_ ∧ _ ∧ _))

/-- The segments of the user's bytes. -/
def segs (c : WriteCall) : List (List UInt8) := Delimited.segments endCharacter c.buf

/-- How many segments are stored: those whose allocations are granted before
one is refused. -/
def stored (c : WriteCall) (k : Kernel) : Nat :=
  if c.Arrives k then
    c.kmalloc.granted (k.heap.next + 1) (requests k.dev.partialBuffer.size c.segs)
  else 0

theorem stored_le (c : WriteCall) (k : Kernel) : c.stored k ≤ c.segs.length := by
  unfold stored
  split
  · have hle := c.kmalloc.granted_le (k.heap.next + 1)
      (requests k.dev.partialBuffer.size c.segs)
    rwa [length_requests] at hle
  · exact Nat.zero_le _

/-- Nothing is refused. -/
def Succeeds (c : WriteCall) (k : Kernel) : Prop :=
  c.buf = [] ∨ c.Arrives k ∧ c.stored k = c.segs.length

/-- What a call returns that does not succeed: the first thing that goes wrong
decides. -/
def errno (c : WriteCall) (k : Kernel) : Int :=
  if c.env.interrupted then -eRESTARTSYS
  else if (c.kmalloc k.heap.next c.buf.length).isNone then -eNOMEM
  else if c.env.notCopied ≠ 0 then -eFAULT
  else -eNOMEM

theorem errno_neg (c : WriteCall) (k : Kernel) : c.errno k < 0 := by
  unfold errno
  split
  · decide
  · split
    · decide
    · split <;> decide

end WriteCall

/-! ## Calls that meet no failure -/

/-- Memory is never refused. -/
def Kmalloc.Grants (kmalloc : Kmalloc) : Prop := ∀ i n, kmalloc i n ≠ none

theorem Kmalloc.Grants.granted_eq {kmalloc : Kmalloc} (h : kmalloc.Grants) (i : Nat)
    (ns : List Nat) : kmalloc.granted i ns = ns.length := by
  induction ns generalizing i with
  | nil => rfl
  | cons n ns ih =>
    obtain ⟨g, hg⟩ := Option.ne_none_iff_exists'.mp (h i n)
    simp [granted, hg, ih]

/-- The lock is taken, the bytes are copied and memory is never refused. -/
structure WriteCall.Unhindered (c : WriteCall) : Prop where
  lock : c.env.interrupted = false
  copy : c.env.notCopied = 0
  memory : c.kmalloc.Grants

theorem WriteCall.Unhindered.succeeds {c : WriteCall} (h : c.Unhindered) (k : Kernel) :
    c.Succeeds k := by
  have harr : c.Arrives k := ⟨h.lock, h.copy, Option.isSome_iff_ne_none.mpr (h.memory _ _)⟩
  refine .inr ⟨harr, ?_⟩
  rw [stored, if_pos harr, h.memory.granted_eq, length_requests]

/-! ## The outcome -/

/-- What a call returns and leaves. -/
structure WriteOutcome (c : WriteCall) (k : Kernel) (ret : Int) (k' : Kernel) : Prop where
  owned : k'.Owned []
  lock : k.dev.lock = false → k'.dev.lock = false
  view : k'.view = k.view.feed (c.segs.take (c.stored k)).flatten
  ret_ok : c.Succeeds k → ret = c.buf.length
  ret_fail : ¬ c.Succeeds k → ret = c.errno k
  same : c.stored k = 0 → k'.dev.cBuffer = k.dev.cBuffer
  changed : 0 < c.stored k → c.stored k < c.segs.length → k'.NewestSince k.heap.next

theorem WriteOutcome.ret_err {c : WriteCall} {k k' : Kernel} {ret : Int}
    (h : WriteOutcome c k ret k') (hfail : ¬ c.Succeeds k) : ret < 0 :=
  h.ret_fail hfail ▸ c.errno_neg k

/-- An exit before the bytes have arrived. -/
theorem WriteOutcome.early {c : WriteCall} {k k' : Kernel} {ret : Int} (hbuf : c.buf ≠ [])
    (hno : ¬ c.Arrives k) (howned : k'.Owned [])
    (hlock : k.dev.lock = false → k'.dev.lock = false) (hview : k'.view = k.view)
    (hring : k'.dev.cBuffer = k.dev.cBuffer) (hret : ret = c.errno k) :
    WriteOutcome c k ret k' := by
  have hstored : c.stored k = 0 := if_neg hno
  have hfail : ¬ c.Succeeds k := by
    rintro (hnil | ⟨harr, _⟩)
    · exact hbuf hnil
    · exact hno harr
  refine ⟨howned, hlock, ?_, fun hs => absurd hs hfail, fun _ => hret, fun _ => hring, ?_⟩
  · rw [hstored, hview]; rfl
  · intro hpos; omega

/-- The body of the call, once the bytes have arrived. -/
theorem writeBody_stores {c : WriteCall} {k : Kernel} (h : k.Owned []) (harr : c.Arrives k) :
    ∃ k', writeBody c.kmalloc (some k.heap.next) c.buf.length (k.withTemp c.buf)
        = (decide (c.stored k = c.segs.length), k')
      ∧ Stores [k.heap.next] c.segs (c.stored k) (k.withTemp c.buf) k' := by
  have hblock : (k.withTemp c.buf).heap.block k.heap.next = some c.buf :=
    Function.update_self ..
  obtain ⟨k', hrun, hst⟩ := bodyFrom_stores (List.mem_singleton_self _) c.buf 0
    (k.withTemp c.buf) (h.withTemp c.buf) hblock (Nat.zero_le _) rfl
  have hstored : c.kmalloc.storable (k.withTemp c.buf) c.buf = c.stored k := by
    rw [WriteCall.stored, if_pos harr]; rfl
  rw [hstored] at hrun hst
  exact ⟨k', hrun, hst⟩

/-- Copying into the fresh temporary buffer. -/
theorem copyFromUser_fresh (env : CallEnv) (buf : List UInt8) (g : Nat → UInt8) (k : Kernel) :
    (k.withTemp ((List.range buf.length).map g)).copyFromUser env (some k.heap.next) buf
      = k.withTemp (BlockHeap.splice ((List.range buf.length).map g) 0
          (buf.take (buf.length - env.notCopied))) := by
  rw [Kernel.copyFromUser, BlockHeap.store_live (Function.update_self ..) (by simp)]
  simp only [Kernel.withTemp, Function.update_idem]

/-- A call whose bytes arrive returns what its body decides. -/
theorem aesdWrite_copied {c : WriteCall} {k k' : Kernel} {ok : Bool} (hbuf : c.buf ≠ [])
    (harr : c.Arrives k)
    (hbody : writeBody c.kmalloc (some k.heap.next) c.buf.length (k.withTemp c.buf)
      = (ok, k')) :
    c.run k = (if ok then (c.buf.length : Int) else -eNOMEM,
      (k'.kfree (some k.heap.next)).mutexUnlock) := by
  obtain ⟨hint, hcopy, hgr⟩ := harr
  obtain ⟨g, hg⟩ := Option.isSome_iff_exists.mp hgr
  have hcount : ¬ c.buf.length = 0 := fun e => hbuf (List.eq_nil_of_length_eq_zero e)
  have hfull : (k.withTemp ((List.range c.buf.length).map g)).copyFromUser c.env
      (some k.heap.next) c.buf = k.withTemp c.buf := by
    rw [copyFromUser_fresh, hcopy, Nat.sub_zero, List.take_length,
        BlockHeap.splice_all (by simp)]
  simp only [Kernel.withTemp] at hfull hbody
  simp only [WriteCall.run, aesdWrite, if_neg hcount, hint, Bool.false_eq_true, if_false,
             Kernel.kmalloc, Kernel.mutexLock, hg, BlockHeap.alloc, hcopy, ne_eq,
             not_true_eq_false, hfull, hbody]
  cases ok <;> rfl

/-- The exits after the body. -/
theorem WriteOutcome.finish {c : WriteCall} {k k' : Kernel} {ret : Int} (h : k.Owned [])
    (hbuf : c.buf ≠ []) (harr : c.Arrives k)
    (hst : Stores [k.heap.next] c.segs (c.stored k) (k.withTemp c.buf) k')
    (hok : c.stored k = c.segs.length → ret = c.buf.length)
    (herr : c.stored k ≠ c.segs.length → ret = c.errno k) :
    WriteOutcome c k ret (k'.kfree (some k.heap.next)).mutexUnlock where
  owned := hst.owned.dropTemp
  lock := fun _ => rfl
  view := by rw [hst.owned.view_dropTemp, hst.view, h.view_withTemp]
  ret_ok := by
    rintro (hnil | ⟨_, hall⟩)
    · exact absurd hnil hbuf
    · exact hok hall
  ret_fail := fun hf => herr fun hall => hf (Or.inr ⟨harr, hall⟩)
  same := by
    intro h0
    have hne : c.segs ≠ [] := Delimited.segments_ne_nil _ hbuf
    show k'.dev.cBuffer = _
    rw [hst.unchanged h0 hne]
    rfl
  changed := by
    intro hpos hlt
    obtain ⟨e, he, id, hid, hle⟩ := hst.changed hpos hlt
    exact ⟨e, he, id, hid, Nat.le_trans (Nat.le_succ _) hle⟩

/-- **The outcome of `aesd_write`.** -/
theorem aesdWrite_outcome (c : WriteCall) {k : Kernel} (h : k.Owned []) :
    WriteOutcome c k (c.run k).1 (c.run k).2 := by
  obtain ⟨kmalloc, env, buf⟩ := c
  by_cases hbuf : buf = []
  · subst hbuf
    have hstored : WriteCall.stored ⟨kmalloc, env, []⟩ k = 0 := by
      unfold WriteCall.stored; split <;> rfl
    exact ⟨h, id, by rw [hstored]; rfl, fun _ => rfl, fun hf => absurd (Or.inl rfl) hf,
      fun _ => rfl, fun hpos => by omega⟩
  have hcount : ¬ buf.length = 0 := fun e => hbuf (List.eq_nil_of_length_eq_zero e)
  by_cases hint : env.interrupted = true
  · simp only [WriteCall.run, aesdWrite, if_neg hcount, if_pos hint]
    refine WriteOutcome.early hbuf (fun ha => ?_) h id rfl rfl (by simp [WriteCall.errno, hint])
    have := ha.1
    simp [hint] at this
  cases hg : kmalloc k.heap.next buf.length with
  | none =>
    simp only [WriteCall.run, aesdWrite, if_neg hcount, if_neg hint, Kernel.kmalloc,
               Kernel.mutexLock, hg, BlockHeap.alloc]
    refine WriteOutcome.early hbuf (fun ha => ?_) (h.refused.lock false) (fun _ => rfl)
      rfl rfl (by simp [WriteCall.errno, hint, hg])
    have := ha.2.2
    simp [hg] at this
  | some g =>
    by_cases hcopy : env.notCopied = 0
    · have harr : WriteCall.Arrives ⟨kmalloc, env, buf⟩ k :=
        ⟨by simpa using hint, hcopy, by simp [hg]⟩
      obtain ⟨k', hbody, hst⟩ := writeBody_stores h harr
      rw [aesdWrite_copied hbuf harr hbody]
      by_cases hall : WriteCall.stored ⟨kmalloc, env, buf⟩ k
          = (WriteCall.segs ⟨kmalloc, env, buf⟩).length
      · rw [decide_eq_true hall]
        exact WriteOutcome.finish h hbuf harr hst (fun _ => rfl) (fun hne => absurd hall hne)
      · rw [decide_eq_false hall]
        exact WriteOutcome.finish h hbuf harr hst (fun he => absurd he hall)
          (fun _ => by simp [WriteCall.errno, hint, hg, hcopy])
    · have hrun : WriteCall.run ⟨kmalloc, env, buf⟩ k
          = (-eFAULT, (((k.withTemp ((List.range buf.length).map g)).copyFromUser env
              (some k.heap.next) buf).kfree (some k.heap.next)).mutexUnlock) := by
        simp only [WriteCall.run, aesdWrite, if_neg hcount, if_neg hint, Kernel.kmalloc,
                   Kernel.mutexLock, hg, BlockHeap.alloc, Kernel.withTemp]
        rw [if_pos hcopy]
      rw [hrun, copyFromUser_fresh, h.drop_withTemp]
      exact WriteOutcome.early hbuf (fun ha => hcopy ha.2.1) (h.refused.lock false)
        (fun _ => rfl) rfl rfl (by simp [WriteCall.errno, hint, hg, hcopy])

end Aesd.Driver

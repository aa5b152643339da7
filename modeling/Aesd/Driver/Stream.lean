/-
Aesd.Driver.Stream — the device as a reader of one byte stream, and the
newline loop of `aesd_write` as a piece of that reading.

`Device.feed` is the abstract device: it takes bytes one at a time, ends the
open line at a newline and keeps the ten newest lines. `feed_empty` says
what it holds after a whole stream.

The loop handles the user's bytes segment by segment (`Delimited.segments`):
one allocation request for each line it completes and one for the data after
the last newline. `Kmalloc.granted` counts the requests granted before the
first refusal, from the allocator's answers and the segment lengths alone,
and `bodyFrom_stores` says that exactly those segments have been fed to the
device when the loop is done or gives up.
-/
import Aesd.Library.Delimited
import Aesd.Driver.Ownership

namespace Aesd.Driver

/-! ## The abstract device -/

def Device.empty : Device := ⟨[], []⟩

/-- Take one byte. -/
def Device.feedByte (d : Device) (b : UInt8) : Device :=
  if b = endCharacter then ⟨Fifo.push 10 d.lines (d.part ++ [b]), []⟩
  else ⟨d.lines, d.part ++ [b]⟩

/-- Take a run of bytes. -/
def Device.feed (d : Device) (bytes : List UInt8) : Device := bytes.foldl feedByte d

@[simp] theorem Device.feed_nil (d : Device) : d.feed [] = d := rfl

theorem Device.feed_append (d : Device) (a b : List UInt8) :
    d.feed (a ++ b) = (d.feed a).feed b := List.foldl_append

/-- Bytes without a newline extend the open line. -/
theorem Device.feed_noSep (d : Device) {bytes : List UInt8} (h : endCharacter ∉ bytes) :
    d.feed bytes = ⟨d.lines, d.part ++ bytes⟩ := by
  induction bytes generalizing d with
  | nil => simp
  | cons b bytes ih =>
    have hb : b ≠ endCharacter := fun e => h (by simp [e])
    have hbytes : endCharacter ∉ bytes := fun e => h (by simp [e])
    show (d.feedByte b).feed bytes = _
    rw [ih _ hbytes, feedByte, if_neg hb]
    simp

/-- A whole line, after the open one, is pushed. -/
theorem Device.feed_line (d : Device) {body : List UInt8} (h : endCharacter ∉ body) :
    d.feed (body ++ [endCharacter])
      = ⟨Fifo.push 10 d.lines (d.part ++ (body ++ [endCharacter])), []⟩ := by
  rw [feed_append, d.feed_noSep h]
  simp [feed, feedByte]

/-- **What the device holds after a stream**: the last ten of its lines, and
what follows its last newline. -/
theorem Device.feed_empty (s : List UInt8) :
    Device.empty.feed s
      = ⟨(Delimited.lines endCharacter s).rtake 10, Delimited.rest endCharacter s⟩ := by
  suffices hgen : ∀ (t : List UInt8) (q : List (List UInt8) × List UInt8),
      Device.feed ⟨q.1.rtake 10, q.2⟩ t
        = ⟨(t.foldl (Delimited.feed endCharacter) q).1.rtake 10,
           (t.foldl (Delimited.feed endCharacter) q).2⟩ from hgen s ([], [])
  intro t
  induction t with
  | nil => intro q; rfl
  | cons b t ih =>
    intro q
    rw [List.foldl_cons, ← ih (Delimited.feed endCharacter q b)]
    show Device.feed (Device.feedByte _ b) t = _
    by_cases hb : b = endCharacter
    · simp only [feedByte, Delimited.feed, if_pos hb, Fifo.push_rtake (by decide : 0 < 10)]
    · simp only [feedByte, Delimited.feed, if_neg hb]

/-! ## The allocation requests of one write -/

/-- The sizes the segments of a write ask for; the first one joins the
partial line of `partSize` bytes. -/
def requests (partSize : Nat) : List (List UInt8) → List Nat
  | [] => []
  | s :: segs => (partSize + s.length) :: segs.map List.length

/-- How many of the requests, the first of them numbered `i`, are granted
before one is refused. -/
def Kmalloc.granted (kmalloc : Kmalloc) : Nat → List Nat → Nat
  | _, [] => 0
  | i, n :: ns =>
    match kmalloc i n with
    | none => 0
    | some _ => granted kmalloc (i + 1) ns + 1

theorem requests_zero (segs : List (List UInt8)) : requests 0 segs = segs.map List.length := by
  cases segs <;> simp [requests]

theorem length_requests (partSize : Nat) (segs : List (List UInt8)) :
    (requests partSize segs).length = segs.length := by
  cases segs <;> simp [requests]

theorem Kmalloc.granted_le (kmalloc : Kmalloc) (i : Nat) (ns : List Nat) :
    kmalloc.granted i ns ≤ ns.length := by
  induction ns generalizing i with
  | nil => exact Nat.le_refl _
  | cons n ns ih =>
    rw [granted]
    split
    · exact Nat.zero_le _
    · have := ih (i + 1)
      rw [List.length_cons]
      omega

/-! ## The loop, one segment at a time -/

/-- What is left of the body of `aesd_write` when the segments before
`start` have been handled. -/
def bodyFrom (kmalloc : Kmalloc) (mem : Option Nat) (count start : Nat) (k : Kernel) :
    Bool × Kernel :=
  match writeLoop kmalloc mem (count - start) start start k with
  | .error k => (false, k)
  | .ok (start, k) =>
    if start < count then extendPartial kmalloc mem start (count - start) k else (true, k)

section Loop

variable {kmalloc : Kmalloc} {k : Kernel} {frame : List Nat} {mem start : Nat}
  {bytes : List UInt8}

/-- The loop runs over bytes that are not newlines. -/
theorem writeLoop_skip (hbytes : k.heap.block mem = some bytes) {s t : List UInt8}
    (hs : endCharacter ∉ s) {j : Nat} (hj : bytes.drop j = s ++ t) (n : Nat) :
    writeLoop kmalloc (some mem) (s.length + n) j start k
      = writeLoop kmalloc (some mem) n (j + s.length) start k := by
  induction s generalizing j with
  | nil => simp
  | cons b s ih =>
    have hb : b ≠ endCharacter := fun e => hs (by simp [e])
    have hlen : j + 1 ≤ bytes.length := by
      have := congrArg List.length hj
      simp only [List.length_drop, List.length_append, List.length_cons] at this
      omega
    have hload : k.heap.load (some mem) j 1 = some [b] := by
      rw [BlockHeap.load_live hbytes hlen, hj]; rfl
    have hnext : bytes.drop (j + 1) = s ++ t := by
      rw [← List.drop_drop, hj]; rfl
    rw [List.length_cons, Nat.add_right_comm, writeLoop, hload, if_neg (by simpa using hb),
        ih (fun e => hs (by simp [e])) hnext]
    congr 1
    omega

/-- No newline left: the rest goes into the partial line. -/
theorem bodyFrom_noSep (hbytes : k.heap.block mem = some bytes)
    (hr : endCharacter ∉ bytes.drop start) :
    bodyFrom kmalloc (some mem) bytes.length start k
      = if start < bytes.length then
          extendPartial kmalloc (some mem) start (bytes.length - start) k
        else (true, k) := by
  have hskip : writeLoop kmalloc (some mem) ((bytes.drop start).length + 0) start start k
      = writeLoop kmalloc (some mem) 0 (start + (bytes.drop start).length) start k :=
    writeLoop_skip hbytes hr (List.append_nil _).symm 0
  rw [Nat.add_zero, List.length_drop] at hskip
  rw [bodyFrom, hskip, writeLoop]

/-- A newline ahead: the line up to it is stored and the rest follows. -/
theorem bodyFrom_line (hbytes : k.heap.block mem = some bytes) {body more : List UInt8}
    (hbody : endCharacter ∉ body) (hr : bytes.drop start = body ++ endCharacter :: more) :
    bodyFrom kmalloc (some mem) bytes.length start k
      = match extendPartial kmalloc (some mem) start (body.length + 1) k with
        | (false, k) => (false, k)
        | (true, k) => bodyFrom kmalloc (some mem) bytes.length (start + body.length + 1)
            (commitPartial k) := by
  have hlen := congrArg List.length hr
  simp only [List.length_drop, List.length_append, List.length_cons] at hlen
  have hnl : bytes.drop (start + body.length) = endCharacter :: more := by
    rw [← List.drop_drop, hr, List.drop_left]
  have hload : k.heap.load (some mem) (start + body.length) 1 = some [endCharacter] := by
    rw [BlockHeap.load_live hbytes (by omega), hnl]; rfl
  have hn : bytes.length - start
      = body.length + (bytes.length - (start + body.length + 1) + 1) := by omega
  rw [bodyFrom, hn, writeLoop_skip hbytes hbody hr, writeLoop, if_pos hload,
      Nat.add_sub_cancel_left]
  cases hext : extendPartial kmalloc (some mem) start (body.length + 1) k with
  | mk ok k1 => cases ok <;> rfl

end Loop

/-! ## What the body stores -/

/-- The newest stored entry has a buffer allocated at request `n` or later. -/
def Kernel.NewestSince (n : Nat) (k : Kernel) : Prop :=
  ∃ e, k.dev.cBuffer.fromOldest.getLast? = some e ∧ ∃ id, e.buffptr = some id ∧ n ≤ id

/-- The first `i` of the segments `segs`, stored: the state after is `k'`. -/
structure Stores (frame : List Nat) (segs : List (List UInt8)) (i : Nat) (k k' : Kernel) :
    Prop where
  owned : k'.Owned frame
  keeps : ∀ id ∈ frame, k'.heap.block id = k.heap.block id
  view : k'.view = k.view.feed (segs.take i).flatten
  unchanged : i = 0 → segs ≠ [] → k' = k.refused
  changed : 0 < i → i < segs.length → k'.NewestSince k.heap.next

theorem Stores.nil {frame : List Nat} {k : Kernel} (h : k.Owned frame) :
    Stores frame [] 0 k k :=
  ⟨h, fun _ _ => rfl, rfl, fun _ hne => absurd rfl hne, fun h0 => absurd h0 (Nat.lt_irrefl 0)⟩

theorem Stores.refused {frame : List Nat} {k : Kernel} (h : k.Owned frame)
    (segs : List (List UInt8)) : Stores frame segs 0 k k.refused :=
  ⟨h.refused, fun _ _ => rfl, rfl, fun _ _ => rfl, fun h0 => absurd h0 (Nat.lt_irrefl 0)⟩

/-- The data after the last newline, stored. -/
theorem Stores.last {frame : List Nat} {k : Kernel} (h : k.Owned frame) {s : List UInt8}
    (hs : endCharacter ∉ s) (hne : s ≠ []) :
    Stores frame [s] 1 k (k.grown (k.view.part ++ s)) where
  owned := h.grown (by simp [hne])
  keeps := fun id hid => h.grown_block _ (List.mem_append_left _ hid)
  view := by
    rw [h.view_grown]
    simp [Device.feed_noSep _ hs]
  unchanged := fun h0 => absurd h0 (by decide)
  changed := fun _ h1 => absurd h1 (Nat.lt_irrefl 1)

/-- One line stored, and then the first `i` of the segments after it. -/
theorem Stores.line {frame : List Nat} {k k' : Kernel} (h : k.Owned frame)
    {body : List UInt8} (hbody : endCharacter ∉ body) {segs : List (List UInt8)} {i : Nat}
    (hrest : Stores frame segs i
      (commitPartial (k.grown (k.view.part ++ (body ++ [endCharacter])))) k') :
    Stores frame ((body ++ [endCharacter]) :: segs) (i + 1) k k' := by
  have hg : (k.grown (k.view.part ++ (body ++ [endCharacter]))).Owned frame :=
    h.grown (by simp)
  generalize hk1 : commitPartial (k.grown (k.view.part ++ (body ++ [endCharacter]))) = k1
    at hrest
  have hview : k1.view = k.view.feed (body ++ [endCharacter]) := by
    rw [← hk1, hg.view_commit, h.view_grown, k.view.feed_line hbody]
  have hnewest : k1.NewestSince k.heap.next := by
    rw [← hk1]
    exact ⟨_, by rw [hg.fromOldest_commit, Fifo.getLast?_push], _, rfl, Nat.le_refl _⟩
  have hnext : k.heap.next ≤ k1.heap.next := by
    rw [← hk1, commitPartial_eq hg]
    simp [Kernel.grown]
  refine ⟨hrest.owned, fun id hid => ?_, ?_, fun h0 => absurd h0 (Nat.succ_ne_zero i),
    fun _ hi => ?_⟩
  · rw [hrest.keeps id hid, ← hk1, hg.commit_block (List.mem_append_left _ hid),
        h.grown_block _ (List.mem_append_left _ hid)]
  · rw [hrest.view, hview, List.take_succ_cons, List.flatten_cons, ← Device.feed_append]
  · rcases Nat.eq_zero_or_pos i with rfl | hpos
    · rw [hrest.unchanged rfl (by rintro rfl; simp at hi)]
      exact hnewest
    · obtain ⟨e, he, id, hid, hle⟩ := hrest.changed hpos (by simpa using hi)
      exact ⟨e, he, id, hid, Nat.le_trans hnext hle⟩

/-- How many segments of `r` the allocator lets a write store. -/
def Kmalloc.storable (kmalloc : Kmalloc) (k : Kernel) (r : List UInt8) : Nat :=
  kmalloc.granted k.heap.next
    (requests k.dev.partialBuffer.size (Delimited.segments endCharacter r))

/-- **The body stores the granted segments**, and succeeds when these are
all of them. -/
theorem bodyFrom_stores {kmalloc : Kmalloc} {frame : List Nat} {mem : Nat}
    (hmem : mem ∈ frame) {bytes : List UInt8} (r : List UInt8) :
    ∀ (start : Nat) (k : Kernel), k.Owned frame → k.heap.block mem = some bytes →
      start ≤ bytes.length → bytes.drop start = r →
      ∃ k', bodyFrom kmalloc (some mem) bytes.length start k
          = (decide (kmalloc.storable k r = (Delimited.segments endCharacter r).length), k')
        ∧ Stores frame (Delimited.segments endCharacter r) (kmalloc.storable k r) k k' := by
  induction r using Delimited.recordInduction endCharacter with
  | noSep r hr =>
    intro start k h hbytes hstart hdrop
    have hlen := congrArg List.length hdrop
    rw [List.length_drop] at hlen
    rw [bodyFrom_noSep hbytes (hdrop ▸ hr)]
    by_cases hnil : r = []
    · subst hnil
      rw [if_neg (by simp at hlen; omega)]
      exact ⟨k, rfl, Stores.nil h⟩
    · have hpos := List.length_pos_iff.mpr hnil
      have hsegs : Delimited.segments endCharacter r = [r] := by
        rw [Delimited.segments_noSep _ hr, if_neg hnil]
      rw [if_pos (by omega), hlen, Kmalloc.storable, hsegs]
      simp only [requests, Kmalloc.granted]
      cases hg : kmalloc k.heap.next (k.dev.partialBuffer.size + r.length) with
      | none => exact ⟨_, extendPartial_refused h hg, Stores.refused h _⟩
      | some g =>
        refine ⟨_, extendPartial_granted h hmem hbytes (by omega) hg, ?_⟩
        rw [hdrop, List.take_length]
        exact Stores.last h hr hnil
  | line body more hbody ih =>
    intro start k h hbytes hstart hdrop
    have hlen := congrArg List.length hdrop
    simp only [List.length_drop, List.length_append, List.length_cons] at hlen
    rw [bodyFrom_line hbytes hbody hdrop, Kmalloc.storable, Delimited.segments_line _ hbody]
    simp only [requests, Kmalloc.granted, List.length_append, List.length_singleton]
    cases hg : kmalloc k.heap.next (k.dev.partialBuffer.size + (body.length + 1)) with
    | none => exact ⟨_, by rw [extendPartial_refused h hg]; rfl, Stores.refused h _⟩
    | some g =>
      rw [extendPartial_granted h hmem hbytes (by omega) hg]
      have hseg : (bytes.drop start).take (body.length + 1) = body ++ [endCharacter] := by
        rw [hdrop, List.append_cons, List.take_left' (by simp)]
      rw [hseg]
      have hgr : (k.grown (k.view.part ++ (body ++ [endCharacter]))).Owned frame :=
        h.grown (by simp)
      have hblock : (commitPartial (k.grown (k.view.part ++ (body ++ [endCharacter])))).heap.block
          mem = some bytes := by
        rw [hgr.commit_block (List.mem_append_left _ hmem),
            h.grown_block _ (List.mem_append_left _ hmem), hbytes]
      obtain ⟨k', hrun, hst⟩ := ih (start + body.length + 1) _ hgr.commit hblock (by omega)
        (by rw [Nat.add_assoc, ← List.drop_drop, hdrop, List.append_cons,
                List.drop_left' (by simp)])
      have hsucc : kmalloc.granted (k.heap.next + 1)
            ((Delimited.segments endCharacter more).map List.length)
          = kmalloc.storable
              (commitPartial (k.grown (k.view.part ++ (body ++ [endCharacter])))) more := by
        rw [Kmalloc.storable, commitPartial_eq hgr]
        simp only [AesdBufferEntry.zero, requests_zero, BlockHeap.next_free, Kernel.grown]
      refine ⟨k', ?_, ?_⟩
      · simp only [hrun, hsucc, List.length_cons, Nat.add_right_cancel_iff]
      · rw [hsucc]
        exact Stores.line h hbody hst

end Aesd.Driver

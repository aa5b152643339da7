/-
Aesd.Driver.ReadRuns — reading a file to its end, and the size `aesd_lseek`
works with.

`beforeRead` is a run of `aesd_read` calls on one open file. The step fact
is that one call delivers the next stored bytes and moves the position past
them (`Kernel.Idle.aesdRead_ok`); `ReadsToEnd` is what a run of calls comes
to, whatever their counts (`reads_to_end`). A count the VFS passes is far below
the end of `size_t`, so `count + entry_offset` does not wrap.

`get_total_size` adds up the raw slots and never looks at `in_offs`,
`out_offs` or `full`. It is the position at which reads end all the same
(`getTotalSize_eq`), so seeking from the end and reading agree
(`lseek_agrees_with_read`).
-/
import Mathlib.Data.Nat.Find
import Mathlib.Order.Bounds.Defs
import Aesd.Driver.Seek

namespace Aesd.Driver

/-! ## One read -/

/-- Between two calls the lock is free, so taking and releasing it changes
nothing. -/
theorem Kernel.Idle.lock_unlock {k : Kernel} (h : k.Idle) : k.mutexLock.mutexUnlock = k := by
  have hlock := h.lock
  obtain ⟨heap, lock, cBuffer, partialBuffer⟩ := k
  subst hlock
  rfl

/-- A read whose lock and copy go well. -/
theorem Kernel.Idle.aesdRead_ok {k : Kernel} (h : k.Idle) (count fPos : Nat) :
    aesdRead .ok count fPos k
      = (⟨(k.view.readAt count fPos).length, k.view.readAt count fPos,
          fPos + (k.view.readAt count fPos).length⟩, k) := by
  rw [aesdRead_eq h.owned rfl, if_neg (by simp [CallEnv.ok]), h.lock_unlock]

/-- A read whose copy fails, or whose lock is interrupted, leaves the
position alone. -/
theorem aesdRead_failed_fPos {k : Kernel} (h : k.Idle) {env : CallEnv}
    (hfail : env.interrupted = true ∨ env.notCopied ≠ 0) (count fPos : Nat) :
    (aesdRead env count fPos k).1.fPos = fPos := by
  cases hint : env.interrupted with
  | true => rw [aesdRead_interrupted hint]
  | false =>
    have hcopy : env.notCopied ≠ 0 := by simpa [hint] using hfail
    rw [aesdRead_eq h.owned hint]
    by_cases hloc : Positions.locate (k.view.lines.map List.length) fPos = none
    · simp [hloc, Device.readAt]
    · simp [hloc, hcopy]

section Outcome

variable {k : Kernel} (h : k.Idle) (env : CallEnv) (count fPos : Nat)
include h

/-- The position moves by the number of bytes returned, if any. -/
theorem aesdRead_fPos : (aesdRead env count fPos k).1.fPos
    = fPos + (aesdRead env count fPos k).1.retval.toNat := by
  cases hint : env.interrupted with
  | true => rw [aesdRead_interrupted hint]; rfl
  | false =>
    rw [aesdRead_eq h.owned hint]
    split
    · rfl
    · rfl

/-- A read that returns bytes has put them into the user's buffer. -/
theorem aesdRead_data (hpos : 0 < (aesdRead env count fPos k).1.retval) :
    (aesdRead env count fPos k).1.data = k.view.readAt count fPos ∧
      (aesdRead env count fPos k).1.retval = (k.view.readAt count fPos).length := by
  cases hint : env.interrupted with
  | true =>
    rw [aesdRead_interrupted hint] at hpos
    have hneg : (0 : Int) < -eRESTARTSYS := hpos
    exact absurd hneg (by decide)
  | false =>
    rw [aesdRead_eq h.owned hint] at hpos ⊢
    split at hpos
    · have hneg : (0 : Int) < -eFAULT := hpos
      exact absurd hneg (by decide)
    · rename_i hok
      rw [if_neg hok]
      exact ⟨rfl, rfl⟩

end Outcome

/-- A read is part of one stored line. -/
theorem Device.readAt_inLine {d : Device} {count p : Nat} (hne : d.readAt count p ≠ []) :
    ∃ line offset, p = Positions.position (d.lines.map List.length) line offset ∧
      d.readAt count p <+: (d.lines.getD line []).drop offset ∧ line < d.lines.length := by
  cases hloc : Positions.locate (d.lines.map List.length) p with
  | none => exact absurd (by rw [readAt, hloc]) hne
  | some q =>
    obtain ⟨line, offset⟩ := q
    have hseek := (d.seekTo_eq_some_iff ..).mpr hloc
    obtain ⟨hline, hoff⟩ := lt_of_seekTo hseek
    rw [seekTo, if_pos hoff, Option.some.injEq] at hseek
    refine ⟨line, offset, hseek.symm, ?_, hline⟩
    rw [readAt, hloc]
    exact List.take_prefix _ _

theorem Device.length_readAt_le (d : Device) (count p : Nat) :
    (d.readAt count p).length ≤ count := by
  rw [readAt]
  split
  · exact Nat.zero_le _
  · exact List.length_take_le _ _

/-- What a read delivers, and then what is stored from the new position on,
is what was stored from the old one on. -/
theorem Device.readAt_append_drop (d : Device) (count p : Nat) :
    d.readAt count p ++ d.contents.drop (p + (d.readAt count p).length)
      = d.contents.drop p := by
  obtain ⟨more, hmore⟩ := d.readAt_prefix count p
  rw [← List.drop_drop, ← hmore, List.drop_left]

/-! ## A run of reads -/

/-- The file position and the kernel state before read number `i` of a run of
reads, of `counts i` bytes each, from position `fPos` on. -/
def beforeRead (counts : Nat → Nat) (fPos : Nat) (k : Kernel) : Nat → Nat × Kernel
  | 0 => (fPos, k)
  | i + 1 =>
    let (fPos, k) := beforeRead counts fPos k i
    let (result, k) := aesdRead .ok (counts i) fPos k
    (result.fPos, k)

/-- Read number `i` of the run. -/
def readNumber (counts : Nat → Nat) (fPos : Nat) (k : Kernel) (i : Nat) : ReadResult :=
  (aesdRead .ok (counts i) (beforeRead counts fPos k i).1 (beforeRead counts fPos k i).2).1

/-- A run of reads that has come to the end of the file with read number
`n`. -/
structure ReadsToEnd (counts : Nat → Nat) (fPos : Nat) (k : Kernel) (n : Nat) : Prop where
  /-- The reads before return bytes, no more than asked for, -/
  nonzero : ∀ i < n, 0 < (readNumber counts fPos k i).retval ∧
    (readNumber counts fPos k i).retval ≤ counts i ∧
    (readNumber counts fPos k i).retval = (readNumber counts fPos k i).data.length
  /-- all from one stored line: the one their position is in. -/
  inLine : ∀ i < n, ∃ line offset, line < k.view.lines.length ∧
    (beforeRead counts fPos k i).1
      = Positions.position (k.view.lines.map List.length) line offset ∧
    (readNumber counts fPos k i).data <+: (k.view.lines.getD line []).drop offset
  /-- This one returns zero. -/
  zero : (readNumber counts fPos k n).retval = 0
  /-- Together they deliver what is stored from the first position on. -/
  delivers : (List.range n).flatMap (fun i => (readNumber counts fPos k i).data)
    = k.view.contents.drop fPos
  /-- The position is at the end, or where it was if that is further. -/
  final : (readNumber counts fPos k n).fPos = max fPos k.view.contents.length

section Run

variable {k : Kernel} (counts : Nat → Nat) (fPos : Nat)

/-- The kernel state stays as it is, and read number `i` is a read of it. -/
theorem Kernel.Idle.beforeRead_snd (h : k.Idle) (i : Nat) :
    (beforeRead counts fPos k i).2 = k := by
  induction i with
  | zero => rfl
  | succ i ih => simp only [beforeRead, ih, h.aesdRead_ok]

theorem Kernel.Idle.readNumber_eq (h : k.Idle) (i : Nat) :
    readNumber counts fPos k i
      = ⟨(k.view.readAt (counts i) (beforeRead counts fPos k i).1).length,
          k.view.readAt (counts i) (beforeRead counts fPos k i).1,
          (beforeRead counts fPos k (i + 1)).1⟩ := by
  simp only [readNumber, beforeRead, h.beforeRead_snd, h.aesdRead_ok]

theorem Kernel.Idle.beforeRead_succ (h : k.Idle) (i : Nat) :
    (beforeRead counts fPos k (i + 1)).1
      = (beforeRead counts fPos k i).1
        + (k.view.readAt (counts i) (beforeRead counts fPos k i).1).length := by
  simp only [beforeRead, h.beforeRead_snd, h.aesdRead_ok]

/-- The first `i` reads deliver what lies between the first position and the
position they come to. -/
theorem Kernel.Idle.delivered (h : k.Idle) (i : Nat) :
    (List.range i).flatMap (fun j => (readNumber counts fPos k j).data)
        ++ k.view.contents.drop (beforeRead counts fPos k i).1
      = k.view.contents.drop fPos := by
  induction i with
  | zero => rfl
  | succ i ih =>
    rw [List.range_succ, List.flatMap_append, List.flatMap_singleton, h.readNumber_eq,
        h.beforeRead_succ, List.append_assoc, Device.readAt_append_drop, ih]

/-- The position passes neither the end nor, if that is further, its start. -/
theorem Kernel.Idle.beforeRead_le (h : k.Idle) (i : Nat) :
    (beforeRead counts fPos k i).1 ≤ max fPos k.view.contents.length := by
  induction i with
  | zero => exact Nat.le_max_left _ _
  | succ i ih =>
    have happ := congrArg List.length
      (k.view.readAt_append_drop (counts i) (beforeRead counts fPos k i).1)
    simp only [List.length_append, List.length_drop] at happ
    rw [h.beforeRead_succ]
    omega

theorem Kernel.Idle.le_beforeRead (h : k.Idle) (i : Nat) :
    fPos ≤ (beforeRead counts fPos k i).1 := by
  induction i with
  | zero => exact Nat.le_refl _
  | succ i ih => rw [h.beforeRead_succ]; omega

/-- Each read before the end makes progress. -/
theorem Kernel.Idle.beforeRead_progress (h : k.Idle) (hcounts : ∀ i, 0 < counts i) (i : Nat) :
    k.view.contents.length ≤ (beforeRead counts fPos k i).1 ∨
      fPos + i ≤ (beforeRead counts fPos k i).1 := by
  induction i with
  | zero => exact Or.inr (Nat.le_refl _)
  | succ i ih =>
    rw [h.beforeRead_succ]
    by_cases hend : k.view.contents.length ≤ (beforeRead counts fPos k i).1
    · exact Or.inl (by omega)
    · have hne := mt (k.view.readAt_eq_nil_iff (hcounts i) _).mp hend
      have hpos := List.length_pos_iff.mpr hne
      have hle := ih.resolve_left hend
      exact Or.inr (by omega)

/-- **Reading to the end.** -/
theorem Kernel.Idle.reads_to_end (h : k.Idle) (hcounts : ∀ i, 0 < counts i) :
    ∃ n, ReadsToEnd counts fPos k n := by
  have hreach : ∃ n, k.view.contents.length ≤ (beforeRead counts fPos k n).1 := by
    refine ⟨k.view.contents.length, ?_⟩
    have := h.beforeRead_progress counts fPos hcounts k.view.contents.length
    omega
  -- The reads end at the first position that is not inside the contents.
  obtain ⟨n, hn, hfirst⟩ : ∃ n, k.view.contents.length ≤ (beforeRead counts fPos k n).1 ∧
      ∀ i < n, ¬ k.view.contents.length ≤ (beforeRead counts fPos k i).1 :=
    ⟨Nat.find hreach, Nat.find_spec hreach, fun i hi => Nat.find_min hreach hi⟩
  have hnil := (k.view.readAt_eq_nil_iff (hcounts n) _).mpr hn
  have hsome : ∀ i < n, k.view.readAt (counts i) (beforeRead counts fPos k i).1 ≠ [] :=
    fun i hi => mt (k.view.readAt_eq_nil_iff (hcounts i) _).mp (hfirst i hi)
  refine ⟨n, ⟨fun i hi => ?_, fun i hi => ?_, ?_, ?_, ?_⟩⟩
  · have hpos := List.length_pos_iff.mpr (hsome i hi)
    have hle := k.view.length_readAt_le (counts i) (beforeRead counts fPos k i).1
    rw [h.readNumber_eq]
    exact ⟨by simpa using hpos, Int.ofNat_le.mpr hle, rfl⟩
  · obtain ⟨line, offset, hp, hpre, hline⟩ := Device.readAt_inLine (hsome i hi)
    rw [h.readNumber_eq]
    exact ⟨line, offset, hline, hp, hpre⟩
  · simp [h.readNumber_eq, hnil]
  · have hdel := h.delivered counts fPos n
    rwa [List.drop_eq_nil_of_le hn, List.append_nil] at hdel
  · have hle := h.beforeRead_le counts fPos n
    have hge := h.le_beforeRead counts fPos n
    rw [h.readNumber_eq, h.beforeRead_succ, hnil, List.length_nil]
    simp only
    omega

end Run

/-- **Reading to the end returns the stored bytes exactly**, in every
reachable state, from every position and with every sequence of counts; and
a read whose copy fails leaves the position alone. -/
theorem reads_return_contents {k : Kernel} (hk : k.Reachable) (fPos : Nat)
    (counts : Nat → Nat) (hcounts : ∀ i, 1 ≤ counts i) :
    (∃ n, ReadsToEnd counts fPos k n) ∧
    ∀ (env : CallEnv) (count p : Nat), env.notCopied ≠ 0 →
      (aesdRead env count p k).1.fPos = p :=
  ⟨hk.idle.reads_to_end counts fPos hcounts,
    fun _ count p hcopy => aesdRead_failed_fPos hk.idle (Or.inr hcopy) count p⟩

/-- A device that holds the line `"hi\n"`, read one byte at a time from its
second byte on. -/
theorem reads_return_one_line :
    ∃ n, ReadsToEnd (fun _ => 1) 1 (runCalls (fun p _ _ _ => ⟨0, p⟩) oneLineRun) n :=
  (reads_return_contents ⟨_, oneLineRun, rfl⟩ 1 (fun _ => 1) (fun _ => Nat.le_refl 1)).1

/-! ## The size of the file -/

/-- `get_total_size` is the number of bytes of the stored lines. -/
theorem getTotalSize_eq {k : Kernel} {frame : List Nat} (h : k.Owned frame) :
    getTotalSize k.dev.cBuffer = k.view.contents.length := by
  have hslots : (List.range 10).map (fun i => k.dev.cBuffer.slot i) = k.dev.cBuffer.entry := by
    have htake := Fifo.map_range_getD_eq_take k.dev.cBuffer.entry .zero
      (Nat.le_of_eq h.ring.length.symm)
    rwa [List.take_of_length_le (Nat.le_of_eq h.ring.length)] at htake
  have hfold : getTotalSize k.dev.cBuffer
      = ((k.dev.cBuffer.entry).map AesdBufferEntry.size).sum := by
    rw [← hslots, List.map_map, List.sum_eq_foldl, List.foldl_map]
    rfl
  rw [hfold, h.ring.sum_entry, h.map_size, Device.length_contents]

/-- A write without a newline completes no line. -/
theorem WriteCall.lines_run_of_noSep {c : WriteCall} {k : Kernel} (h : k.Owned [])
    (hbuf : endCharacter ∉ c.buf) : (c.run k).2.view.lines = k.view.lines := by
  rw [(aesdWrite_outcome c h).view, Device.feed_noSep]
  intro hmem
  exact hbuf ((Delimited.flatten_take_segments_prefix _ _ _).subset hmem)

/-! ## aesd_lseek -/

/-- `SEEK_SET`. -/
def seekSet : Int := 0

/-- `SEEK_END`. -/
def seekEnd : Int := 2

/-- Where `off` and `whence` point to in a file of `size` bytes. -/
def seekTarget (off whence : Int) (size : Nat) : Option Int :=
  if whence = seekSet then some off
  else if whence = seekEnd then some (size + off)
  else none

theorem seekTarget_end (off : Int) (size : Nat) :
    seekTarget off seekEnd size = some (size + off) := rfl

/-- What `fixed_size_llseek` does for `SEEK_SET` and `SEEK_END`: it moves
inside the file, its end included, and refuses to leave it. -/
structure FixedSizeLlseek (llseek : Nat → Int → Int → Nat → SeekResult) : Prop where
  inside : ∀ {fPos off whence size} {target : Nat},
    seekTarget off whence size = some (target : Int) → target ≤ size →
      llseek fPos off whence size = ⟨target, target⟩
  outside : ∀ {fPos off whence size target}, seekTarget off whence size = some target →
    (target < 0 ∨ (size : Int) < target) → llseek fPos off whence size = ⟨-eINVAL, fPos⟩

section Lseek

variable {k : Kernel} {llseek : Nat → Int → Int → Nat → SeekResult} {env : CallEnv}
  {off whence : Int}

theorem aesdLseek_inside (hl : FixedSizeLlseek llseek) (hint : env.interrupted = false)
    {target : Nat}
    (htarget : seekTarget off whence (getTotalSize k.dev.cBuffer) = some (target : Int))
    (hle : target ≤ getTotalSize k.dev.cBuffer) (fPos : Nat) :
    (aesdLseek llseek env off whence fPos k).1 = ⟨target, target⟩ := by
  simp only [aesdLseek, hint, Bool.false_eq_true, if_false]
  exact hl.inside htarget hle

theorem aesdLseek_outside (hl : FixedSizeLlseek llseek) {target : Int}
    (htarget : seekTarget off whence (getTotalSize k.dev.cBuffer) = some target)
    (hout : target < 0 ∨ (getTotalSize k.dev.cBuffer : Int) < target) (fPos : Nat) :
    (aesdLseek llseek env off whence fPos k).1.retval < 0 ∧
      (aesdLseek llseek env off whence fPos k).1.fPos = fPos := by
  unfold aesdLseek
  split
  · exact ⟨by show -eRESTARTSYS < 0; decide, rfl⟩
  · simp only [Kernel.mutexLock]
    rw [hl.outside htarget hout]
    exact ⟨by show -eINVAL < 0; decide, rfl⟩

end Lseek

/-- **The size for `aesd_lseek` is the reader's end of file.** -/
theorem lseek_agrees_with_read {k : Kernel} (hk : k.Reachable)
    {llseek : Nat → Int → Int → Nat → SeekResult} (hl : FixedSizeLlseek llseek) :
    let total := getTotalSize k.dev.cBuffer
    (∀ count, 0 < count → IsLeast {p | (aesdRead .ok count p k).1.retval = 0} total) ∧
    (total = k.view.contents.length ∧
      ∀ c : WriteCall, endCharacter ∉ c.buf →
        getTotalSize (c.run k).2.dev.cBuffer = total) ∧
    (∀ env : CallEnv, env.interrupted = false → ∀ n ≤ total, ∀ fPos,
      let sought := aesdLseek llseek env (-n) seekEnd fPos k
      (∀ counts, (∀ i, 1 ≤ counts i) → ∃ m, ReadsToEnd counts sought.1.fPos sought.2 m ∧
        (List.range m).flatMap (fun i => (readNumber counts sought.1.fPos sought.2 i).data)
          = k.view.contents.rtake n) ∧
      (aesdLseek llseek env n seekSet fPos k).1.fPos = n ∧
      (aesdLseek llseek env (n - total) seekEnd fPos k).1.fPos = n) ∧
    ∀ (env : CallEnv) (off whence target : Int) (fPos : Nat),
      seekTarget off whence total = some target → (target < 0 ∨ (total : Int) < target) →
      (aesdLseek llseek env off whence fPos k).1.retval < 0 ∧
        (aesdLseek llseek env off whence fPos k).1.fPos = fPos := by
  intro total
  have h := hk.idle
  have htotal : total = k.view.contents.length := getTotalSize_eq h.owned
  refine ⟨fun count hcount => ?_, ⟨htotal, fun c hc => ?_⟩, fun env hint n hn fPos => ?_,
    fun env off whence target fPos htarget hout => aesdLseek_outside hl htarget hout fPos⟩
  · have hzero : ∀ p, (aesdRead .ok count p k).1.retval = 0 ↔ total ≤ p := by
      intro p
      rw [h.aesdRead_ok, htotal, ← k.view.readAt_eq_nil_iff hcount, ← List.length_eq_zero_iff]
      exact Int.natCast_eq_zero
    exact ⟨(hzero total).mpr (Nat.le_refl _), fun p hp => (hzero p).mp hp⟩
  · rw [getTotalSize_eq (aesdWrite_outcome c h.owned).owned, htotal, Device.contents,
        WriteCall.lines_run_of_noSep h.owned hc]
    rfl
  · have hback : seekTarget (-n) seekEnd total = some ((total - n : Nat) : Int) := by
      rw [seekTarget_end]
      congr 1
      omega
    have hsame : seekTarget (n - total) seekEnd total = some (n : Int) := by
      rw [seekTarget_end]
      congr 1
      omega
    have hend : (aesdLseek llseek env (-n) seekEnd fPos k).1.fPos = total - n := by
      rw [aesdLseek_inside hl hint hback (Nat.sub_le _ _)]
    have hstate : (aesdLseek llseek env (-n) seekEnd fPos k).2 = k := by
      simp only [aesdLseek, hint, Bool.false_eq_true, if_false]
      exact h.lock_unlock
    refine ⟨fun counts hcounts => ?_, ?_, ?_⟩
    · obtain ⟨m, hm⟩ := h.reads_to_end counts
        (aesdLseek llseek env (-n) seekEnd fPos k).1.fPos hcounts
      rw [hstate]
      refine ⟨m, hm, ?_⟩
      rw [hm.delivers, hend, List.rtake, htotal]
    · have hset : seekTarget n seekSet total = some (n : Int) := rfl
      rw [aesdLseek_inside hl hint hset hn]
    · rw [aesdLseek_inside hl hint hsame hn]

/-- `SEEK_SET` and `SEEK_END` in a file of a fixed size. -/
def seekInside (fPos : Nat) (off whence : Int) (size : Nat) : SeekResult :=
  match seekTarget off whence size with
  | none => ⟨-eINVAL, fPos⟩
  | some target =>
    if target < 0 ∨ (size : Int) < target then ⟨-eINVAL, fPos⟩ else ⟨target, target.toNat⟩

theorem fixedSizeLlseek_seekInside : FixedSizeLlseek seekInside where
  inside := by
    intro fPos off whence size target htarget hle
    simp only [seekInside, htarget]
    rw [if_neg (by omega), Int.toNat_natCast]
  outside := by
    intro fPos off whence size target htarget hout
    simp only [seekInside, htarget]
    rw [if_pos hout]

/-- The last byte of `"hi\n"`, counted from the end. -/
theorem lseek_agrees_one_line :
    (aesdLseek seekInside .ok (2 - 3) seekEnd 0 (runCalls seekInside oneLineRun)).1.fPos = 2 :=
  ((lseek_agrees_with_read ⟨_, oneLineRun, rfl⟩ fixedSizeLlseek_seekInside).2.2.1 .ok rfl 2
    (by decide) 0).2.2

end Aesd.Driver

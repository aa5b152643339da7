/-
Aesd.Driver.CheckedSizes — the file operations of `aesd-char-driver/main.c`
once more, with every computation of a size or position checked against its
type.

Elsewhere sizes and positions are unbounded; here each sum and difference is
the operation of its C type (`size_t`, or `loff_t` and `long`), in the order
of the source, and a call is none where one of them would wrap.

The driver checks no bound. What keeps the computations in range is that each
stored size was once granted by `kmalloc`, which grants nothing above a bound:
`Kernel.Sized` says that of a state, and every write keeps it.
-/
import Aesd.Driver.Calls
import Aesd.Library.CheckedNat

namespace Aesd.Driver

/-- The values of `size_t` are below this. -/
def sizeT : Nat := 2 ^ 64

/-- The non-negative values of `loff_t`, and of `long`, are below this. -/
def loffT : Nat := 2 ^ 63

namespace Checked

open CheckedNat (add sub)

/-! ## The file operations -/

/-- The loop of the position search, with `n` iterations left. -/
def findEntryLoop (buffer : AesdCircularBuffer) (charOffset : Nat) :
    (n i accumulation : Nat) → Option (Option (Nat × Nat))
  | 0, _, _ => some none
  | n + 1, i, accumulation => do
    let currentElement := (i + buffer.inOffs) % aesdcharMaxWriteOperationsSupported
    if buffer.inOffs < buffer.outOffs ∧ buffer.inOffs > currentElement then return none
    else
      let currentSize := (buffer.slot currentElement).size
      let reached ← add sizeT accumulation currentSize
      if reached > charOffset then
        let entryOffset ← sub charOffset accumulation
        return some (currentElement, entryOffset)
      else findEntryLoop buffer charOffset n (i + 1) reached

/-- `aesd_circular_buffer_find_entry_offset_for_fpos`. -/
def findEntryOffsetForFpos (buffer : AesdCircularBuffer) (charOffset : Nat) :
    Option (Option (Nat × Nat)) :=
  findEntryLoop buffer charOffset aesdcharMaxWriteOperationsSupported 0 0

/-- `aesd_read`. -/
def aesdRead (env : CallEnv) (count fPos : Nat) (k : Kernel) : Option (ReadResult × Kernel) :=
  if env.interrupted then some (⟨-eRESTARTSYS, [], fPos⟩, k)
  else do
    let k := k.mutexLock
    match ← findEntryOffsetForFpos k.dev.cBuffer fPos with
    | none => return (⟨0, [], fPos⟩, k.mutexUnlock)
    | some (slot, entryOffset) =>
      let foundEntry := k.dev.cBuffer.slot slot
      let asked ← add sizeT count entryOffset
      let count ←
        if asked ≥ foundEntry.size then sub foundEntry.size entryOffset else some count
      let (data, k) := k.copyToUser env foundEntry.buffptr entryOffset count
      if env.notCopied ≠ 0 then return (⟨-eFAULT, data, fPos⟩, k.mutexUnlock)
      else
        let fPos ← add loffT fPos count
        return (⟨count, data, fPos⟩, k.mutexUnlock)

/-- `end - start + 1`. -/
def lineLength (start last : Nat) : Option Nat := do
  let length ← sub last start
  add sizeT length 1

/-- Lines 168–198: the line that ends at `last` is appended to
`partial_buffer`. -/
def extendLine (kmalloc : Kmalloc) (mem : Option Nat) (start last : Nat) (k : Kernel) :
    Option (Bool × Kernel) := do
  let partialBuffer := k.dev.partialBuffer
  if partialBuffer.size = 0 then
    let len ← lineLength start last
    let (buffptr, k) := k.kmalloc kmalloc len
    let k := k.setPartial { partialBuffer with buffptr }
    match buffptr with
    | none => return (false, k)
    | some _ =>
      let size ← lineLength start last
      return (true, (k.setPartial ⟨buffptr, size⟩).memcpy buffptr 0 mem start size)
  else
    let oldSize := partialBuffer.size
    let reach ← add sizeT oldSize last
    let reach ← sub reach start
    let newSize ← add sizeT reach 1
    let (newData, k) := k.kmalloc kmalloc newSize
    match newData with
    | none => return (false, k)
    | some _ =>
      let k := k.memcpy newData 0 partialBuffer.buffptr 0 oldSize
      let len ← lineLength start last
      let k := k.memcpy newData oldSize mem start len
      let k := k.kfree partialBuffer.buffptr
      return (true, k.setPartial ⟨newData, newSize⟩)

/-- Lines 217–249: the bytes after the last newline are appended to
`partial_buffer`. -/
def extendRest (kmalloc : Kmalloc) (mem : Option Nat) (start count : Nat) (k : Kernel) :
    Option (Bool × Kernel) := do
  let remaining ← sub count start
  let partialBuffer := k.dev.partialBuffer
  if partialBuffer.size = 0 then
    let (buffptr, k) := k.kmalloc kmalloc remaining
    let k := k.setPartial { partialBuffer with buffptr }
    match buffptr with
    | none => return (false, k)
    | some _ =>
      return (true, (k.setPartial ⟨buffptr, remaining⟩).memcpy buffptr 0 mem start remaining)
  else
    let newSize ← add sizeT partialBuffer.size remaining
    let (newData, k) := k.kmalloc kmalloc newSize
    match newData with
    | none => return (false, k)
    | some _ =>
      let k := k.memcpy newData 0 partialBuffer.buffptr 0 partialBuffer.size
      let k := k.memcpy newData partialBuffer.size mem start remaining
      let k := k.kfree partialBuffer.buffptr
      return (true, k.setPartial ⟨newData, newSize⟩)

/-- The newline loop, with `n` iterations left. -/
def writeLoop (kmalloc : Kmalloc) (mem : Option Nat) :
    (n j start : Nat) → Kernel → Option (Except Kernel (Nat × Kernel))
  | 0, _, start, k => some (.ok (start, k))
  | n + 1, j, start, k => do
    let next ← add sizeT j 1
    if k.heap.load mem j 1 = some [endCharacter] then
      match ← extendLine kmalloc mem start j k with
      | (false, k) => return .error k
      | (true, k) =>
        let start ← add sizeT j 1
        writeLoop kmalloc mem n next start (commitPartial k)
    else writeLoop kmalloc mem n next start k

def writeBody (kmalloc : Kmalloc) (mem : Option Nat) (count : Nat) (k : Kernel) :
    Option (Bool × Kernel) := do
  match ← writeLoop kmalloc mem count 0 0 k with
  | .error k => return (false, k)
  | .ok (start, k) =>
    if start < count then extendRest kmalloc mem start count k else return (true, k)

/-- `aesd_write`. -/
def aesdWrite (kmalloc : Kmalloc) (env : CallEnv) (buf : List UInt8) (k : Kernel) :
    Option (Int × Kernel) :=
  let count := buf.length
  if count = 0 then some (0, k)
  else if env.interrupted then some (-eRESTARTSYS, k)
  else
    let k := k.mutexLock
    match k.kmalloc kmalloc count with
    | (none, k) => some (-eNOMEM, k.mutexUnlock)
    | (some allocatedMemory, k) => do
      let k := k.copyFromUser env (some allocatedMemory) buf
      if env.notCopied ≠ 0 then
        return (-eFAULT, (k.kfree (some allocatedMemory)).mutexUnlock)
      else
        match ← writeBody kmalloc (some allocatedMemory) count k with
        | (false, k) => return (-eNOMEM, (k.kfree (some allocatedMemory)).mutexUnlock)
        | (true, k) => return (count, (k.kfree (some allocatedMemory)).mutexUnlock)

/-- `get_total_size`. -/
def getTotalSize (buffer : AesdCircularBuffer) : Option Nat :=
  (List.range aesdcharMaxWriteOperationsSupported).foldlM
    (fun size i => add loffT size (buffer.slot i).size) 0

/-- `aesd_lseek`. -/
def aesdLseek (fixedSizeLlseek : Nat → Int → Int → Nat → SeekResult) (env : CallEnv)
    (off whence : Int) (fPos : Nat) (k : Kernel) : Option (SeekResult × Kernel) :=
  if env.interrupted then some (⟨-eRESTARTSYS, fPos⟩, k)
  else do
    let k := k.mutexLock
    let totalSize ← getTotalSize k.dev.cBuffer
    let k := k.mutexUnlock
    return (fixedSizeLlseek fPos off whence totalSize, k)

/-- The loop of `adjust_aesd_file_offset`, with `n` iterations left. -/
def adjustLoop (buffer : AesdCircularBuffer) : (n i newPos : Nat) → Option (Option Nat)
  | 0, _, newPos => some (some newPos)
  | n + 1, i, newPos => do
    let e := buffer.slot ((i + buffer.outOffs) % aesdcharMaxWriteOperationsSupported)
    if e.buffptr = none ∧ e.size = 0 then return none
    else
      let newPos ← add loffT newPos e.size
      adjustLoop buffer n (i + 1) newPos

/-- `adjust_aesd_file_offset`. -/
def adjustAesdFileOffset (env : CallEnv) (writeCmd writeCmdOffset : UInt32) (fPos : Nat)
    (k : Kernel) : Option (SeekResult × Kernel) :=
  if env.interrupted then some (⟨-eRESTARTSYS, fPos⟩, k)
  else
    let k := k.mutexLock
    let buffer := k.dev.cBuffer
    if writeCmd.toNat ≥ aesdcharMaxWriteOperationsSupported then
      some (⟨-eINVAL, fPos⟩, k.mutexUnlock)
    else do
      let targetIndex :=
        (writeCmd.toNat + buffer.outOffs) % aesdcharMaxWriteOperationsSupported
      match ← adjustLoop buffer writeCmd.toNat 0 0 with
      | none => return (⟨-eINVAL, fPos⟩, k.mutexUnlock)
      | some newPos =>
        let target := buffer.slot targetIndex
        if target.buffptr = none ∨ writeCmdOffset.toNat ≥ target.size then
          return (⟨-eINVAL, fPos⟩, k.mutexUnlock)
        else
          let newPos ← add loffT newPos writeCmdOffset.toNat
          return (⟨newPos, newPos⟩, k.mutexUnlock)

/-- `aesd_ioctl`. -/
def aesdIoctl (env : CallEnv) (cmd : UInt32) (arg : AesdSeekto) (fPos : Nat) (k : Kernel) :
    Option (SeekResult × Kernel) :=
  if cmd = aesdcharIocseekto then
    if env.notCopied ≠ 0 then some (⟨-eFAULT, fPos⟩, k)
    else adjustAesdFileOffset env arg.writeCmd arg.writeCmdOffset fPos k
  else some (⟨-eNOTTY, fPos⟩, k)

end Checked

/-! ## What is stored was granted -/

/-- `kmalloc` refuses every request for more than `m` bytes. -/
def Kmalloc.Within (kmalloc : Kmalloc) (m : Nat) : Prop := ∀ i n, m < n → kmalloc i n = none

/-- No line of the ring and no partial line is longer than `m` bytes. -/
structure Kernel.Sized (k : Kernel) (m : Nat) : Prop where
  entry : ∀ e ∈ k.dev.cBuffer.entry, e.size ≤ m
  partialBuffer : k.dev.partialBuffer.size ≤ m

section Sized

variable {kmalloc : Kmalloc} {mem : Option Nat} {k : Kernel} {m : Nat}

theorem sized_init (m : Nat) : aesdInitModule.Sized m where
  entry := fun e he => by
    rw [List.eq_of_mem_replicate he]
    exact Nat.zero_le m
  partialBuffer := Nat.zero_le m

/-- Only the ring and the partial line count. -/
theorem Kernel.Sized.congr (h : k.Sized m) {k' : Kernel}
    (hring : k'.dev.cBuffer = k.dev.cBuffer) (hpart : k'.dev.partialBuffer = k.dev.partialBuffer) :
    k'.Sized m := ⟨hring ▸ h.entry, hpart ▸ h.partialBuffer⟩

theorem Kernel.Sized.slot (h : k.Sized m) (i : Nat) : (k.dev.cBuffer.slot i).size ≤ m := by
  rcases Nat.lt_or_ge i k.dev.cBuffer.entry.length with hi | hi
  · rw [AesdCircularBuffer.slot, List.getD_eq_getElem _ _ hi]
    exact h.entry _ (List.getElem_mem hi)
  · rw [AesdCircularBuffer.slot, List.getD_eq_default _ _ hi]
    exact Nat.zero_le m

theorem Kernel.Sized.sameButLock (h : k.Sized m) {k' : Kernel} (hs : k.SameButLock k') :
    k'.Sized m := by
  rcases hs with rfl | rfl <;> exact h.congr rfl rfl

/-- A granted request was within the bound. -/
theorem Kmalloc.Within.le (hw : kmalloc.Within m) {n id : Nat} {k' : Kernel}
    (h : k.kmalloc kmalloc n = (some id, k')) : n ≤ m := by
  by_contra hlt
  have hno := hw k.heap.next n (by omega)
  simp [Kernel.kmalloc, BlockHeap.alloc, hno] at h

theorem Kernel.Sized.alloc (h : k.Sized m) {n : Nat} {p : Option Nat} {k' : Kernel}
    (hk : k.kmalloc kmalloc n = (p, k')) : k'.Sized m := by
  unfold Kernel.kmalloc at hk
  cases hk
  exact h.congr rfl rfl

theorem sized_extendPartial (h : k.Sized m) (hw : kmalloc.Within m) (mem : Option Nat)
    (start len : Nat) :
    (extendPartial kmalloc mem start len k).2.Sized m := by
  by_cases hs : k.dev.partialBuffer.size = 0
  · cases hk : k.kmalloc kmalloc len with
    | mk buffptr k' =>
      simp only [extendPartial, hs, if_true, hk]
      cases buffptr with
      | none => exact ⟨(h.alloc hk).entry, Nat.zero_le m⟩
      | some id => exact ⟨(h.alloc hk).entry, hw.le hk⟩
  · cases hk : k.kmalloc kmalloc (k.dev.partialBuffer.size + len) with
    | mk newData k' =>
      simp only [extendPartial, hs, if_false, hk]
      cases newData with
      | none => exact h.alloc hk
      | some id => exact ⟨(h.alloc hk).entry, hw.le hk⟩

theorem sized_commitPartial (h : k.Sized m) : (commitPartial k).Sized m := by
  have hring : ∀ e ∈ k.dev.cBuffer.entry.set k.dev.cBuffer.inOffs k.dev.partialBuffer,
      e.size ≤ m := by
    intro e he
    rcases List.mem_or_eq_of_mem_set he with he | rfl
    · exact h.entry e he
    · exact h.partialBuffer
  unfold commitPartial aesdCircularBufferAddEntry
  cases k.dev.cBuffer.full <;> exact ⟨hring, Nat.zero_le m⟩

/-- The newline loop keeps the sizes, and `start` at the bytes it has passed. -/
theorem sized_writeLoop (hw : kmalloc.Within m) (h : k.Sized m) (mem : Option Nat)
    {j start : Nat} (hstart : start ≤ j) (n : Nat) :
    (∀ k', writeLoop kmalloc mem n j start k = .error k' → k'.Sized m) ∧
      ∀ start' k', writeLoop kmalloc mem n j start k = .ok (start', k') →
        k'.Sized m ∧ start' ≤ j + n := by
  induction n generalizing j start k with
  | zero =>
    refine ⟨nofun, fun start' k' heq => ?_⟩
    cases heq
    exact ⟨h, hstart⟩
  | succ n ih =>
    have hnext : j + (n + 1) = j + 1 + n := by omega
    unfold writeLoop
    rw [hnext]
    by_cases hnl : k.heap.load mem j 1 = some [endCharacter]
    · have hext := sized_extendPartial h hw mem start (j - start + 1)
      simp only [if_pos hnl]
      cases hk : extendPartial kmalloc mem start (j - start + 1) k with
      | mk granted k' =>
        rw [hk] at hext
        cases granted with
        | false =>
          refine ⟨fun k'' heq => ?_, nofun⟩
          cases heq
          exact hext
        | true => exact ih (sized_commitPartial hext) (Nat.le_refl _)
    · simp only [if_neg hnl]
      exact ih h (Nat.le_succ_of_le hstart)

theorem sized_writeBody (hw : kmalloc.Within m) (h : k.Sized m) (mem : Option Nat)
    (count : Nat) :
    (writeBody kmalloc mem count k).2.Sized m := by
  obtain ⟨herror, hok⟩ := sized_writeLoop hw h mem (Nat.le_refl 0) count
  unfold writeBody
  cases hloop : writeLoop kmalloc mem count 0 0 k with
  | error k' => exact herror k' hloop
  | ok q =>
    obtain ⟨start, k'⟩ := q
    obtain ⟨hsized, -⟩ := hok start k' hloop
    dsimp only
    split
    · exact sized_extendPartial hsized hw mem start _
    · exact hsized

theorem sized_aesdWrite (hw : kmalloc.Within m) (h : k.Sized m) (env : CallEnv)
    (buf : List UInt8) : (aesdWrite kmalloc env buf k).2.Sized m := by
  have hlocked : k.mutexLock.Sized m := h.congr rfl rfl
  unfold aesdWrite
  dsimp only
  split
  · exact h
  · split
    · exact h
    · cases hk : k.mutexLock.kmalloc kmalloc buf.length with
      | mk p k' =>
        have halloc : k'.Sized m := hlocked.alloc hk
        cases p with
        | none => exact halloc.congr rfl rfl
        | some id =>
          have hcopied : (k'.copyFromUser env (some id) buf).Sized m := halloc.congr rfl rfl
          have hbody := sized_writeBody hw hcopied (some id) buf.length
          dsimp only
          split
          · exact hcopied.congr rfl rfl
          · cases hrun : writeBody kmalloc (some id) buf.length
              (k'.copyFromUser env (some id) buf) with
            | mk ok k'' =>
              rw [hrun] at hbody
              cases ok <;> exact hbody.congr rfl rfl

end Sized

end Aesd.Driver

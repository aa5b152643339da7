/-
Aesd.Driver.CallSteps — the calls on the device, step by step.

A call is the sequence of what it does to the kernel state: every allocation,
copy, release and assignment, and every turn of a loop, is a step of its own,
and between two of them anybody else may run. The mutex of the device is the
only thing that keeps calls apart: `aesd_write`, `aesd_read`, `aesd_lseek` and
`adjust_aesd_file_offset` take it, and return early where that is interrupted.

`Call.run_op` says that the steps of a call, when nobody comes between them,
are the call; `Call.bracketed_op` that the mutex brackets them all.
-/
import Aesd.Library.Mutexes
import Aesd.Driver.Calls

namespace Aesd.Driver

open Mutexes

/-! ## The steps of a call -/

/-- What a task does with the kernel state, which the device's mutex guards. -/
abbrev Op (ρ : Type) := Prog Unit (fun _ => Kernel) ρ

variable {ρ α : Type}

/-- A statement. -/
def Op.does (f : Kernel → Kernel) (next : Op ρ) : Op ρ := .act () f fun _ => next

/-- A value read from the kernel state. -/
def Op.reads (g : Kernel → α) (next : α → Op ρ) : Op ρ := .act () id fun k => next (g k)

/-- A statement with a result. -/
def Op.calls (g : Kernel → α × Kernel) (next : α → Op ρ) : Op ρ :=
  .act () (fun k => (g k).2) fun k => next (g k).1

def Op.mutexLock (next : Op ρ) : Op ρ := .lock () (Op.does Kernel.mutexLock next)

/-- `mutex_unlock`, and the return after it. -/
def Op.mutexUnlock (r : ρ) : Op ρ := Op.does Kernel.mutexUnlock (.unlock () (.ret r))

/-- `extendPartial`, step by step. Lines 219–249 set the size after the copy. -/
def extendPartialOp (kmalloc : Kmalloc) (mem : Option Nat) (start len : Nat)
    (next : Bool → Op ρ) : Op ρ :=
  .reads (fun k => k.dev.partialBuffer.size) fun size =>
  if size = 0 then
    .calls (Kernel.kmalloc kmalloc len) fun buffptr =>
    .does (fun k => k.setPartial { k.dev.partialBuffer with buffptr }) <|
    match buffptr with
    | none => next false
    | some _ =>
      .does (fun k => k.setPartial { k.dev.partialBuffer with size := len }) <|
      .does (fun k => k.memcpy k.dev.partialBuffer.buffptr 0 mem start len) <|
      next true
  else
    .reads (fun k => k.dev.partialBuffer.size) fun oldSize =>
    .calls (Kernel.kmalloc kmalloc (oldSize + len)) fun newData =>
    match newData with
    | none => next false
    | some _ =>
      .does (fun k => k.memcpy newData 0 k.dev.partialBuffer.buffptr 0 oldSize) <|
      .does (fun k => k.memcpy newData oldSize mem start len) <|
      .does (fun k => k.kfree k.dev.partialBuffer.buffptr) <|
      .does (fun k => k.setPartial { k.dev.partialBuffer with buffptr := newData }) <|
      .does (fun k => k.setPartial { k.dev.partialBuffer with size := oldSize + len }) <|
      next true

/-- `commitPartial`, step by step. -/
def commitPartialOp (next : Op ρ) : Op ρ :=
  .calls (fun k =>
    let (oldEntry, cBuffer) := aesdCircularBufferAddEntry k.dev.cBuffer k.dev.partialBuffer
    (oldEntry, { k with dev := { k.dev with cBuffer } })) fun oldEntry =>
  let reset : Op ρ :=
    .does (fun k => k.setPartial { k.dev.partialBuffer with buffptr := none }) <|
    .does (fun k => k.setPartial { k.dev.partialBuffer with size := 0 }) next
  match oldEntry with
  | none => reset
  | some e => .does (Kernel.kfree e.buffptr) reset

/-- The newline loop, a byte at a time; it stops at the first refusal. -/
def writeLoopOp (kmalloc : Kmalloc) (mem : Option Nat) :
    (n j start : Nat) → (Option Nat → Op ρ) → Op ρ
  | 0, _, start, next => next (some start)
  | n + 1, j, start, next =>
    .reads (fun k => k.heap.load mem j 1) fun byte =>
    if byte = some [endCharacter] then
      extendPartialOp kmalloc mem start (j - start + 1) fun
        | false => next none
        | true => commitPartialOp (writeLoopOp kmalloc mem n (j + 1) (j + 1) next)
    else writeLoopOp kmalloc mem n (j + 1) start next

def writeBodyOp (kmalloc : Kmalloc) (mem : Option Nat) (count : Nat) (next : Bool → Op ρ) :
    Op ρ :=
  writeLoopOp kmalloc mem count 0 0 fun
    | none => next false
    | some start =>
      if start < count then extendPartialOp kmalloc mem start (count - start) next else next true

/-- `aesd_write`. -/
def aesdWriteOp (c : WriteCall) : Op Int :=
  let count := c.buf.length
  if count = 0 then .ret 0
  else if c.env.interrupted then .ret (-eRESTARTSYS)
  else
    .mutexLock <|
    .calls (Kernel.kmalloc c.kmalloc count) fun
    | none => .mutexUnlock (-eNOMEM)
    | some allocatedMemory =>
      .does (Kernel.copyFromUser c.env (some allocatedMemory) c.buf) <|
      if c.env.notCopied ≠ 0 then
        .does (Kernel.kfree (some allocatedMemory)) (.mutexUnlock (-eFAULT))
      else
        writeBodyOp c.kmalloc (some allocatedMemory) count fun ok =>
        .does (Kernel.kfree (some allocatedMemory)) <|
        .mutexUnlock (if ok then (count : Int) else -eNOMEM)

/-- The position search, a slot at a time. -/
def findEntryLoopOp (charOffset : Nat) :
    (n i accumulation : Nat) → (Option (Nat × Nat) → Op ρ) → Op ρ
  | 0, _, _, next => next none
  | n + 1, i, accumulation, next =>
    .reads (fun k => k.dev.cBuffer) fun buffer =>
    let currentElement := (i + buffer.inOffs) % aesdcharMaxWriteOperationsSupported
    if buffer.inOffs < buffer.outOffs ∧ buffer.inOffs > currentElement then next none
    else
      let currentSize := (buffer.slot currentElement).size
      if accumulation + currentSize > charOffset then
        next (some (currentElement, charOffset - accumulation))
      else findEntryLoopOp charOffset n (i + 1) (accumulation + currentSize) next

/-- `aesd_read`. -/
def aesdReadOp (env : CallEnv) (count fPos : Nat) : Op ReadResult :=
  if env.interrupted then .ret ⟨-eRESTARTSYS, [], fPos⟩
  else
    .mutexLock <|
    findEntryLoopOp fPos aesdcharMaxWriteOperationsSupported 0 0 fun
    | none => .mutexUnlock ⟨0, [], fPos⟩
    | some (slot, entryOffset) =>
      .reads (fun k => (k.dev.cBuffer.slot slot).size) fun size =>
      let count := if count + entryOffset ≥ size then size - entryOffset else count
      .calls (fun k => k.copyToUser env (k.dev.cBuffer.slot slot).buffptr entryOffset count)
        fun data =>
      .mutexUnlock (if env.notCopied ≠ 0 then ⟨-eFAULT, data, fPos⟩
        else ⟨count, data, fPos + count⟩)

/-- `get_total_size`, a slot at a time. -/
def getTotalSizeOp : (slots : List Nat) → (size : Nat) → (Nat → Op ρ) → Op ρ
  | [], size, next => next size
  | i :: slots, size, next =>
    .reads (fun k => (k.dev.cBuffer.slot i).size) fun entrySize =>
    getTotalSizeOp slots (size + entrySize) next

/-- `aesd_lseek`; the position is the file's own. -/
def aesdLseekOp (fixedSizeLlseek : Nat → Int → Int → Nat → SeekResult) (env : CallEnv)
    (off whence : Int) (fPos : Nat) : Op SeekResult :=
  if env.interrupted then .ret ⟨-eRESTARTSYS, fPos⟩
  else
    .mutexLock <|
    getTotalSizeOp (List.range aesdcharMaxWriteOperationsSupported) 0 fun totalSize =>
    .mutexUnlock (fixedSizeLlseek fPos off whence totalSize)

/-- The loop of `adjust_aesd_file_offset`, a slot at a time. -/
def adjustLoopOp : (n i newPos : Nat) → (Option Nat → Op ρ) → Op ρ
  | 0, _, newPos, next => next (some newPos)
  | n + 1, i, newPos, next =>
    .reads (fun k => k.dev.cBuffer.slot
      ((i + k.dev.cBuffer.outOffs) % aesdcharMaxWriteOperationsSupported)) fun e =>
    if e.buffptr = none ∧ e.size = 0 then next none
    else adjustLoopOp n (i + 1) (newPos + e.size) next

/-- `adjust_aesd_file_offset`. -/
def adjustAesdFileOffsetOp (env : CallEnv) (writeCmd writeCmdOffset : UInt32) (fPos : Nat) :
    Op SeekResult :=
  if env.interrupted then .ret ⟨-eRESTARTSYS, fPos⟩
  else
    .mutexLock <|
    if writeCmd.toNat ≥ aesdcharMaxWriteOperationsSupported then .mutexUnlock ⟨-eINVAL, fPos⟩
    else
      .reads (fun k => (writeCmd.toNat + k.dev.cBuffer.outOffs)
        % aesdcharMaxWriteOperationsSupported) fun targetIndex =>
      adjustLoopOp writeCmd.toNat 0 0 fun
      | none => .mutexUnlock ⟨-eINVAL, fPos⟩
      | some newPos =>
        .reads (fun k => k.dev.cBuffer.slot targetIndex) fun target =>
        if target.buffptr = none ∨ writeCmdOffset.toNat ≥ target.size then
          .mutexUnlock ⟨-eINVAL, fPos⟩
        else
          .mutexUnlock ⟨(newPos + writeCmdOffset.toNat : Nat), newPos + writeCmdOffset.toNat⟩

/-- `aesd_ioctl`. -/
def aesdIoctlOp (env : CallEnv) (cmd : UInt32) (arg : AesdSeekto) (fPos : Nat) : Op SeekResult :=
  if cmd = aesdcharIocseekto then
    if env.notCopied ≠ 0 then .ret ⟨-eFAULT, fPos⟩
    else adjustAesdFileOffsetOp env arg.writeCmd arg.writeCmdOffset fPos
  else .ret ⟨-eNOTTY, fPos⟩

/-! ## The steps without interruption -/

/-- The steps of a call, one after the other. -/
def Op.run (op : Op ρ) (k : Kernel) : ρ × Kernel :=
  let (r, shared) := exec op fun _ => k
  (r, shared ())

theorem exec_eq (op : Op ρ) (shared : Unit → Kernel) :
    exec op shared = ((op.run (shared ())).1, fun _ => (op.run (shared ())).2) := rfl

@[simp] theorem Op.run_ret (r : ρ) (k : Kernel) : Op.run (.ret r) k = (r, k) := rfl

theorem Op.run_act (f : Kernel → Kernel) (next : Kernel → Op ρ) (k : Kernel) :
    Op.run (.act () f next) k = (next k).run (f k) := by
  have hupdate : Function.update (fun _ : Unit => k) () (f k) = fun _ => f k := by
    funext u
    simp
  simp only [Op.run, exec, hupdate]

@[simp] theorem Op.run_does (f : Kernel → Kernel) (next : Op ρ) (k : Kernel) :
    (Op.does f next).run k = next.run (f k) := Op.run_act ..

@[simp] theorem Op.run_reads (g : Kernel → α) (next : α → Op ρ) (k : Kernel) :
    (Op.reads g next).run k = (next (g k)).run k := Op.run_act ..

@[simp] theorem Op.run_calls (g : Kernel → α × Kernel) (next : α → Op ρ) (k : Kernel) :
    (Op.calls g next).run k = (next (g k).1).run (g k).2 := Op.run_act ..

@[simp] theorem Op.run_mutexLock (next : Op ρ) (k : Kernel) :
    next.mutexLock.run k = next.run k.mutexLock := Op.run_does ..

@[simp] theorem Op.run_mutexUnlock (r : ρ) (k : Kernel) :
    (Op.mutexUnlock r).run k = (r, k.mutexUnlock) := Op.run_does ..

theorem run_extendPartialOp (kmalloc : Kmalloc) (mem : Option Nat) (start len : Nat)
    (next : Bool → Op ρ) (k : Kernel) :
    (extendPartialOp kmalloc mem start len next).run k
      = (next (extendPartial kmalloc mem start len k).1).run
          (extendPartial kmalloc mem start len k).2 := by
  unfold extendPartialOp extendPartial
  by_cases hsize : k.dev.partialBuffer.size = 0
  · simp only [Op.run_reads, hsize, if_true, Op.run_calls, Op.run_does]
    cases hp : k.kmalloc kmalloc len with
    | mk p k' =>
      have hdev : k'.dev = k.dev := congrArg (fun q => q.2.dev) hp.symm
      cases p <;> simp [Kernel.setPartial, Kernel.memcpy, hdev, hsize]
  · simp only [Op.run_reads, hsize, if_false, Op.run_calls]
    cases hp : k.kmalloc kmalloc (k.dev.partialBuffer.size + len) with
    | mk p k' =>
      have hdev : k'.dev = k.dev := congrArg (fun q => q.2.dev) hp.symm
      cases p <;> simp [Kernel.setPartial, Kernel.memcpy, Kernel.kfree, hdev]

theorem run_commitPartialOp (next : Op ρ) (k : Kernel) :
    (commitPartialOp next).run k = next.run (commitPartial k) := by
  simp only [commitPartialOp, commitPartial, Op.run_calls]
  cases (aesdCircularBufferAddEntry k.dev.cBuffer k.dev.partialBuffer).1 <;>
    simp [Kernel.setPartial, Kernel.kfree, AesdBufferEntry.zero]

/-- What the rest of the call starts from, after the newline loop. -/
def afterLoop : Except Kernel (Nat × Kernel) → Option Nat × Kernel
  | .error k => (none, k)
  | .ok (start, k) => (some start, k)

theorem run_writeLoopOp (kmalloc : Kmalloc) (mem : Option Nat) (n : Nat) :
    ∀ (j start : Nat) (next : Option Nat → Op ρ) (k : Kernel),
    (writeLoopOp kmalloc mem n j start next).run k
      = (next (afterLoop (writeLoop kmalloc mem n j start k)).1).run
          (afterLoop (writeLoop kmalloc mem n j start k)).2 := by
  induction n with
  | zero => intro j start next k; rfl
  | succ n ih =>
    intro j start next k
    simp only [writeLoopOp, writeLoop, Op.run_reads]
    split
    · rw [run_extendPartialOp]
      cases extendPartial kmalloc mem start (j - start + 1) k with
      | mk ok k' =>
        cases ok with
        | false => rfl
        | true => simp only [run_commitPartialOp, ih]
    · exact ih ..

theorem run_writeBodyOp (kmalloc : Kmalloc) (mem : Option Nat) (count : Nat)
    (next : Bool → Op ρ) (k : Kernel) :
    (writeBodyOp kmalloc mem count next).run k
      = (next (writeBody kmalloc mem count k).1).run (writeBody kmalloc mem count k).2 := by
  rw [writeBodyOp, writeBody, run_writeLoopOp]
  cases writeLoop kmalloc mem count 0 0 k with
  | error k' => rfl
  | ok q =>
    simp only [afterLoop]
    split
    · exact run_extendPartialOp ..
    · rfl

theorem run_aesdWriteOp (c : WriteCall) (k : Kernel) : (aesdWriteOp c).run k = c.run k := by
  unfold aesdWriteOp WriteCall.run aesdWrite
  by_cases hcount : c.buf.length = 0
  · simp [hcount]
  · by_cases hint : c.env.interrupted = true
    · simp [hcount, hint]
    · simp only [hcount, hint, if_false, Op.run_mutexLock, Op.run_calls, Bool.false_eq_true]
      cases k.mutexLock.kmalloc c.kmalloc c.buf.length with
      | mk p k' =>
        cases p with
        | none => rfl
        | some mem =>
          simp only [Op.run_does]
          split
          · rfl
          · rw [run_writeBodyOp]
            cases writeBody c.kmalloc (some mem) c.buf.length
              (k'.copyFromUser c.env (some mem) c.buf) with
            | mk ok k'' => cases ok <;> rfl

theorem run_findEntryLoopOp (charOffset : Nat) (k : Kernel) (n : Nat) :
    ∀ (i accumulation : Nat) (next : Option (Nat × Nat) → Op ρ),
    (findEntryLoopOp charOffset n i accumulation next).run k
      = (next (findEntryLoop k.dev.cBuffer charOffset n i accumulation)).run k := by
  induction n with
  | zero => intro i accumulation next; rfl
  | succ n ih =>
    intro i accumulation next
    simp only [findEntryLoopOp, findEntryLoop, Op.run_reads]
    split
    · rfl
    · split
      · rfl
      · exact ih ..

theorem run_aesdReadOp (env : CallEnv) (count fPos : Nat) (k : Kernel) :
    (aesdReadOp env count fPos).run k = aesdRead env count fPos k := by
  unfold aesdReadOp aesdRead
  split
  · rfl
  · rw [Op.run_mutexLock, run_findEntryLoopOp]
    simp only [aesdCircularBufferFindEntryOffsetForFpos]
    cases findEntryLoop k.mutexLock.dev.cBuffer fPos aesdcharMaxWriteOperationsSupported 0 0 with
    | none => rfl
    | some q =>
      simp only [Op.run_reads, Op.run_calls, Op.run_mutexUnlock]
      split <;> rfl

theorem run_getTotalSizeOp (k : Kernel) (slots : List Nat) :
    ∀ (size : Nat) (next : Nat → Op ρ),
    (getTotalSizeOp slots size next).run k
      = (next (slots.foldl (fun size i => size + (k.dev.cBuffer.slot i).size) size)).run k := by
  induction slots with
  | nil => intro size next; rfl
  | cons i slots ih =>
    intro size next
    rw [getTotalSizeOp, Op.run_reads, List.foldl_cons]
    exact ih ..

theorem run_aesdLseekOp (llseek : Nat → Int → Int → Nat → SeekResult) (env : CallEnv)
    (off whence : Int) (fPos : Nat) (k : Kernel) :
    (aesdLseekOp llseek env off whence fPos).run k = aesdLseek llseek env off whence fPos k := by
  unfold aesdLseekOp aesdLseek
  split
  · rfl
  · rw [Op.run_mutexLock, run_getTotalSizeOp]
    rfl

theorem run_adjustLoopOp (k : Kernel) (n : Nat) : ∀ (i newPos : Nat) (next : Option Nat → Op ρ),
    (adjustLoopOp n i newPos next).run k
      = (next (adjustLoop k.dev.cBuffer n i newPos)).run k := by
  induction n with
  | zero => intro i newPos next; rfl
  | succ n ih =>
    intro i newPos next
    simp only [adjustLoopOp, adjustLoop, Op.run_reads]
    split
    · rfl
    · exact ih ..

theorem run_adjustAesdFileOffsetOp (env : CallEnv) (writeCmd writeCmdOffset : UInt32)
    (fPos : Nat) (k : Kernel) :
    (adjustAesdFileOffsetOp env writeCmd writeCmdOffset fPos).run k
      = adjustAesdFileOffset env writeCmd writeCmdOffset fPos k := by
  unfold adjustAesdFileOffsetOp adjustAesdFileOffset
  split
  · rfl
  · rw [Op.run_mutexLock]
    dsimp only
    split
    · rfl
    · rw [Op.run_reads, run_adjustLoopOp]
      cases adjustLoop k.mutexLock.dev.cBuffer writeCmd.toNat 0 0 with
      | none => rfl
      | some newPos =>
        simp only [Op.run_reads]
        split <;> rfl

theorem run_aesdIoctlOp (env : CallEnv) (cmd : UInt32) (arg : AesdSeekto) (fPos : Nat)
    (k : Kernel) : (aesdIoctlOp env cmd arg fPos).run k = aesdIoctl env cmd arg fPos k := by
  unfold aesdIoctlOp aesdIoctl
  split
  · split
    · rfl
    · exact run_adjustAesdFileOffsetOp ..
  · rfl

/-! ## The mutex around the steps -/

/-- A statement that strikes no fault of the heap from the record. -/
def KeepsFaults (f : Kernel → Kernel) : Prop := ∀ k, k.heap.faults <:+ (f k).heap.faults

theorem keepsFaults_of_heap {f : Kernel → Kernel} (h : ∀ k, (f k).heap.faults = k.heap.faults) :
    KeepsFaults f := fun k => by rw [h k]

theorem keepsFaults_kmalloc (kmalloc : Kmalloc) (n : Nat) :
    KeepsFaults fun k => (k.kmalloc kmalloc n).2 :=
  keepsFaults_of_heap fun k => by
    unfold Kernel.kmalloc BlockHeap.alloc
    cases kmalloc k.heap.next n <;> rfl

theorem keepsFaults_copyToUser (env : CallEnv) (src : Kernel → Option Nat) (srcOff n : Nat) :
    KeepsFaults fun k => (k.copyToUser env (src k) srcOff n).2 := by
  intro k
  dsimp only [Kernel.copyToUser]
  split
  · exact List.suffix_cons ..
  · exact List.suffix_rfl

/-- What is left of a call that holds the mutex: it gives it back and returns. -/
structure Op.Locked (op : Op ρ) : Prop where
  isSection : IsSection () op
  keeps : op.All fun _ => KeepsFaults

theorem Op.Locked.does {f : Kernel → Kernel} {next : Op ρ} (hf : KeepsFaults f) (h : next.Locked) :
    (Op.does f next).Locked := ⟨⟨rfl, fun _ => h.isSection⟩, hf, fun _ => h.keeps⟩

theorem Op.Locked.reads {g : Kernel → α} {next : α → Op ρ} (h : ∀ x, (next x).Locked) :
    (Op.reads g next).Locked :=
  ⟨⟨rfl, fun k => (h (g k)).isSection⟩, keepsFaults_of_heap fun _ => rfl,
    fun k => (h (g k)).keeps⟩

theorem Op.Locked.calls {g : Kernel → α × Kernel} {next : α → Op ρ}
    (hg : KeepsFaults fun k => (g k).2) (h : ∀ x, (next x).Locked) : (Op.calls g next).Locked :=
  ⟨⟨rfl, fun k => (h (g k).1).isSection⟩, hg, fun k => (h (g k).1).keeps⟩

/-- A statement on the fields of the device. -/
theorem Op.Locked.sets {f : Kernel → Kernel} {next : Op ρ} (h : next.Locked)
    (hf : ∀ k, (f k).heap.faults = k.heap.faults) : (Op.does f next).Locked :=
  h.does (keepsFaults_of_heap hf)

theorem Op.locked_mutexUnlock (r : ρ) : (Op.mutexUnlock r).Locked :=
  .does (keepsFaults_of_heap fun _ => rfl) ⟨⟨rfl, r, rfl⟩, trivial⟩

/-- A call in the brackets of the mutex, or one that returns before them. -/
structure Op.Bracketed (op : Op ρ) : Prop where
  isCall : IsCall op
  keeps : op.All fun _ => KeepsFaults

theorem Op.bracketed_ret (r : ρ) : Op.Bracketed (.ret r) := ⟨.ret r, trivial⟩

theorem Op.Locked.mutexLock {next : Op ρ} (h : next.Locked) : Op.Bracketed next.mutexLock :=
  have hset : (Op.does Kernel.mutexLock next).Locked := h.sets fun _ => rfl
  ⟨.locked () hset.isSection, hset.keeps⟩

theorem Op.Bracketed.map {op : Op ρ} (h : op.Bracketed) (f : ρ → α) :
    Op.Bracketed (op.bind fun r => .ret (f r)) :=
  ⟨h.isCall.map f, h.keeps.bind fun _ => trivial⟩

theorem locked_extendPartialOp (kmalloc : Kmalloc) (mem : Option Nat) (start len : Nat)
    {next : Bool → Op ρ} (h : ∀ ok, (next ok).Locked) :
    (extendPartialOp kmalloc mem start len next).Locked := by
  refine .reads fun size => ?_
  split
  · refine .calls (keepsFaults_kmalloc _ _) fun buffptr => .sets ?_ fun _ => rfl
    cases buffptr with
    | none => exact h false
    | some _ => exact .sets (.does (fun k => BlockHeap.faults_copy ..) (h true)) fun _ => rfl
  · refine .reads fun oldSize => .calls (keepsFaults_kmalloc _ _) fun newData => ?_
    cases newData with
    | none => exact h false
    | some _ =>
      refine .does (fun k => BlockHeap.faults_copy ..) ?_
      refine .does (fun k => BlockHeap.faults_copy ..) ?_
      refine .does (fun k => BlockHeap.faults_free ..) (.sets (.sets (h true) ?_) ?_)
      · exact fun _ => rfl
      · exact fun _ => rfl

theorem locked_commitPartialOp {next : Op ρ} (h : next.Locked) : (commitPartialOp next).Locked := by
  have hreset := (h.sets (f := fun k => k.setPartial { k.dev.partialBuffer with size := 0 })
    fun _ => rfl).sets (f := fun k => k.setPartial { k.dev.partialBuffer with buffptr := none })
    fun _ => rfl
  refine .calls (keepsFaults_of_heap fun _ => rfl) fun oldEntry => ?_
  cases oldEntry with
  | none => exact hreset
  | some e => exact .does (fun k => BlockHeap.faults_free ..) hreset

theorem locked_writeLoopOp (kmalloc : Kmalloc) (mem : Option Nat) (n : Nat) :
    ∀ (j start : Nat) {next : Option Nat → Op ρ}, (∀ r, (next r).Locked) →
    (writeLoopOp kmalloc mem n j start next).Locked := by
  induction n with
  | zero => intro j start next h; exact h (some start)
  | succ n ih =>
    intro j start next h
    refine .reads fun byte => ?_
    split
    · refine locked_extendPartialOp _ _ _ _ fun ok => ?_
      cases ok with
      | false => exact h none
      | true => exact locked_commitPartialOp (ih _ _ h)
    · exact ih _ _ h

theorem locked_writeBodyOp (kmalloc : Kmalloc) (mem : Option Nat) (count : Nat)
    {next : Bool → Op ρ} (h : ∀ ok, (next ok).Locked) :
    (writeBodyOp kmalloc mem count next).Locked := by
  refine locked_writeLoopOp _ _ _ _ _ fun r => ?_
  cases r with
  | none => exact h false
  | some start =>
    dsimp only
    split
    · exact locked_extendPartialOp _ _ _ _ h
    · exact h true

theorem bracketed_aesdWriteOp (c : WriteCall) : Op.Bracketed (aesdWriteOp c) := by
  unfold aesdWriteOp
  dsimp only
  split
  · exact Op.bracketed_ret 0
  · split
    · exact Op.bracketed_ret _
    · refine Op.Locked.mutexLock (.calls (keepsFaults_kmalloc _ _) fun p => ?_)
      cases p with
      | none => exact Op.locked_mutexUnlock _
      | some mem =>
        have hfree : KeepsFaults (Kernel.kfree (some mem)) := fun k => BlockHeap.faults_free ..
        refine .does (fun k => BlockHeap.faults_store ..) ?_
        split
        · exact .does hfree (Op.locked_mutexUnlock _)
        · exact locked_writeBodyOp _ _ _ fun ok => .does hfree (Op.locked_mutexUnlock _)

theorem locked_findEntryLoopOp (charOffset : Nat) (n : Nat) :
    ∀ (i accumulation : Nat) {next : Option (Nat × Nat) → Op ρ}, (∀ r, (next r).Locked) →
    (findEntryLoopOp charOffset n i accumulation next).Locked := by
  induction n with
  | zero => intro i accumulation next h; exact h none
  | succ n ih =>
    intro i accumulation next h
    refine .reads fun buffer => ?_
    dsimp only
    split
    · exact h none
    · split
      · exact h _
      · exact ih _ _ h

theorem bracketed_aesdReadOp (env : CallEnv) (count fPos : Nat) :
    Op.Bracketed (aesdReadOp env count fPos) := by
  unfold aesdReadOp
  split
  · exact Op.bracketed_ret _
  · refine (locked_findEntryLoopOp _ _ _ _ fun r => ?_).mutexLock
    cases r with
    | none => exact Op.locked_mutexUnlock _
    | some q =>
      refine .reads fun size => .calls ?_ fun data => Op.locked_mutexUnlock _
      exact keepsFaults_copyToUser env (fun k => (k.dev.cBuffer.slot q.1).buffptr) _ _

theorem locked_getTotalSizeOp (slots : List Nat) :
    ∀ (size : Nat) {next : Nat → Op ρ}, (∀ r, (next r).Locked) →
    (getTotalSizeOp slots size next).Locked := by
  induction slots with
  | nil => intro size next h; exact h size
  | cons i slots ih => intro size next h; exact .reads fun entrySize => ih _ h

theorem bracketed_aesdLseekOp (llseek : Nat → Int → Int → Nat → SeekResult) (env : CallEnv)
    (off whence : Int) (fPos : Nat) : Op.Bracketed (aesdLseekOp llseek env off whence fPos) := by
  unfold aesdLseekOp
  split
  · exact Op.bracketed_ret _
  · exact (locked_getTotalSizeOp _ _ fun totalSize => Op.locked_mutexUnlock _).mutexLock

theorem locked_adjustLoopOp (n : Nat) : ∀ (i newPos : Nat) {next : Option Nat → Op ρ},
    (∀ r, (next r).Locked) → (adjustLoopOp n i newPos next).Locked := by
  induction n with
  | zero => intro i newPos next h; exact h _
  | succ n ih =>
    intro i newPos next h
    refine .reads fun e => ?_
    split
    · exact h none
    · exact ih _ _ h

theorem bracketed_aesdIoctlOp (env : CallEnv) (cmd : UInt32) (arg : AesdSeekto) (fPos : Nat) :
    Op.Bracketed (aesdIoctlOp env cmd arg fPos) := by
  unfold aesdIoctlOp adjustAesdFileOffsetOp
  split
  · split
    · exact Op.bracketed_ret _
    · split
      · exact Op.bracketed_ret _
      · refine Op.Locked.mutexLock ?_
        split
        · exact Op.locked_mutexUnlock _
        · refine .reads fun targetIndex => locked_adjustLoopOp _ _ _ fun r => ?_
          cases r with
          | none => exact Op.locked_mutexUnlock _
          | some newPos =>
            refine .reads fun target => ?_
            split <;> exact Op.locked_mutexUnlock _
  · exact Op.bracketed_ret _

/-! ## Any call -/

/-- What a call tells its task. -/
inductive CallResult where
  | wrote (retval : Int)
  | read (r : ReadResult)
  | moved (r : SeekResult)

def Call.result (llseek : Nat → Int → Int → Nat → SeekResult) (k : Kernel) : Call → CallResult
  | .write c => .wrote (c.run k).1
  | .read env count fPos => .read (aesdRead env count fPos k).1
  | .lseek env off whence fPos => .moved (aesdLseek llseek env off whence fPos k).1
  | .ioctl env cmd arg fPos => .moved (aesdIoctl env cmd arg fPos k).1

def Call.op (llseek : Nat → Int → Int → Nat → SeekResult) : Call → Op CallResult
  | .write c => (aesdWriteOp c).bind fun r => .ret (.wrote r)
  | .read env count fPos => (aesdReadOp env count fPos).bind fun r => .ret (.read r)
  | .lseek env off whence fPos =>
    (aesdLseekOp llseek env off whence fPos).bind fun r => .ret (.moved r)
  | .ioctl env cmd arg fPos => (aesdIoctlOp env cmd arg fPos).bind fun r => .ret (.moved r)

theorem Op.run_bind_ret (op : Op ρ) (f : ρ → α) (k : Kernel) :
    Op.run (op.bind fun r => .ret (f r)) k = (f (op.run k).1, (op.run k).2) := by
  simp only [Op.run, exec_bind, exec]

/-- **The steps of a call are the call.** -/
theorem Call.run_op (llseek : Nat → Int → Int → Nat → SeekResult) (call : Call) (k : Kernel) :
    (call.op llseek).run k = (call.result llseek k, call.run llseek k) := by
  cases call with
  | write c => rw [op, Op.run_bind_ret, run_aesdWriteOp]; rfl
  | read env count fPos => rw [op, Op.run_bind_ret, run_aesdReadOp]; rfl
  | lseek env off whence fPos => rw [op, Op.run_bind_ret, run_aesdLseekOp]; rfl
  | ioctl env cmd arg fPos => rw [op, Op.run_bind_ret, run_aesdIoctlOp]; rfl

theorem Call.bracketed_op (llseek : Nat → Int → Int → Nat → SeekResult) (call : Call) :
    Op.Bracketed (call.op llseek) := by
  cases call with
  | write c => exact (bracketed_aesdWriteOp c).map _
  | read env count fPos => exact (bracketed_aesdReadOp env count fPos).map _
  | lseek env off whence fPos => exact (bracketed_aesdLseekOp llseek env off whence fPos).map _
  | ioctl env cmd arg fPos => exact (bracketed_aesdIoctlOp env cmd arg fPos).map _

end Aesd.Driver

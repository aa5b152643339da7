/-
Aesd.Driver.CharDevice — the file operations of `aesd-char-driver/main.c`.

A call runs on the kernel state: the heap of allocated buffers and the one
`struct aesd_dev`. What the source cannot control is a parameter of the
call:

* `Kmalloc` answers every allocation request of a run, in order: a refusal,
  or the bytes the fresh memory happens to hold;
* `CallEnv` says whether `mutex_lock_interruptible` is interrupted, and how
  many bytes `copy_from_user` or `copy_to_user` leaves uncopied.

Sizes and positions are unbounded `Nat`. Return values are `Int`, errors
negative as in the source. `printk` and `PDEBUG` are left out, and so is
the file position of `aesd_write`, which it only prints.
-/
import Aesd.Library.BlockHeap
import Aesd.Driver.CircularBuffer

namespace Aesd.Driver

/-! ## State -/

/-- `struct aesd_dev`, with `lock` true while the mutex is held. -/
structure AesdDev where
  lock : Bool
  cBuffer : AesdCircularBuffer
  partialBuffer : AesdBufferEntry

/-- What the driver's calls read and change. -/
structure Kernel where
  heap : BlockHeap UInt8
  dev : AesdDev

/-- The answer to the `i`-th allocation request, which asks for `n` bytes:
refused, or the bytes found in the fresh memory. -/
abbrev Kmalloc := Nat → Nat → Option (Nat → UInt8)

/-- The outcome of the lock and copy calls of one system call. -/
structure CallEnv where
  interrupted : Bool
  notCopied : Nat
  deriving DecidableEq, Repr

/-- A call in which the lock is taken and every byte is copied. -/
def CallEnv.ok : CallEnv := ⟨false, 0⟩

def eNOMEM : Int := 12
def eFAULT : Int := 14
def eINVAL : Int := 22
def eNOTTY : Int := 25
def eRESTARTSYS : Int := 512

/-- `END_CHARACTER`. -/
def endCharacter : UInt8 := 10

/-! ## Kernel services -/

def Kernel.mutexLock (k : Kernel) : Kernel := { k with dev := { k.dev with lock := true } }

def Kernel.mutexUnlock (k : Kernel) : Kernel := { k with dev := { k.dev with lock := false } }

def Kernel.kmalloc (kmalloc : Kmalloc) (n : Nat) (k : Kernel) : Option Nat × Kernel :=
  let (p, heap) := k.heap.alloc (kmalloc k.heap.next n) n
  (p, { k with heap })

def Kernel.kfree (p : Option Nat) (k : Kernel) : Kernel := { k with heap := k.heap.free p }

def Kernel.memcpy (dst : Option Nat) (dstOff : Nat) (src : Option Nat) (srcOff n : Nat)
    (k : Kernel) : Kernel :=
  { k with heap := k.heap.copy dst dstOff src srcOff n }

/-- `copy_from_user` into a kernel buffer. -/
def Kernel.copyFromUser (env : CallEnv) (dst : Option Nat) (buf : List UInt8) (k : Kernel) :
    Kernel :=
  { k with heap := k.heap.store dst 0 (buf.take (buf.length - env.notCopied)) }

/-- `copy_to_user` of `n` bytes of a kernel buffer: the bytes the user gets. -/
def Kernel.copyToUser (env : CallEnv) (src : Option Nat) (srcOff n : Nat) (k : Kernel) :
    List UInt8 × Kernel :=
  match k.heap.load src srcOff n with
  | none => ([], { k with heap := { k.heap with faults := .outOfBounds :: k.heap.faults } })
  | some bytes => (bytes.take (n - env.notCopied), k)

def Kernel.setPartial (e : AesdBufferEntry) (k : Kernel) : Kernel :=
  { k with dev := { k.dev with partialBuffer := e } }

/-! ## aesd_write -/

/-- Append `len` bytes of `mem` from `start` on to `partial_buffer`, in a
buffer of its own: lines 168–198 with `len = end - start + 1` and lines
219–249 with `len = remaining`. False when the allocation is refused. -/
def extendPartial (kmalloc : Kmalloc) (mem : Option Nat) (start len : Nat) (k : Kernel) :
    Bool × Kernel :=
  let partialBuffer := k.dev.partialBuffer
  if partialBuffer.size = 0 then
    let (buffptr, k) := k.kmalloc kmalloc len
    let k := k.setPartial { partialBuffer with buffptr }
    match buffptr with
    | none => (false, k)
    | some _ => (true, (k.setPartial ⟨buffptr, len⟩).memcpy buffptr 0 mem start len)
  else
    let oldSize := partialBuffer.size
    let newSize := oldSize + len
    let (newData, k) := k.kmalloc kmalloc newSize
    match newData with
    | none => (false, k)
    | some _ =>
      let k := k.memcpy newData 0 partialBuffer.buffptr 0 oldSize
      let k := k.memcpy newData oldSize mem start len
      let k := k.kfree partialBuffer.buffptr
      (true, k.setPartial ⟨newData, newSize⟩)

/-- Hand `partial_buffer` to the ring, free what it evicts and start a new
partial line: lines 199–210. -/
def commitPartial (k : Kernel) : Kernel :=
  let (oldEntry, cBuffer) := aesdCircularBufferAddEntry k.dev.cBuffer k.dev.partialBuffer
  let k := { k with dev := { k.dev with cBuffer } }
  let k := match oldEntry with
    | none => k
    | some e => k.kfree e.buffptr
  k.setPartial .zero

/-- The newline loop, with `n` iterations left. An error keeps the state in
which the allocation was refused. -/
def writeLoop (kmalloc : Kmalloc) (mem : Option Nat) :
    (n j start : Nat) → Kernel → Except Kernel (Nat × Kernel)
  | 0, _, start, k => .ok (start, k)
  | n + 1, j, start, k =>
    if k.heap.load mem j 1 = some [endCharacter] then
      match extendPartial kmalloc mem start (j - start + 1) k with
      | (false, k) => .error k
      | (true, k) => writeLoop kmalloc mem n (j + 1) (j + 1) (commitPartial k)
    else writeLoop kmalloc mem n (j + 1) start k

/-- The newline loop and the handling of the data after the last newline. -/
def writeBody (kmalloc : Kmalloc) (mem : Option Nat) (count : Nat) (k : Kernel) :
    Bool × Kernel :=
  match writeLoop kmalloc mem count 0 0 k with
  | .error k => (false, k)
  | .ok (start, k) =>
    if start < count then extendPartial kmalloc mem start (count - start) k else (true, k)

/-- `aesd_write` of the bytes `buf`. -/
def aesdWrite (kmalloc : Kmalloc) (env : CallEnv) (buf : List UInt8) (k : Kernel) :
    Int × Kernel :=
  let count := buf.length
  if count = 0 then (0, k)
  else if env.interrupted then (-eRESTARTSYS, k)
  else
    let k := k.mutexLock
    match k.kmalloc kmalloc count with
    | (none, k) => (-eNOMEM, k.mutexUnlock)
    | (some allocatedMemory, k) =>
      let k := k.copyFromUser env (some allocatedMemory) buf
      if env.notCopied ≠ 0 then
        (-eFAULT, (k.kfree (some allocatedMemory)).mutexUnlock)
      else
        match writeBody kmalloc (some allocatedMemory) count k with
        | (false, k) => (-eNOMEM, (k.kfree (some allocatedMemory)).mutexUnlock)
        | (true, k) => (count, (k.kfree (some allocatedMemory)).mutexUnlock)

/-! ## aesd_read -/

/-- What a read hands back: the return value, the bytes put into the user's
buffer and the new `*f_pos`. -/
structure ReadResult where
  retval : Int
  data : List UInt8
  fPos : Nat
  deriving DecidableEq, Repr

/-- `aesd_read` of at most `count` bytes at `*f_pos = fPos`. -/
def aesdRead (env : CallEnv) (count fPos : Nat) (k : Kernel) : ReadResult × Kernel :=
  if env.interrupted then (⟨-eRESTARTSYS, [], fPos⟩, k)
  else
    let k := k.mutexLock
    match aesdCircularBufferFindEntryOffsetForFpos k.dev.cBuffer fPos with
    | none => (⟨0, [], fPos⟩, k.mutexUnlock)
    | some (slot, entryOffset) =>
      let foundEntry := k.dev.cBuffer.slot slot
      let count :=
        if count + entryOffset ≥ foundEntry.size then foundEntry.size - entryOffset else count
      let (data, k) := k.copyToUser env foundEntry.buffptr entryOffset count
      if env.notCopied ≠ 0 then (⟨-eFAULT, data, fPos⟩, k.mutexUnlock)
      else (⟨count, data, fPos + count⟩, k.mutexUnlock)

/-! ## aesd_lseek and aesd_ioctl -/

/-- The return value of a call that may move the file position, and the
position it leaves. -/
structure SeekResult where
  retval : Int
  fPos : Nat
  deriving DecidableEq, Repr

/-- `get_total_size`: the sizes of the raw slots, added up. -/
def getTotalSize (buffer : AesdCircularBuffer) : Nat :=
  (List.range aesdcharMaxWriteOperationsSupported).foldl
    (fun size i => size + (buffer.slot i).size) 0

/-- `aesd_lseek`. The kernel's `fixed_size_llseek` is given: it gets the
position, `off`, `whence` and the size. -/
def aesdLseek (fixedSizeLlseek : Nat → Int → Int → Nat → SeekResult) (env : CallEnv)
    (off whence : Int) (fPos : Nat) (k : Kernel) : SeekResult × Kernel :=
  if env.interrupted then (⟨-eRESTARTSYS, fPos⟩, k)
  else
    let k := k.mutexLock
    let totalSize := getTotalSize k.dev.cBuffer
    let k := k.mutexUnlock
    (fixedSizeLlseek fPos off whence totalSize, k)

/-- The loop of `adjust_aesd_file_offset`, with `n` iterations left: the sum
of the sizes of the slots before the target, unless one of them is empty. -/
def adjustLoop (buffer : AesdCircularBuffer) : (n i newPos : Nat) → Option Nat
  | 0, _, newPos => some newPos
  | n + 1, i, newPos =>
    let e := buffer.slot ((i + buffer.outOffs) % aesdcharMaxWriteOperationsSupported)
    if e.buffptr = none ∧ e.size = 0 then none
    else adjustLoop buffer n (i + 1) (newPos + e.size)

/-- `adjust_aesd_file_offset`. -/
def adjustAesdFileOffset (env : CallEnv) (writeCmd writeCmdOffset : UInt32) (fPos : Nat)
    (k : Kernel) : SeekResult × Kernel :=
  if env.interrupted then (⟨-eRESTARTSYS, fPos⟩, k)
  else
    let k := k.mutexLock
    let buffer := k.dev.cBuffer
    if writeCmd.toNat ≥ aesdcharMaxWriteOperationsSupported then
      (⟨-eINVAL, fPos⟩, k.mutexUnlock)
    else
      let targetIndex :=
        (writeCmd.toNat + buffer.outOffs) % aesdcharMaxWriteOperationsSupported
      match adjustLoop buffer writeCmd.toNat 0 0 with
      | none => (⟨-eINVAL, fPos⟩, k.mutexUnlock)
      | some newPos =>
        let target := buffer.slot targetIndex
        if target.buffptr = none ∨ writeCmdOffset.toNat ≥ target.size then
          (⟨-eINVAL, fPos⟩, k.mutexUnlock)
        else
          let newPos := newPos + writeCmdOffset.toNat
          (⟨newPos, newPos⟩, k.mutexUnlock)

/-- `struct aesd_seekto`. -/
structure AesdSeekto where
  writeCmd : UInt32
  writeCmdOffset : UInt32
  deriving DecidableEq, Repr

/-- `AESDCHAR_IOCSEEKTO`, that is `_IOWR(0x16, 1, struct aesd_seekto)`: read
and write, eight bytes, magic `0x16`, number 1. -/
def aesdcharIocseekto : UInt32 := 0xC0081601

/-- `aesd_ioctl` with the command structure `arg` points to. -/
def aesdIoctl (env : CallEnv) (cmd : UInt32) (arg : AesdSeekto) (fPos : Nat) (k : Kernel) :
    SeekResult × Kernel :=
  if cmd = aesdcharIocseekto then
    if env.notCopied ≠ 0 then (⟨-eFAULT, fPos⟩, k)
    else adjustAesdFileOffset env arg.writeCmd arg.writeCmdOffset fPos k
  else (⟨-eNOTTY, fPos⟩, k)

/-! ## Loading and unloading the module -/

/-- The state `aesd_init_module` leaves: zeroed, the mutex free, the ring
initialised. -/
def aesdInitModule : Kernel :=
  { heap := .empty
    dev := { lock := false, cBuffer := aesdCircularBufferInit, partialBuffer := .zero } }

/-- The loop of `aesd_trim`, with `n` iterations left. -/
def trimLoop : (n i : Nat) → Kernel → Kernel
  | 0, _, k => k
  | n + 1, i, k =>
    let e := k.dev.cBuffer.slot i
    if e.buffptr ≠ none then
      let k := k.kfree e.buffptr
      trimLoop n (i + 1)
        { k with dev := { k.dev with cBuffer :=
            { k.dev.cBuffer with entry := k.dev.cBuffer.entry.set i .zero } } }
    else trimLoop n (i + 1) k

/-- `aesd_trim`. -/
def aesdTrim (k : Kernel) : Kernel :=
  let k := trimLoop aesdcharMaxWriteOperationsSupported 0 k
  { k with dev := { k.dev with cBuffer :=
      { k.dev.cBuffer with full := false, inOffs := 0, outOffs := 0 } } }

/-- `aesd_cleanup_module`. -/
def aesdCleanupModule (k : Kernel) : Kernel :=
  let k := aesdTrim k.mutexLock
  (k.kfree k.dev.partialBuffer.buffptr).mutexUnlock

end Aesd.Driver

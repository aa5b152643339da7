/-
Aesd.Driver.SizeBounds — no computation of a size or position in the driver
leaves its type.

For each function of `Aesd.Driver.CheckedSizes` there is one lemma: in a state
whose sizes are within the bound of `kmalloc` it computes what the unbounded
function does. The loops carry the reason: the search does not let
`accumulation` pass the position, the newline loop keeps `start` behind `end`.
`no_size_wraps` puts them together, over every run of calls.
-/
import Aesd.Driver.CheckedSizes

namespace Aesd.Driver

/-! ## Nothing wraps -/

section NoWrap

variable {kmalloc : Kmalloc} {mem : Option Nat} {k : Kernel} {m : Nat}

open CheckedNat (add_of_lt sub_of_le foldlM_add foldl_add_le)

/-- The search: `accumulation` does not pass the position searched for, and has
room for the slots left. -/
theorem checked_findEntryLoop (h : k.Sized m) (charOffset : Nat) {n i accumulation : Nat}
    (hacc : accumulation ≤ charOffset) (hroom : accumulation + n * m < sizeT) :
    Checked.findEntryLoop k.dev.cBuffer charOffset n i accumulation
      = some (findEntryLoop k.dev.cBuffer charOffset n i accumulation) := by
  induction n generalizing i accumulation with
  | zero => rfl
  | succ n ih =>
    have hslot := h.slot ((i + k.dev.cBuffer.inOffs) % aesdcharMaxWriteOperationsSupported)
    rw [Nat.succ_mul] at hroom
    unfold Checked.findEntryLoop findEntryLoop
    dsimp only
    split
    · rfl
    · rw [add_of_lt (by omega), Option.bind_eq_bind, Option.bind_some]
      split
      · rw [sub_of_le hacc]
        rfl
      · exact ih (by omega) (by omega)

theorem checked_findEntryOffsetForFpos (h : k.Sized m) (hm : m ≤ 2 ^ 30) (fPos : Nat) :
    Checked.findEntryOffsetForFpos k.dev.cBuffer fPos
      = some (aesdCircularBufferFindEntryOffsetForFpos k.dev.cBuffer fPos) :=
  checked_findEntryLoop h fPos (Nat.zero_le fPos) (by
    simp only [aesdcharMaxWriteOperationsSupported, sizeT]
    omega)

/-- The search stops inside the entry it has found, at a position that the
slots it has passed can hold. -/
theorem findEntryLoop_bounds (h : k.Sized m)
    {charOffset n i accumulation slot entryOffset : Nat} (hacc : accumulation ≤ charOffset)
    (hfound : findEntryLoop k.dev.cBuffer charOffset n i accumulation
      = some (slot, entryOffset)) :
    entryOffset < (k.dev.cBuffer.slot slot).size ∧ charOffset < accumulation + n * m := by
  induction n generalizing i accumulation with
  | zero => cases hfound
  | succ n ih =>
    have hslot := h.slot ((i + k.dev.cBuffer.inOffs) % aesdcharMaxWriteOperationsSupported)
    unfold findEntryLoop at hfound
    dsimp only at hfound
    rw [Nat.succ_mul]
    split at hfound
    · cases hfound
    · split at hfound
      · cases hfound
        exact ⟨by omega, by omega⟩
      · obtain ⟨hin, hpos⟩ := ih (by omega) hfound
        exact ⟨hin, by omega⟩

theorem checked_aesdRead (h : k.Sized m) (hm : m ≤ 2 ^ 30) (env : CallEnv) {count : Nat}
    (hcount : count < 2 ^ 31) (fPos : Nat) :
    Checked.aesdRead env count fPos k = some (aesdRead env count fPos k) := by
  unfold Checked.aesdRead aesdRead
  split
  · rfl
  · have hlocked : k.mutexLock.Sized m := h.congr rfl rfl
    simp only [checked_findEntryOffsetForFpos hlocked hm, Option.bind_eq_bind, Option.bind_some]
    cases hfound : aesdCircularBufferFindEntryOffsetForFpos k.mutexLock.dev.cBuffer fPos with
    | none => rfl
    | some q =>
      obtain ⟨slot, entryOffset⟩ := q
      obtain ⟨hin, hpos⟩ := findEntryLoop_bounds hlocked (Nat.zero_le fPos) hfound
      have hslot := hlocked.slot slot
      have hasked : CheckedNat.add sizeT count entryOffset = some (count + entryOffset) :=
        add_of_lt (by simp only [sizeT]; omega)
      have hrest : CheckedNat.sub (k.mutexLock.dev.cBuffer.slot slot).size entryOffset
          = some ((k.mutexLock.dev.cBuffer.slot slot).size - entryOffset) := sub_of_le hin.le
      have hpos' : ∀ c < 2 ^ 31, CheckedNat.add loffT fPos c = some (fPos + c) := by
        intro c hc
        refine add_of_lt ?_
        simp only [loffT, aesdcharMaxWriteOperationsSupported] at hpos ⊢
        omega
      simp only [hasked, Option.bind_some]
      split
      · rw [hrest, Option.bind_some, hpos' _ (by omega)]
        split <;> rfl
      · rw [hpos' _ hcount]
        split <;> rfl

/-- `lineLength` is the length of the line. -/
theorem lineLength_eq {start last : Nat} (hle : start ≤ last) (hlast : last < 2 ^ 31) :
    Checked.lineLength start last = some (last - start + 1) := by
  unfold Checked.lineLength
  rw [sub_of_le hle, Option.bind_eq_bind, Option.bind_some, add_of_lt]
  simp only [sizeT]
  omega

theorem checked_extendLine (h : k.Sized m) (hm : m ≤ 2 ^ 30) {start last : Nat}
    (hle : start ≤ last) (hlast : last < 2 ^ 31) :
    Checked.extendLine kmalloc mem start last k
      = some (extendPartial kmalloc mem start (last - start + 1) k) := by
  have hpart := h.partialBuffer
  by_cases hs : k.dev.partialBuffer.size = 0
  · cases hk : k.kmalloc kmalloc (last - start + 1) with
    | mk buffptr k' =>
      simp only [Checked.extendLine, extendPartial, hs, if_true,
        lineLength_eq hle hlast, Option.bind_eq_bind, Option.bind_some, hk]
      cases buffptr <;> rfl
  · have hsum : k.dev.partialBuffer.size + last - start + 1
        = k.dev.partialBuffer.size + (last - start + 1) := by omega
    have hreach : CheckedNat.add sizeT k.dev.partialBuffer.size last
        = some (k.dev.partialBuffer.size + last) := add_of_lt (by simp only [sizeT]; omega)
    have hnew : CheckedNat.add sizeT (k.dev.partialBuffer.size + last - start) 1
        = some (k.dev.partialBuffer.size + (last - start + 1)) := by
      rw [← hsum]
      exact add_of_lt (by simp only [sizeT]; omega)
    have hback : CheckedNat.sub (k.dev.partialBuffer.size + last) start
        = some (k.dev.partialBuffer.size + last - start) := sub_of_le (by omega)
    cases hk : k.kmalloc kmalloc (k.dev.partialBuffer.size + (last - start + 1)) with
    | mk newData k' =>
      simp only [Checked.extendLine, extendPartial, hs, if_false, hreach, hback, hnew,
        lineLength_eq hle hlast, Option.bind_eq_bind, Option.bind_some, hk]
      cases newData <;> rfl

theorem checked_extendRest (h : k.Sized m) (hm : m ≤ 2 ^ 30) {start count : Nat}
    (hle : start ≤ count) (hcount : count < 2 ^ 31) :
    Checked.extendRest kmalloc mem start count k
      = some (extendPartial kmalloc mem start (count - start) k) := by
  have hpart := h.partialBuffer
  by_cases hs : k.dev.partialBuffer.size = 0
  · cases hk : k.kmalloc kmalloc (count - start) with
    | mk buffptr k' =>
      simp only [Checked.extendRest, extendPartial, hs, if_true, sub_of_le hle,
        Option.bind_eq_bind, Option.bind_some, hk]
      cases buffptr <;> rfl
  · have hnew : CheckedNat.add sizeT k.dev.partialBuffer.size (count - start)
        = some (k.dev.partialBuffer.size + (count - start)) :=
      add_of_lt (by simp only [sizeT]; omega)
    cases hk : k.kmalloc kmalloc (k.dev.partialBuffer.size + (count - start)) with
    | mk newData k' =>
      simp only [Checked.extendRest, extendPartial, hs, if_false, sub_of_le hle, hnew,
        Option.bind_eq_bind, Option.bind_some, hk]
      cases newData <;> rfl

theorem checked_writeLoop (hw : kmalloc.Within m) (hm : m ≤ 2 ^ 30) {n j start : Nat}
    (h : k.Sized m) (hstart : start ≤ j) (hcount : j + n < 2 ^ 31) :
    Checked.writeLoop kmalloc mem n j start k = some (writeLoop kmalloc mem n j start k) := by
  induction n generalizing j start k with
  | zero => rfl
  | succ n ih =>
    have hnext : CheckedNat.add sizeT j 1 = some (j + 1) :=
      add_of_lt (by simp only [sizeT]; omega)
    unfold Checked.writeLoop writeLoop
    simp only [hnext, Option.bind_eq_bind, Option.bind_some]
    split
    · rw [checked_extendLine h hm hstart (by omega), Option.bind_some]
      have hext := sized_extendPartial h hw mem start (j - start + 1)
      cases hk : extendPartial kmalloc mem start (j - start + 1) k with
      | mk granted k' =>
        rw [hk] at hext
        cases granted with
        | false => rfl
        | true => exact ih (sized_commitPartial hext) (Nat.le_refl _) (by omega)
    · exact ih h (Nat.le_succ_of_le hstart) (by omega)

theorem checked_writeBody (hw : kmalloc.Within m) (hm : m ≤ 2 ^ 30) {count : Nat} (h : k.Sized m)
    (hcount : count < 2 ^ 31) :
    Checked.writeBody kmalloc mem count k = some (writeBody kmalloc mem count k) := by
  obtain ⟨-, hok⟩ := sized_writeLoop hw h mem (Nat.le_refl 0) count
  unfold Checked.writeBody writeBody
  rw [checked_writeLoop hw hm h (Nat.le_refl 0) (by omega), Option.bind_eq_bind, Option.bind_some]
  cases hloop : writeLoop kmalloc mem count 0 0 k with
  | error k' => rfl
  | ok q =>
    obtain ⟨start, k'⟩ := q
    obtain ⟨hsized, hstart⟩ := hok start k' hloop
    dsimp only
    split
    · exact checked_extendRest hsized hm (by omega) hcount
    · rfl

theorem checked_aesdWrite (hw : kmalloc.Within m) (hm : m ≤ 2 ^ 30) (h : k.Sized m)
    (env : CallEnv) {buf : List UInt8} (hbuf : buf.length < 2 ^ 31) :
    Checked.aesdWrite kmalloc env buf k = some (aesdWrite kmalloc env buf k) := by
  have hlocked : k.mutexLock.Sized m := h.congr rfl rfl
  unfold Checked.aesdWrite aesdWrite
  dsimp only
  split
  · rfl
  · split
    · rfl
    · cases hk : k.mutexLock.kmalloc kmalloc buf.length with
      | mk p k' =>
        cases p with
        | none => rfl
        | some id =>
          have hcopied : (k'.copyFromUser env (some id) buf).Sized m :=
            (hlocked.alloc hk).congr rfl rfl
          dsimp only
          split
          · rfl
          · rw [checked_writeBody hw hm hcopied hbuf, Option.bind_eq_bind, Option.bind_some]
            rcases writeBody kmalloc (some id) buf.length (k'.copyFromUser env (some id) buf) with
              ⟨_ | _, k''⟩ <;> rfl

theorem checked_getTotalSize (h : k.Sized m) (hm : m ≤ 2 ^ 30) :
    Checked.getTotalSize k.dev.cBuffer = some (getTotalSize k.dev.cBuffer) := by
  refine foldlM_add ?_
  have hslots : ∀ i ∈ List.range aesdcharMaxWriteOperationsSupported,
      (k.dev.cBuffer.slot i).size ≤ m := fun i _ => h.slot i
  refine Nat.lt_of_le_of_lt (foldl_add_le hslots 0) ?_
  simp only [List.length_range, aesdcharMaxWriteOperationsSupported, loffT]
  omega

theorem checked_aesdLseek (h : k.Sized m) (hm : m ≤ 2 ^ 30)
    (llseek : Nat → Int → Int → Nat → SeekResult) (env : CallEnv) (off whence : Int)
    (fPos : Nat) :
    Checked.aesdLseek llseek env off whence fPos k
      = some (aesdLseek llseek env off whence fPos k) := by
  have hlocked : k.mutexLock.Sized m := h.congr rfl rfl
  unfold Checked.aesdLseek aesdLseek
  split
  · rfl
  · simp only [checked_getTotalSize hlocked hm, Option.bind_eq_bind, Option.bind_some]
    rfl

/-- The loop of the seek command has room for the slots left. -/
theorem checked_adjustLoop (h : k.Sized m) {n i newPos : Nat} (hroom : newPos + n * m < loffT) :
    Checked.adjustLoop k.dev.cBuffer n i newPos = some (adjustLoop k.dev.cBuffer n i newPos) := by
  induction n generalizing i newPos with
  | zero => rfl
  | succ n ih =>
    have hslot := h.slot ((i + k.dev.cBuffer.outOffs) % aesdcharMaxWriteOperationsSupported)
    rw [Nat.succ_mul] at hroom
    unfold Checked.adjustLoop adjustLoop
    dsimp only
    split
    · rfl
    · rw [add_of_lt (by omega), Option.bind_eq_bind, Option.bind_some]
      exact ih (by omega)

theorem adjustLoop_le (h : k.Sized m) {n i newPos newPos' : Nat}
    (hloop : adjustLoop k.dev.cBuffer n i newPos = some newPos') : newPos' ≤ newPos + n * m := by
  induction n generalizing i newPos with
  | zero =>
    cases hloop
    exact Nat.le_add_right ..
  | succ n ih =>
    have hslot := h.slot ((i + k.dev.cBuffer.outOffs) % aesdcharMaxWriteOperationsSupported)
    unfold adjustLoop at hloop
    dsimp only at hloop
    rw [Nat.succ_mul]
    split at hloop
    · cases hloop
    · have hrest := ih hloop
      omega

theorem checked_adjustAesdFileOffset (h : k.Sized m) (hm : m ≤ 2 ^ 30) (env : CallEnv)
    (writeCmd writeCmdOffset : UInt32) (fPos : Nat) :
    Checked.adjustAesdFileOffset env writeCmd writeCmdOffset fPos k
      = some (adjustAesdFileOffset env writeCmd writeCmdOffset fPos k) := by
  have hlocked : k.mutexLock.Sized m := h.congr rfl rfl
  unfold Checked.adjustAesdFileOffset adjustAesdFileOffset
  dsimp only
  split
  · rfl
  · split
    · rfl
    · rename_i hcmd
      have hroom : writeCmd.toNat * m ≤ 9 * 2 ^ 30 :=
        Nat.mul_le_mul (by simp only [aesdcharMaxWriteOperationsSupported] at hcmd; omega) hm
      have hloop : Checked.adjustLoop k.mutexLock.dev.cBuffer writeCmd.toNat 0 0
          = some (adjustLoop k.mutexLock.dev.cBuffer writeCmd.toNat 0 0) :=
        checked_adjustLoop hlocked (by simp only [loffT]; omega)
      simp only [hloop, Option.bind_eq_bind, Option.bind_some]
      cases hpos : adjustLoop k.mutexLock.dev.cBuffer writeCmd.toNat 0 0 with
      | none => rfl
      | some newPos =>
        have hle := adjustLoop_le hlocked hpos
        dsimp only
        split
        · rfl
        · rename_i hin
          have hslot := hlocked.slot ((writeCmd.toNat + k.mutexLock.dev.cBuffer.outOffs)
            % aesdcharMaxWriteOperationsSupported)
          rw [add_of_lt, Option.bind_some]
          · rfl
          · simp only [loffT]
            omega

theorem checked_aesdIoctl (h : k.Sized m) (hm : m ≤ 2 ^ 30) (env : CallEnv) (cmd : UInt32)
    (arg : AesdSeekto) (fPos : Nat) :
    Checked.aesdIoctl env cmd arg fPos k = some (aesdIoctl env cmd arg fPos k) := by
  unfold Checked.aesdIoctl aesdIoctl
  split
  · split
    · rfl
    · exact checked_adjustAesdFileOffset h hm env arg.writeCmd arg.writeCmdOffset fPos
  · rfl

end NoWrap

/-! ## Runs -/

/-- The kernel grants no request for more than `m` bytes and passes counts
below `2 ^ 31`. -/
def Call.Within (m : Nat) : Call → Prop
  | .write c => c.kmalloc.Within m ∧ c.buf.length < 2 ^ 31
  | .read _ count _ => count < 2 ^ 31
  | .lseek .. => True
  | .ioctl .. => True

/-- The call computes what it computes without bounds. -/
def Call.NoWrap (llseek : Nat → Int → Int → Nat → SeekResult) (k : Kernel) : Call → Prop
  | .write c => Checked.aesdWrite c.kmalloc c.env c.buf k = some (c.run k)
  | .read env count fPos => Checked.aesdRead env count fPos k = some (aesdRead env count fPos k)
  | .lseek env off whence fPos =>
    Checked.aesdLseek llseek env off whence fPos k
      = some (aesdLseek llseek env off whence fPos k)
  | .ioctl env cmd arg fPos =>
    Checked.aesdIoctl env cmd arg fPos k = some (aesdIoctl env cmd arg fPos k)

/-- The kernel state a call leaves, if nothing wraps. -/
def Call.checked (llseek : Nat → Int → Int → Nat → SeekResult) (k : Kernel) :
    Call → Option Kernel
  | .write c => (Checked.aesdWrite c.kmalloc c.env c.buf k).map Prod.snd
  | .read env count fPos => (Checked.aesdRead env count fPos k).map Prod.snd
  | .lseek env off whence fPos =>
    (Checked.aesdLseek llseek env off whence fPos k).map Prod.snd
  | .ioctl env cmd arg fPos => (Checked.aesdIoctl env cmd arg fPos k).map Prod.snd

/-- Calls one after the other, on a freshly loaded module. -/
def runChecked (llseek : Nat → Int → Int → Nat → SeekResult) (calls : List Call) :
    Option Kernel :=
  calls.foldlM (Call.checked llseek) aesdInitModule

section Runs

variable {k : Kernel} {m : Nat} (llseek : Nat → Int → Int → Nat → SeekResult)

theorem noWrap_of_sized (h : k.Sized m) (hm : m ≤ 2 ^ 30) {call : Call} (hcall : call.Within m) :
    call.NoWrap llseek k := by
  cases call with
  | write c => exact checked_aesdWrite hcall.1 hm h c.env hcall.2
  | read env count fPos => exact checked_aesdRead h hm env hcall fPos
  | lseek env off whence fPos => exact checked_aesdLseek h hm llseek env off whence fPos
  | ioctl env cmd arg fPos => exact checked_aesdIoctl h hm env cmd arg fPos

theorem Call.NoWrap.checked {call : Call} (h : call.NoWrap llseek k) :
    call.checked llseek k = some (call.run llseek k) := by
  cases call <;> exact congrArg (Option.map Prod.snd) h

/-- A call keeps the sizes within what the kernel grants. -/
theorem Kernel.Sized.call (h : k.Sized m) (howned : k.Owned []) {call : Call}
    (hcall : call.Within m) : (call.run llseek k).Sized m := by
  cases call with
  | write c => exact sized_aesdWrite hcall.1 h c.env c.buf
  | read env count fPos => exact h.sameButLock (aesdRead_state howned env count fPos)
  | lseek env off whence fPos => exact h.sameButLock (aesdLseek_state ..)
  | ioctl env cmd arg fPos => exact h.sameButLock (aesdIoctl_state ..)

/-- **No size or position wraps.** Whatever calls came before, none of the
computations of the next one leaves its type. -/
theorem no_size_wraps (hm : m ≤ 2 ^ 30) (calls : List Call)
    (hcalls : ∀ c ∈ calls, c.Within m) :
    runChecked llseek calls = some (runCalls llseek calls) ∧
      ∀ call : Call, call.Within m → call.NoWrap llseek (runCalls llseek calls) := by
  suffices hrun : runChecked llseek calls = some (runCalls llseek calls) ∧
      (runCalls llseek calls).Sized m from
    ⟨hrun.1, fun _ hcall => noWrap_of_sized llseek hrun.2 hm hcall⟩
  induction calls using List.reverseRecOn with
  | nil => exact ⟨rfl, sized_init m⟩
  | append_singleton calls call ih =>
    obtain ⟨hchecked, hsized⟩ := ih fun c hc => hcalls c (List.mem_append_left _ hc)
    have hcall : call.Within m := hcalls call (by simp)
    have hlast : runCalls llseek (calls ++ [call]) = call.run llseek (runCalls llseek calls) :=
      List.foldl_append
    rw [hlast]
    refine ⟨?_, hsized.call llseek (idle_runCalls llseek calls).owned hcall⟩
    unfold runChecked at hchecked ⊢
    rw [List.foldlM_append, hchecked, Option.bind_eq_bind, Option.bind_some]
    simp [(noWrap_of_sized llseek hsized hm hcall).checked]

end Runs

/-- A kernel that grants requests up to `2 ^ 30` bytes. -/
def grantsGiB : Kmalloc := fun _ n => if n ≤ 2 ^ 30 then some fun _ => 0 else none

/-- A read of at most 100 bytes after the line `"hi\n"` was written. -/
theorem no_size_wraps_one_line :
    Call.NoWrap (fun fPos _ _ _ => ⟨0, fPos⟩) (runCalls (fun fPos _ _ _ => ⟨0, fPos⟩)
      [.write ⟨grantsGiB, .ok, [104, 105, 10]⟩]) (.read .ok 100 0) := by
  have hwrite : ∀ c ∈ [Call.write ⟨grantsGiB, .ok, [104, 105, 10]⟩], c.Within (2 ^ 30) := by
    intro c hc
    obtain rfl := List.mem_singleton.mp hc
    exact ⟨fun _ n hn => if_neg (by omega), by simp⟩
  have hread : (100 : Nat) < 2 ^ 31 := by omega
  exact (no_size_wraps _ (Nat.le_refl (2 ^ 30)) _ hwrite).2 (.read .ok 100 0) hread

end Aesd.Driver

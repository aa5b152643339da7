/-
Aesd.Driver.Calls — every file operation of the driver keeps its buffers in
order, over any run of calls and until the module is unloaded.

`aesdRead_eq` is what a read delivers; the reading and seeking calls leave
the kernel state alone but for the lock (`SameButLock`). `idle_runCalls` is
the invariant over runs and `cleanup_owns_nothing` what unloading leaves.
-/
import Aesd.Driver.Write

namespace Aesd.Driver

/-! ## aesd_read -/

/-- What a read of at most `count` bytes at `fPos` delivers: the rest of the
line that holds the position, cut to `count`. -/
def Device.readAt (d : Device) (count fPos : Nat) : List UInt8 :=
  match Positions.locate (d.lines.map List.length) fPos with
  | none => []
  | some (i, o) => ((d.lines.getD i []).drop o).take count

/-- The stored line an entry stands for. -/
theorem Kernel.view_line {k : Kernel} {i : Nat} (hi : i < k.dev.cBuffer.stored) :
    k.view.lines.getD i []
      = (k.dev.cBuffer.slot (k.dev.cBuffer.slotOf i)).content k.heap := by
  have hlen : i < k.view.lines.length := by
    rw [view, List.length_map, AesdCircularBuffer.length_fromOldest]; exact hi
  rw [List.getD_eq_getElem _ _ hlen]
  simp [view, AesdCircularBuffer.fromOldest]

/-- **`aesd_read`**, when the lock is taken. The copy stays inside the
buffer of the entry found. -/
theorem aesdRead_eq {k : Kernel} {frame : List Nat} (h : k.Owned frame) {env : CallEnv}
    (hint : env.interrupted = false) (count fPos : Nat) :
    let data := k.view.readAt count fPos
    aesdRead env count fPos k
      = (if env.notCopied ≠ 0 ∧ Positions.locate (k.view.lines.map List.length) fPos ≠ none
          then ⟨-eFAULT, data.take (data.length - env.notCopied), fPos⟩
          else ⟨data.length, data, fPos + data.length⟩,
        k.mutexLock.mutexUnlock) := by
  intro data
  simp only [aesdRead, hint, Bool.false_eq_true, if_false]
  rw [show k.mutexLock.dev.cBuffer = k.dev.cBuffer from rfl,
      findEntryOffsetForFpos_eq_locate h.ring, h.map_size]
  cases hloc : Positions.locate (k.view.lines.map List.length) fPos with
  | none => simp [data, Device.readAt, hloc]
  | some q =>
    obtain ⟨i, o⟩ := q
    obtain ⟨n, hn, ho, -⟩ := (Positions.locate_eq_some_iff _ _ _ _).mp hloc
    have hi : i < k.dev.cBuffer.stored := by
      have := (List.getElem?_eq_some_iff.mp hn).1
      simpa [Kernel.view, AesdCircularBuffer.length_fromOldest] using this
    have hdata : data = (((k.dev.cBuffer.slot (k.dev.cBuffer.slotOf i)).content
        k.heap).drop o).take count := by
      simp only [data, Device.readAt, hloc, Kernel.view_line hi]
    have hb := h.backed_slot (i := k.dev.cBuffer.slotOf i) (Nat.mod_lt _ (by decide))
    have hsize : (k.dev.cBuffer.slot (k.dev.cBuffer.slotOf i)).size = n := by
      rw [← hb.length_content, ← Kernel.view_line hi]
      rw [List.getElem?_map, Option.map_eq_some_iff] at hn
      obtain ⟨l, hl, rfl⟩ := hn
      simp [List.getD, hl]
    generalize he : k.dev.cBuffer.slot (k.dev.cBuffer.slotOf i) = e at hdata hb hsize
    obtain ⟨id, hid⟩ := Option.ne_none_iff_exists'.mp
      (fun hnull => absurd (hb.null_iff.mp hnull) (by omega))
    have hlen := hb.length_content
    have hcount : (if count + o ≥ e.size then e.size - o else count) = data.length := by
      rw [hdata, List.length_take, List.length_drop, hlen]
      split <;> omega
    have hload : k.heap.load (some id) o data.length = some data := by
      have hle : data.length ≤ e.size - o := by
        rw [hdata, List.length_take, List.length_drop, hlen]; omega
      rw [BlockHeap.load_live (hb.block hid) (by omega), hdata, List.length_take,
          ← List.take_eq_take_min]
    have hcopy : k.mutexLock.copyToUser env e.buffptr o data.length
        = (data.take (data.length - env.notCopied), k.mutexLock) := by
      rw [Kernel.copyToUser, hid, show k.mutexLock.heap = k.heap from rfl, hload]
    simp only [Option.map_some, he, hcount, hcopy]
    by_cases hn0 : env.notCopied = 0
    · simp [hn0]
    · simp [hn0]

theorem aesdRead_interrupted {env : CallEnv} (hint : env.interrupted = true)
    (count fPos : Nat) (k : Kernel) :
    aesdRead env count fPos k = (⟨-eRESTARTSYS, [], fPos⟩, k) := by
  simp [aesdRead, hint]

/-- The state after a call that only takes and releases the lock. -/
def Kernel.SameButLock (k k' : Kernel) : Prop := k' = k ∨ k' = k.mutexLock.mutexUnlock

theorem Kernel.SameButLock.view {k k' : Kernel} (h : k.SameButLock k') : k'.view = k.view := by
  rcases h with rfl | rfl <;> rfl

theorem aesdRead_state {k : Kernel} {frame : List Nat} (h : k.Owned frame) (env : CallEnv)
    (count fPos : Nat) : k.SameButLock (aesdRead env count fPos k).2 := by
  cases hint : env.interrupted with
  | true => rw [aesdRead_interrupted hint]; exact Or.inl rfl
  | false => rw [aesdRead_eq h hint]; exact Or.inr rfl

/-! ## aesd_lseek and aesd_ioctl -/

theorem aesdLseek_state (llseek : Nat → Int → Int → Nat → SeekResult) (env : CallEnv)
    (off whence : Int) (fPos : Nat) (k : Kernel) :
    k.SameButLock (aesdLseek llseek env off whence fPos k).2 := by
  unfold aesdLseek
  split
  · exact Or.inl rfl
  · exact Or.inr rfl

theorem adjustAesdFileOffset_state (env : CallEnv) (writeCmd writeCmdOffset : UInt32)
    (fPos : Nat) (k : Kernel) :
    k.SameButLock (adjustAesdFileOffset env writeCmd writeCmdOffset fPos k).2 := by
  unfold adjustAesdFileOffset
  dsimp only
  split
  · exact Or.inl rfl
  · split
    · exact Or.inr rfl
    · split
      · exact Or.inr rfl
      · split <;> exact Or.inr rfl

theorem aesdIoctl_state (env : CallEnv) (cmd : UInt32) (arg : AesdSeekto) (fPos : Nat)
    (k : Kernel) : k.SameButLock (aesdIoctl env cmd arg fPos k).2 := by
  unfold aesdIoctl
  split
  · split
    · exact Or.inl rfl
    · exact adjustAesdFileOffset_state ..
  · exact Or.inl rfl

/-! ## Runs of calls -/

/-- A system call on the device, with what it meets. Each call brings the
position of the file it is made on. -/
inductive Call where
  | write (c : WriteCall)
  | read (env : CallEnv) (count fPos : Nat)
  | lseek (env : CallEnv) (off whence : Int) (fPos : Nat)
  | ioctl (env : CallEnv) (cmd : UInt32) (arg : AesdSeekto) (fPos : Nat)

/-- The kernel state a call leaves. -/
def Call.run (llseek : Nat → Int → Int → Nat → SeekResult) (k : Kernel) : Call → Kernel
  | .write c => (c.run k).2
  | .read env count fPos => (aesdRead env count fPos k).2
  | .lseek env off whence fPos => (aesdLseek llseek env off whence fPos k).2
  | .ioctl env cmd arg fPos => (aesdIoctl env cmd arg fPos k).2

/-- A call other than a write leaves what the device holds. -/
theorem Call.view_run {k : Kernel} (h : k.Owned [])
    (llseek : Nat → Int → Int → Nat → SeekResult) (call : Call) (hno : ∀ c, call ≠ .write c) :
    (call.run llseek k).view = k.view := by
  cases call with
  | write c => exact absurd rfl (hno c)
  | read env count fPos => exact Kernel.SameButLock.view (aesdRead_state h env count fPos)
  | lseek env off whence fPos => exact Kernel.SameButLock.view (aesdLseek_state ..)
  | ioctl env cmd arg fPos => exact Kernel.SameButLock.view (aesdIoctl_state ..)

/-- Calls one after the other, on a freshly loaded module. -/
def runCalls (llseek : Nat → Int → Int → Nat → SeekResult) (calls : List Call) : Kernel :=
  calls.foldl (Call.run llseek) aesdInitModule

/-- Between two calls the buffers are in order and the lock is free. -/
structure Kernel.Idle (k : Kernel) : Prop where
  owned : k.Owned []
  lock : k.dev.lock = false

theorem idle_init : aesdInitModule.Idle := ⟨owned_init, rfl⟩

theorem Kernel.Idle.sameButLock {k k' : Kernel} (h : k.Idle) (hs : k.SameButLock k') :
    k'.Idle := by
  rcases hs with rfl | rfl
  · exact h
  · exact ⟨h.owned.lock false, rfl⟩

theorem Kernel.Idle.write {k : Kernel} (h : k.Idle) (c : WriteCall) : (c.run k).2.Idle :=
  ⟨(aesdWrite_outcome c h.owned).owned, (aesdWrite_outcome c h.owned).lock h.lock⟩

theorem Kernel.Idle.call {k : Kernel} (h : k.Idle)
    (llseek : Nat → Int → Int → Nat → SeekResult) (call : Call) :
    (call.run llseek k).Idle := by
  cases call with
  | write c => exact h.write c
  | read env count fPos => exact h.sameButLock (aesdRead_state h.owned env count fPos)
  | lseek env off whence fPos => exact h.sameButLock (aesdLseek_state ..)
  | ioctl env cmd arg fPos => exact h.sameButLock (aesdIoctl_state ..)

theorem idle_runCalls (llseek : Nat → Int → Int → Nat → SeekResult) (calls : List Call) :
    (runCalls llseek calls).Idle := by
  suffices hgen : ∀ (calls : List Call) (k : Kernel), k.Idle →
      (calls.foldl (Call.run llseek) k).Idle from hgen calls _ idle_init
  intro calls
  induction calls with
  | nil => intro k h; exact h
  | cons call calls ih => intro k h; exact ih _ (h.call llseek call)

/-- A state between two calls of some run. -/
def Kernel.Reachable (k : Kernel) : Prop := ∃ llseek calls, k = runCalls llseek calls

theorem Kernel.Reachable.idle {k : Kernel} (h : k.Reachable) : k.Idle := by
  obtain ⟨llseek, calls, rfl⟩ := h
  exact idle_runCalls llseek calls

theorem reachable_init : aesdInitModule.Reachable := ⟨fun fPos _ _ _ => ⟨0, fPos⟩, [], rfl⟩

/-! ## Unloading the module -/

/-- Trimming releases the buffers of the slots it has not yet passed. -/
theorem trimLoop_owns {rest : List Nat} (n : Nat) : ∀ (i : Nat) (k : Kernel),
    k.dev.cBuffer.entry.length = i + n →
    k.heap.Owns ((k.dev.cBuffer.entry.drop i).filterMap AesdBufferEntry.buffptr ++ rest) →
    (trimLoop n i k).heap.Owns rest ∧
      (trimLoop n i k).dev.partialBuffer = k.dev.partialBuffer := by
  induction n with
  | zero =>
    intro i k hlen howns
    rw [List.drop_eq_nil_of_le (by omega)] at howns
    exact ⟨howns, rfl⟩
  | succ n ih =>
    intro i k hlen howns
    have hi : i < k.dev.cBuffer.entry.length := by omega
    have hslot : k.dev.cBuffer.slot i = k.dev.cBuffer.entry[i] := List.getD_eq_getElem _ _ hi
    rw [List.drop_eq_getElem_cons hi, ← hslot] at howns
    rw [trimLoop]
    cases hp : (k.dev.cBuffer.slot i).buffptr with
    | none =>
      rw [List.filterMap_cons_none hp] at howns
      simp only [ne_eq, not_true_eq_false, if_false]
      exact ih (i + 1) k (by omega) howns
    | some id =>
      rw [List.filterMap_cons_some hp] at howns
      simp only [ne_eq, reduceCtorEq, not_false_eq_true, if_true]
      refine ih (i + 1) _ (by simp [Kernel.kfree]; omega) ?_
      simp only [Kernel.kfree, List.drop_set_of_lt (Nat.lt_succ_self i)]
      exact howns.free

/-- **Unloading releases everything.** -/
theorem cleanup_owns_nothing {k : Kernel} (h : k.Owned []) :
    (aesdCleanupModule k).heap.Owns [] := by
  have howns : k.heap.Owns _ := h.owns
  rw [List.nil_append, AesdDev.refs_eq] at howns
  have htrim := trimLoop_owns aesdcharMaxWriteOperationsSupported 0 k.mutexLock
    (by rw [Nat.zero_add]; exact h.ring.length) (by simpa [Kernel.mutexLock] using howns)
  obtain ⟨htrim, hpart⟩ := htrim
  show BlockHeap.Owns (BlockHeap.free _ _) []
  rw [show (aesdTrim k.mutexLock).dev.partialBuffer = k.dev.partialBuffer from hpart]
  cases hp : k.dev.partialBuffer.buffptr with
  | none => rw [hp] at htrim; exact htrim
  | some id => rw [hp] at htrim; exact htrim.free

/-- **Ownership over runs.** Whenever a call of a run returns, the lock is
free, the live allocations are exactly the buffers of the ring and of the
partial line, each referenced once and of the recorded size, a null buffer
is an empty one, nothing was freed twice and no copy left its blocks; and
unloading the module at that point frees every allocation. -/
theorem runCalls_ownership (llseek : Nat → Int → Int → Nat → SeekResult)
    (calls : List Call) :
    (runCalls llseek calls).dev.lock = false ∧
    (∀ id, ((runCalls llseek calls).heap.block id).isSome ↔
      id ∈ (runCalls llseek calls).dev.refs) ∧
    (runCalls llseek calls).dev.refs.Nodup ∧
    (∀ e ∈ (runCalls llseek calls).dev.buffers,
      (e.buffptr = none ↔ e.size = 0) ∧
      ∀ id, e.buffptr = some id →
        ((runCalls llseek calls).heap.block id).map List.length = some e.size) ∧
    (runCalls llseek calls).heap.faults = [] ∧
    (∀ id, (aesdCleanupModule (runCalls llseek calls)).heap.block id = none) ∧
    (aesdCleanupModule (runCalls llseek calls)).heap.faults = [] := by
  have h := idle_runCalls llseek calls
  have hclean := cleanup_owns_nothing h.owned
  refine ⟨h.lock, h.owned.owns.live, h.owned.owns.nodup, fun e he => ?_, h.owned.owns.faults,
    fun id => ?_, hclean.faults⟩
  · have hb := h.owned.backed e he
    refine ⟨hb.null_iff, fun id hid => ?_⟩
    rw [hb.block hid, Option.map_some, hb.length_content]
  · simpa using (hclean.live id).not.mpr (List.not_mem_nil)

end Aesd.Driver

/-
Aesd.Driver.FilePosition — `read` and `AESDCHAR_IOCSEEKTO` on one open file,
step by step.

`read` copies `filp->f_pos`, calls `aesd_read` with a pointer to the copy
and stores the copy back; the kernel's lock of the file position admits one
such call at a time. The ioctl does not take that lock: its locked section
sets `filp->f_pos` at any moment, also while a read holds a copy.

`positionOf` is what the position should be: the effects of the calls, one
after the other in the order they took effect. A run keeps to it as long as
every seek that finds a read under way seeks to that read's own copy
(`InStep`, `position_run`); every other seek is lost when the read goes on
(`seek_lost`).
-/
import Aesd.Library.StepSystem
import Aesd.Driver.ReadRuns

namespace Aesd.Driver

open StepSystem (Along run run_append run_cons)

/-! ## Steps -/

/-- A `read` under way, with its copy of the position: before and after the
call of `aesd_read`. -/
inductive ReadPhase where
  | loaded (pos : Nat)
  | returned (pos : Nat)
  deriving DecidableEq, Repr

def ReadPhase.copy : ReadPhase → Nat
  | .loaded pos => pos
  | .returned pos => pos

/-- What a call did when it took effect: a read returned `n` bytes, or a seek
set the position `q`. -/
inductive Effect where
  | read (n : Nat)
  | seek (q : Nat)
  deriving DecidableEq, Repr

/-- The kernel, `filp->f_pos`, the `read` under way and, for the record, the
effects so far. -/
structure SharedFile where
  kernel : Kernel
  fPos : Nat
  reading : Option ReadPhase
  effects : List Effect

/-- The file before any of the calls. -/
def SharedFile.opened (k : Kernel) (fPos : Nat) : SharedFile := ⟨k, fPos, none, []⟩

/-- One step: of a `read`, the load of the position, the locked section of
`aesd_read` or the store; a whole ioctl; or a call for another file. -/
inductive FileAction where
  | load
  | lockedRead (env : CallEnv) (count : Nat)
  | store
  | seek (env : CallEnv) (arg : AesdSeekto)
  | other (llseek : Nat → Int → Int → Nat → SeekResult) (call : Call)

/-- The effect of a call that returns `retval`, if it succeeds. -/
def recorded (effect : Nat → Effect) (retval : Int) : List Effect :=
  if 0 ≤ retval then [effect retval.toNat] else []

def SharedFile.step (s : SharedFile) : FileAction → Option SharedFile
  | .load =>
    match s.reading with
    | none => some { s with reading := some (.loaded s.fPos) }
    | some _ => none
  | .lockedRead env count =>
    match s.reading with
    | some (.loaded pos) =>
      let (result, kernel) := aesdRead env count pos s.kernel
      some { s with
        kernel
        reading := some (.returned result.fPos)
        effects := s.effects ++ recorded .read result.retval }
    | _ => none
  | .store =>
    match s.reading with
    | some (.returned pos) => some { s with fPos := pos, reading := none }
    | _ => none
  | .seek env arg =>
    let (result, kernel) := aesdIoctl env aesdcharIocseekto arg s.fPos s.kernel
    some { s with
      kernel
      fPos := result.fPos
      effects := s.effects ++ recorded .seek result.retval }
  | .other llseek call => some { s with kernel := call.run llseek s.kernel }

/-! ## What the position should be -/

/-- The position after one more effect. -/
def Effect.apply (pos : Nat) : Effect → Nat
  | .read n => pos + n
  | .seek q => q

/-- The position after the effects, one after the other. -/
def positionOf (start : Nat) (effects : List Effect) : Nat := effects.foldl Effect.apply start

/-- After a read that returned `n` and a successful seek to `q`, both
finished and the last calls to take effect, the position is where the later
one of them left it. -/
def SharedFile.SeekKept (s : SharedFile) : Prop :=
  s.reading = none → ∀ (before : List Effect) (n q : Nat),
    (s.effects = before ++ [.read n, .seek q] → s.fPos = q) ∧
    (s.effects = before ++ [.seek q, .read n] → s.fPos = q + n)

/-- The position a seek would set: that of the offset in the stored line it
names, if its command and the lock can be had. -/
def SharedFile.target (s : SharedFile) (env : CallEnv) (arg : AesdSeekto) : Option Nat :=
  if env.interrupted = false ∧ env.notCopied = 0 then
    s.kernel.view.seekTo arg.writeCmd.toNat arg.writeCmdOffset.toNat
  else none

/-- A seek that would succeed while a read is under way seeks to the position
that the read has in its copy. -/
def InStep (s : SharedFile) : FileAction → Prop
  | .seek env arg => ∀ phase ∈ s.reading, ∀ q ∈ s.target env arg, q = phase.copy
  | _ => True

/-! ## Steps and the driver -/

/-- What a call leaves in the kernel does not depend on the `llseek` of the
file system. -/
theorem Call.run_llseek (llseek llseek' : Nat → Int → Int → Nat → SeekResult) (k : Kernel)
    (call : Call) : call.run llseek k = call.run llseek' k := by
  cases call with
  | write | read | ioctl => rfl
  | lseek env off whence fPos =>
    simp only [Call.run, aesdLseek]
    split <;> rfl

theorem Kernel.Reachable.call {k : Kernel} (h : k.Reachable)
    (llseek : Nat → Int → Int → Nat → SeekResult) (call : Call) :
    (call.run llseek k).Reachable := by
  obtain ⟨llseek', calls, rfl⟩ := h
  refine ⟨llseek', calls ++ [call], ?_⟩
  rw [Call.run_llseek llseek llseek', runCalls, runCalls, List.foldl_append]
  rfl

theorem Kernel.Reachable.lines_ne {k : Kernel} (h : k.Reachable) :
    ∀ l ∈ k.view.lines, l ≠ [] := by
  obtain ⟨llseek, calls, rfl⟩ := h
  exact fun l hl => (mem_lines_runCalls llseek calls hl).1

/-- **What a step does**, with the outcome of the call it makes. -/
inductive Moves (s : SharedFile) : FileAction → SharedFile → Prop where
  | load (h : s.reading = none) : Moves s .load { s with reading := some (.loaded s.fPos) }
  | read {env : CallEnv} {count pos n : Nat} {kernel : Kernel}
      (h : s.reading = some (.loaded pos)) : Moves s (.lockedRead env count)
        ⟨kernel, s.fPos, some (.returned (pos + n)), s.effects ++ [.read n]⟩
  | readFailed {env : CallEnv} {count pos : Nat} {kernel : Kernel}
      (h : s.reading = some (.loaded pos)) : Moves s (.lockedRead env count)
        ⟨kernel, s.fPos, some (.returned pos), s.effects⟩
  | store {pos : Nat} (h : s.reading = some (.returned pos)) :
      Moves s .store { s with fPos := pos, reading := none }
  | sought {env : CallEnv} {arg : AesdSeekto} {q : Nat} {kernel : Kernel}
      (h : s.target env arg = some q) :
      Moves s (.seek env arg) ⟨kernel, q, s.reading, s.effects ++ [.seek q]⟩
  | seekFailed {env : CallEnv} {arg : AesdSeekto} {kernel : Kernel}
      (h : s.target env arg = none) :
      Moves s (.seek env arg) ⟨kernel, s.fPos, s.reading, s.effects⟩
  | other {llseek : Nat → Int → Int → Nat → SeekResult} {call : Call} {kernel : Kernel} :
      Moves s (.other llseek call) { s with kernel }

/-- A seek sets its target, or leaves the position alone where it has none. -/
theorem SharedFile.seek_cases {s : SharedFile} (hk : s.kernel.Reachable) (env : CallEnv)
    (arg : AesdSeekto) :
    (∃ q : Nat, s.target env arg = some q ∧
        (aesdIoctl env aesdcharIocseekto arg s.fPos s.kernel).1 = ⟨q, q⟩) ∨
      ∃ e : Nat, s.target env arg = none ∧
        (aesdIoctl env aesdcharIocseekto arg s.fPos s.kernel).1 = ⟨-(e + 1 : Nat), s.fPos⟩ := by
  rcases hk.idle.owned.seekto_cases hk.lines_ne env s.fPos arg with
    ⟨q, hok, hseek, hres⟩ | ⟨e, hbad, hres⟩
  · exact Or.inl ⟨q, by rw [target, if_pos hok, hseek], hres⟩
  · refine Or.inr ⟨e, ?_, hres⟩
    rw [target]
    split
    · rename_i hok
      exact (Device.seekTo_eq_none_iff ..).mpr fun hoff => hbad ⟨hok, hoff⟩
    · rfl

theorem recorded_of_nonneg (effect : Nat → Effect) (n : Nat) :
    recorded effect (n : Int) = [effect n] := by
  rw [recorded, if_pos (Int.natCast_nonneg n), Int.toNat_natCast]

theorem recorded_of_neg (effect : Nat → Effect) (e : Nat) :
    recorded effect (-(e + 1 : Nat)) = [] := if_neg (by omega)

/-- Every step is one of these moves, and leaves the driver in a state that
its calls can reach. -/
theorem step_moves {s s' : SharedFile} {a : FileAction} (hk : s.kernel.Reachable)
    (hstep : s.step a = some s') : Moves s a s' ∧ s'.kernel.Reachable := by
  cases a with
  | load =>
    simp only [SharedFile.step] at hstep
    split at hstep
    · rename_i hnone
      cases hstep
      exact ⟨.load hnone, hk⟩
    · cases hstep
  | lockedRead env count =>
    simp only [SharedFile.step] at hstep
    split at hstep
    · rename_i pos hpos
      cases hstep
      refine ⟨?_, hk.call (fun p _ _ _ => ⟨0, p⟩) (.read env count pos)⟩
      have hmove := aesdRead_fPos hk.idle env count pos
      generalize hres : aesdRead env count pos s.kernel = res at hmove ⊢
      obtain ⟨⟨retval, data, fPos⟩, kernel⟩ := res
      simp only at hmove ⊢
      cases retval with
      | ofNat n =>
        rw [hmove]
        rw [show recorded Effect.read (Int.ofNat n) = _ from recorded_of_nonneg _ n]
        exact .read hpos
      | negSucc e =>
        rw [hmove]
        rw [show recorded Effect.read (Int.negSucc e) = _ from recorded_of_neg _ e,
            List.append_nil]
        exact .readFailed hpos
    · cases hstep
  | store =>
    simp only [SharedFile.step] at hstep
    split at hstep
    · rename_i pos hpos
      cases hstep
      exact ⟨.store hpos, hk⟩
    · cases hstep
  | seek env arg =>
    simp only [SharedFile.step, Option.some.injEq] at hstep
    subst hstep
    refine ⟨?_, hk.call (fun p _ _ _ => ⟨0, p⟩) (.ioctl env aesdcharIocseekto arg s.fPos)⟩
    rcases s.seek_cases hk env arg with ⟨q, htarget, hres⟩ | ⟨e, htarget, hres⟩
    · rw [hres, recorded_of_nonneg]
      exact .sought htarget
    · rw [hres, recorded_of_neg, List.append_nil]
      exact .seekFailed htarget
  | other llseek call =>
    cases hstep
    exact ⟨.other, hk.call llseek call⟩

/-! ## Runs in step -/

/-- The position in force: the copy of a read under way, else `f_pos`. -/
def SharedFile.position (s : SharedFile) : Nat := s.reading.elim s.fPos ReadPhase.copy

/-- The driver is in order, and the position in force is the one the effects
make. -/
structure PositionInv (start : Nat) (s : SharedFile) : Prop where
  kernel : s.kernel.Reachable
  position : s.position = positionOf start s.effects

theorem positionOf_append (start : Nat) (effects : List Effect) (e : Effect) :
    positionOf start (effects ++ [e]) = e.apply (positionOf start effects) := by
  simp [positionOf]

theorem positionInv_opened {k : Kernel} (hk : k.Reachable) (start : Nat) :
    PositionInv start (.opened k start) := ⟨hk, rfl⟩

/-- A step that is in step keeps it so. -/
theorem positionInv_step {start : Nat} (s : SharedFile) (a : FileAction) (s' : SharedFile)
    (h : PositionInv start s) (hin : InStep s a) (hstep : s.step a = some s') :
    PositionInv start s' := by
  obtain ⟨hmoves, hk⟩ := step_moves h.kernel hstep
  have hpos := h.position
  refine ⟨hk, ?_⟩
  cases hmoves with
  | load hnone =>
    rw [SharedFile.position, hnone] at hpos
    exact hpos
  | read hloaded =>
    rw [SharedFile.position, hloaded] at hpos
    rw [positionOf_append, ← hpos]
    rfl
  | readFailed hloaded =>
    rw [SharedFile.position, hloaded] at hpos
    exact hpos
  | store hreturned =>
    rw [SharedFile.position, hreturned] at hpos
    exact hpos
  | @sought env arg q kernel htarget =>
    rw [positionOf_append]
    show s.reading.elim q ReadPhase.copy = q
    cases hreading : s.reading with
    | none => rfl
    | some phase => exact (hin phase hreading q htarget).symm
  | seekFailed _ => exact hpos
  | other => exact hpos

/-- **The position after a run in step** is the one the effects make. -/
theorem position_run {k : Kernel} (hk : k.Reachable) {start : Nat} {as : List FileAction}
    {s : SharedFile} (hin : Along SharedFile.step InStep (.opened k start) as)
    (hrun : run SharedFile.step (.opened k start) as = some s) (hnone : s.reading = none) :
    s.fPos = positionOf start s.effects := by
  have hinv := StepSystem.run_invariant_along positionInv_step (positionInv_opened hk start)
    hin hrun
  have hpos := hinv.position
  rw [SharedFile.position, hnone] at hpos
  exact hpos

/-! ## Seeks out of step -/

/-- A read that holds the copy `pos` can finish, and leaves the file behind
that position. -/
theorem finish_read {s : SharedFile} (hk : s.kernel.Reachable) {pos : Nat}
    (hloaded : s.reading = some (.loaded pos)) :
    ∃ n s', run SharedFile.step s [.lockedRead .ok 1, .store] = some s' ∧
      s'.reading = none ∧ s'.fPos = pos + n ∧ s'.effects = s.effects ++ [.read n] := by
  have hres := hk.idle.aesdRead_ok 1 pos
  let n := (s.kernel.view.readAt 1 pos).length
  refine ⟨n, ⟨s.kernel, pos + n, none, s.effects ++ [.read n]⟩, ?_, rfl, rfl, rfl⟩
  rw [run, SharedFile.step, hloaded]
  simp only [hres, recorded_of_nonneg, Option.bind_some]
  rfl

theorem SharedFile.not_seekKept {s : SharedFile} {before : List Effect} {n pos q : Nat}
    (hnone : s.reading = none) (hpos : s.fPos = pos + n)
    (heffects : s.effects = before ++ [.seek q, .read n]) (hne : q ≠ pos) : ¬ s.SeekKept := by
  intro hkept
  have := (hkept hnone before n q).2 heffects
  omega

/-- **A seek out of step is lost**: once the read under way has gone on, and
the position has been read from once more, the file is not behind the
position that was sought. -/
theorem seek_lost {s : SharedFile} (hk : s.kernel.Reachable) {env : CallEnv} {arg : AesdSeekto}
    (hout : ¬ InStep s (.seek env arg)) :
    ∃ bs s', (∀ b ∈ bs, ∀ env arg, b ≠ .seek env arg) ∧
      run SharedFile.step s (.seek env arg :: bs) = some s' ∧ ¬ s'.SeekKept := by
  simp only [InStep, not_forall] at hout
  obtain ⟨phase, hphase, q, hq, hne⟩ := hout
  have hreading : s.reading = some phase := hphase
  have htarget : s.target env arg = some q := hq
  obtain ⟨s₁, hs₁⟩ : ∃ s₁, s.step (.seek env arg) = some s₁ := ⟨_, rfl⟩
  obtain ⟨hmoves, hk₁⟩ := step_moves hk hs₁
  obtain ⟨hreading₁, heffects₁⟩ :
      s₁.reading = some phase ∧ s₁.effects = s.effects ++ [.seek q] := by
    cases hmoves with
    | sought h =>
      rw [htarget, Option.some.injEq] at h
      exact ⟨hreading, by rw [h]⟩
    | seekFailed h =>
      rw [htarget] at h
      cases h
  cases phase with
  | loaded pos =>
    obtain ⟨n, s', hrun, hnone, hpos, heffects⟩ := finish_read hk₁ hreading₁
    have hlast : s'.effects = s.effects ++ [.seek q, .read n] := by
      rw [heffects, heffects₁, List.append_assoc]
      rfl
    refine ⟨[.lockedRead .ok 1, .store], s', by simp, ?_,
      SharedFile.not_seekKept hnone hpos hlast hne⟩
    rw [run, hs₁, Option.bind_some, hrun]
  | returned pos =>
    -- The store puts the copy back; the next read starts from there.
    obtain ⟨n, s', hrun, hnone, hpos, heffects⟩ :=
      @finish_read { s₁ with fPos := pos, reading := some (.loaded pos) } hk₁ pos rfl
    have hlast : s'.effects = s.effects ++ [.seek q, .read n] := by
      rw [heffects, heffects₁, List.append_assoc]
      rfl
    refine ⟨[.store, .load, .lockedRead .ok 1, .store], s', by simp, ?_,
      SharedFile.not_seekKept hnone hpos hlast hne⟩
    rw [run, hs₁, Option.bind_some, run, SharedFile.step, hreading₁]
    exact hrun

/-- **When a seek survives a concurrent read.** In a run in step the property
holds in every state reached; and a seek out of step, in any run, is lost
when the read it meets goes on. -/
theorem seek_kept_in_step {k : Kernel} (hk : k.Reachable) (start : Nat) (as : List FileAction)
    (s : SharedFile) (hrun : run SharedFile.step (.opened k start) as = some s) :
    (Along SharedFile.step InStep (.opened k start) as → s.SeekKept) ∧
    ∀ env arg, ¬ InStep s (.seek env arg) →
      ∃ bs s', (∀ b ∈ bs, ∀ env arg, b ≠ .seek env arg) ∧
        run SharedFile.step (.opened k start) (as ++ .seek env arg :: bs) = some s' ∧
        ¬ s'.SeekKept := by
  refine ⟨fun hin hnone before n q => ?_, fun env arg hout => ?_⟩
  · have hpos := position_run hk hin hrun hnone
    refine ⟨fun heffects => ?_, fun heffects => ?_⟩
    · rw [hpos, heffects]
      simp [positionOf, Effect.apply]
    · rw [hpos, heffects]
      simp [positionOf, Effect.apply]
  · have hks : s.kernel.Reachable := by
      have hstep : ∀ t a t', t.kernel.Reachable → SharedFile.step t a = some t' →
          t'.kernel.Reachable := fun t a t' ht hs => (step_moves ht hs).2
      exact StepSystem.run_invariant hstep (show (SharedFile.opened k start).kernel.Reachable
        from hk) hrun
    obtain ⟨bs, s', hreads, hrun', hlost⟩ := seek_lost hks hout
    exact ⟨bs, s', hreads, by rw [run_append, hrun, Option.bind_some, hrun'], hlost⟩

/-- On a device that holds `"hi\n"`, a read of two bytes from the start and a
seek to the start: the seek comes after the bytes are read and before the
position is stored. -/
def lateStore : List FileAction :=
  [.load, .lockedRead .ok 2, .seek .ok ⟨0, 0⟩, .store]

/-- The seek to position 0 is overwritten with position 2. -/
theorem lateStore_seek_lost :
    ¬ ∀ (k : Kernel) (start : Nat) (as : List FileAction) (s : SharedFile), k.Reachable →
      run SharedFile.step (.opened k start) as = some s → s.SeekKept := by
  intro hall
  obtain ⟨s, hs, hpos, hreading, heffects⟩ :
      ∃ s, run SharedFile.step (.opened (runCalls (fun p _ _ _ => ⟨0, p⟩) oneLineRun) 0)
        lateStore = some s ∧ s.fPos = 2 ∧ s.reading = none ∧ s.effects = [.read 2, .seek 0] :=
    ⟨_, rfl, by decide, by decide, by decide⟩
  have hkept := hall _ 0 lateStore s ⟨_, oneLineRun, rfl⟩ hs
  have hzero := (hkept hreading [] 2 0).1 heffects
  omega

/-- The same two calls, one after the other. -/
theorem seek_kept_one_after_the_other :
    ∃ s, run SharedFile.step (.opened (runCalls (fun p _ _ _ => ⟨0, p⟩) oneLineRun) 0)
        [.load, .lockedRead .ok 2, .store, .seek .ok ⟨0, 0⟩] = some s ∧ s.SeekKept := by
  obtain ⟨s, hs⟩ : ∃ s, run SharedFile.step
      (.opened (runCalls (fun p _ _ _ => ⟨0, p⟩) oneLineRun) 0)
      [.load, .lockedRead .ok 2, .store, .seek .ok ⟨0, 0⟩] = some s := ⟨_, rfl⟩
  refine ⟨s, hs, (seek_kept_in_step ⟨_, oneLineRun, rfl⟩ 0 _ s hs).1 ⟨trivial, fun s₁ _ =>
    ⟨trivial, fun s₂ _ => ⟨trivial, fun s₃ hs₃ => ⟨?_, fun _ _ => trivial⟩⟩⟩⟩⟩
  intro phase hphase
  have hnone : s₃.reading = none := by
    simp only [SharedFile.step] at hs₃
    split at hs₃
    · cases hs₃; rfl
    · cases hs₃
  rw [hnone] at hphase
  cases hphase

end Aesd.Driver

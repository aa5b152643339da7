/-
Aesd.SystemCalls.Verdicts — which verdict `do_system`, `do_exec` and
`do_exec_redirect` give on a command, and in which process.

A launcher is right when it returns in the caller alone, with true exactly for
a command that was started and was waited for with success, and had exited
with 0. `do_exec` is right in every run. `do_exec_redirect` is right as long as
the child can duplicate its descriptor: otherwise the child returns too.
`do_system` compares the whole status word with -1 and 127, so that every
command that ran counts as a success.
-/
import Aesd.SystemCalls.Launch

namespace Aesd.SystemCalls

open StepSystem WaitStatus

/-- What a call of a launcher came to. -/
structure Report where
  returns : List (Process × Bool)
  started : Bool
  waited : Option Int

/-- It returned in the caller alone, and true for success alone. -/
def Report.Right (r : Report) : Prop :=
  ∃ value, r.returns = [(.parent, value)] ∧
    (value = true ↔
      r.started = true ∧ ∃ w ∈ r.waited, wIfExited w = true ∧ wExitStatus w = 0)

theorem returnValue_eq_true_iff (status : Int) :
    returnValue status = true ↔ wIfExited status = true ∧ wExitStatus status = 0 := by
  simp [returnValue]

/-! ## `do_system` -/

/-- What becomes of the child of `system`. It has to start the shell before it
can exit with 0. -/
inductive SystemOutcome where
  | noChild
  | notWaited (started : Bool)
  | ended (started : Bool) (t : Termination) (h : t = .exited 0 → started = true)

/-- The value of `system`. -/
def SystemOutcome.sysRet : SystemOutcome → Int
  | .noChild | .notWaited _ => -1
  | .ended _ t _ => t.status

/-- `do_system`, after the call of `system`. -/
def doSystem (cmd : Option (List UInt8)) (sysRet : Int) : Bool :=
  if cmd = none ∧ sysRet = 0 then false
  else if sysRet = -1 then false
  else if sysRet = 127 then false
  else true

/-- A call of `do_system`. -/
def doSystemReport (cmd : Option (List UInt8)) (o : SystemOutcome) : Report where
  returns := [(.parent, doSystem cmd o.sysRet)]
  started :=
    match o with
    | .noChild => false
    | .notWaited started | .ended started _ _ => started
  waited :=
    match o with
    | .ended _ t _ => some t.status
    | _ => none

/-- No status word is -1 or 127. -/
theorem doSystem_status (cmd : List UInt8) (t : Termination) :
    doSystem (some cmd) t.status = true := by
  have hnonneg := status_nonneg t
  have hne : t.status ≠ -1 := by omega
  simp [doSystem, hne, status_ne_127 t]

/-- `do_system` is right where `system` gives -1 or 0. -/
theorem doSystem_right_iff (cmd : List UInt8) (o : SystemOutcome) :
    (doSystemReport (some cmd) o).Right ↔ o.sysRet = -1 ∨ o.sysRet = 0 := by
  cases o with
  | noChild => simp [Report.Right, doSystemReport, SystemOutcome.sysRet, doSystem]
  | notWaited started => simp [Report.Right, doSystemReport, SystemOutcome.sysRet, doSystem]
  | ended started t h =>
    have hne : t.status ≠ -1 := by
      have hnonneg := status_nonneg t
      omega
    simp only [SystemOutcome.sysRet, hne, false_or, status_eq_zero_iff]
    constructor
    · rintro ⟨value, hreturns, hvalue⟩
      obtain rfl : true = value := by
        simpa [doSystemReport, SystemOutcome.sysRet, doSystem_status] using hreturns
      obtain ⟨-, w, hw, hexit⟩ := hvalue.mp rfl
      cases hw
      exact (exited_zero_iff t).mp hexit
    · intro ht
      refine ⟨true, by simp [doSystemReport, SystemOutcome.sysRet, doSystem_status], ?_⟩
      exact iff_of_true rfl ⟨h ht, t.status, rfl, (exited_zero_iff t).mpr ht⟩

/-! ## The two that fork -/

def Launch.report (s : Launch) : Report where
  returns := s.returns
  started := s.started
  waited := s.waited

def Action.ofCaller : Action → Bool
  | .fork _ | .openFile .parent _ | .waitpid _ => true
  | _ => false

/-- The caller has no step left to take. -/
def CallerDone (step : Launch → Action → Option Launch) (s : Launch) : Prop :=
  ∀ a, a.ofCaller = true → step s a = none

def ParentPc.value : ParentPc → Option Bool
  | .returned value => some value
  | _ => none

@[simp] theorem ParentPc.value_returned (value : Bool) :
    (ParentPc.returned value).value = some value := rfl

/-- Only the parent returns, with a verdict on the status that it has. -/
structure Accounted (s : Launch) : Prop where
  returns : s.returns = s.parent.value.toList.map (fun value => (.parent, value))
  unwaited : s.parent.value = none → s.waited = none
  verdict : ∀ value, s.parent.value = some value → value = s.waited.any returnValue
  waited : ∀ w ∈ s.waited, ∃ t, s.child = .terminated t ∧ t.status = w
  inside : ∀ value, s.child ≠ .returned value
  started : s.child = .running ∨ s.child = .terminated (.exited 0) → s.started = true

theorem Accounted.init (file : Option (List UInt8)) : Accounted (.init file) where
  returns := rfl
  unwaited _ := rfl
  verdict := nofun
  waited := nofun
  inside := nofun
  started := nofun

variable {s s' : Launch} {a : Action}

/-- A launch that is accounted for is right once the parent has returned. -/
theorem Accounted.right (h : Accounted s) {value : Bool} (hs : s.parent = .returned value) :
    s.report.Right := by
  refine ⟨value, by simp [Launch.report, h.returns, hs], ?_⟩
  rw [h.verdict value (by simp [hs]), Option.any_eq_true]
  constructor
  · rintro ⟨w, hw, hret⟩
    have hzero := (returnValue_eq_true_iff w).mp hret
    obtain ⟨t, ht, rfl⟩ := h.waited w hw
    rw [exited_zero_iff] at hzero
    exact ⟨h.started (.inr (hzero ▸ ht)), t.status, hw, (exited_zero_iff t).mpr hzero⟩
  · rintro ⟨-, w, hw, hzero⟩
    exact ⟨w, hw, (returnValue_eq_true_iff w).mpr hzero⟩

/-- The parent goes on, and does not return. -/
theorem Accounted.goOn (h : Accounted s) {pc : ParentPc} (hs : s.parent.value = none)
    (hpc : pc.value = none) : Accounted { s with parent := pc } where
  returns := by simpa [hs, hpc] using h.returns
  unwaited _ := h.unwaited hs
  verdict := by simp [hpc]
  waited := h.waited
  inside := h.inside
  started := h.started

theorem Accounted.returnParent (h : Accounted s) (hs : s.parent.value = none) :
    Accounted (s.returnParent false) where
  returns := by simp [Launch.returnParent, h.returns, hs]
  unwaited := nofun
  verdict := by simp [Launch.returnParent, h.unwaited hs]
  waited := h.waited
  inside := h.inside
  started := h.started

/-- The child goes on, where no status has been waited for. -/
theorem Accounted.child (h : Accounted s) {pc : ChildPc} {started : Bool}
    (hrun : s.parent.value = none ∨ ∀ t, s.child ≠ .terminated t)
    (hinside : ∀ value, pc ≠ .returned value)
    (hstarted : pc = .running ∨ pc = .terminated (.exited 0) → started = true) :
    Accounted { s with child := pc, started := started } where
  returns := h.returns
  unwaited := h.unwaited
  verdict := h.verdict
  waited w hw := by
    rcases hrun with hvalue | hrun
    · simp [h.unwaited hvalue] at hw
    · obtain ⟨t, ht, -⟩ := h.waited w hw
      exact absurd ht (hrun t)
  inside := hinside
  started := hstarted

theorem Accounted.files (h : Accounted s) {fd redirected : Bool} {file : Option (List UInt8)}
    {offset : Nat} {output : List UInt8} :
    Accounted { s with fd, redirected, file, offset, output } :=
  ⟨h.returns, h.unwaited, h.verdict, h.waited, h.inside, h.started⟩

theorem Accounted.opened (h : Accounted s) (ok : Bool) : Accounted (s.opened ok) := by
  cases ok with
  | false => exact h
  | true => exact h.files

/-! ## What the steps keep -/

theorem CommandMoves.accounted (hmove : CommandMoves s a s') (h : Accounted s) :
    Accounted s' := by
  cases hmove with
  | started hpc => exact h.child (.inr (by simp [hpc])) nofun (fun _ => rfl)
  | notStarted hpc => exact h.child (.inr (by simp [hpc])) nofun nofun
  | wrote data hpc =>
    unfold Launch.writeOutput
    split <;> exact h.files
  | exited hpc =>
    refine h.child (.inr (by simp [hpc])) nofun ?_
    rintro (hrun | hexit)
    · cases hrun
    · exact absurd hexit (by decide)
  | ended t hend =>
    refine h.child (.inr (ChildPc.mayEnd_inside hend)) nofun ?_
    rintro (hrun | hexit)
    · cases hrun
    · cases hexit
      rcases ChildPc.mayEnd_exited hend with hrun | ⟨value, hret⟩
      · exact h.started (.inl hrun)
      · exact absurd hret (h.inside value)
  | waitFailed hpc => exact h.returnParent (by rw [hpc]; rfl)
  | waited t hpc hchild =>
    have hvalue : s.parent.value = none := by rw [hpc]; rfl
    refine ⟨?_, nofun, ?_, ?_, h.inside, h.started⟩
    · simp [Launch.returnParent, h.returns, hvalue]
    · simp [Launch.returnParent]
    · rintro w hw
      cases hw
      exact ⟨t, hchild, rfl⟩

theorem DoExecMoves.accounted (hmove : DoExecMoves s a s') (h : Accounted s) : Accounted s' := by
  cases hmove with
  | forked hpc =>
    have hvalue : s.parent.value = none := by rw [hpc]; rfl
    have hchild : Accounted { s with child := .executing } := h.child (.inl hvalue) nofun nofun
    exact hchild.goOn hvalue rfl
  | forkFailed hpc => exact h.returnParent (by rw [hpc]; rfl)
  | command hmove => exact hmove.accounted h

/-- In `do_exec_redirect` it takes a child that can duplicate its descriptor. -/
theorem DoExecRedirectMoves.accounted (hmove : DoExecRedirectMoves s a s')
    (hdup : a ≠ .dup2 false) (h : Accounted s) : Accounted s' := by
  cases hmove with
  | forked hpc =>
    have hvalue : s.parent.value = none := by rw [hpc]; rfl
    have hchild : Accounted { s with child := .opening } := h.child (.inl hvalue) nofun nofun
    exact hchild.goOn hvalue rfl
  | forkFailed hpc => exact h.goOn (by rw [hpc]; rfl) rfl
  | parentOpened ok hpc =>
    refine (h.opened ok).goOn ?_ rfl
    rw [Launch.opened_parent, hpc]
    rfl
  | callerOpened ok hpc =>
    refine (h.opened ok).returnParent ?_
    rw [Launch.opened_parent, hpc]
    rfl
  | childOpened ok hpc =>
    have hchild : Accounted { s.opened ok with child := .duplicating } :=
      (h.opened ok).child (.inr (by simp [hpc])) nofun nofun
    exact hchild.files
  | duplicated hpc hfd =>
    have hchild : Accounted { s with child := .executing } :=
      h.child (.inr (by simp [hpc])) nofun nofun
    exact hchild.files
  | notDuplicated hpc => exact absurd rfl hdup
  | command hmove => exact hmove.accounted h

/-- What has returned stays so. -/
theorem CommandMoves.mem_returns (hmove : CommandMoves s a s') {r : Process × Bool}
    (hr : r ∈ s.returns) : r ∈ s'.returns := by
  cases hmove with
  | wrote data hpc => simpa using hr
  | waitFailed hpc => exact List.mem_append_left _ hr
  | waited t hpc hchild => exact List.mem_append_left _ hr
  | _ => exact hr

theorem DoExecRedirectMoves.mem_returns (hmove : DoExecRedirectMoves s a s') {r : Process × Bool}
    (hr : r ∈ s.returns) : r ∈ s'.returns := by
  cases hmove with
  | parentOpened ok hpc => simpa using hr
  | callerOpened ok hpc => exact List.mem_append_left _ (by simpa using hr)
  | childOpened ok hpc => simpa using hr
  | notDuplicated hpc => exact List.mem_append_left _ hr
  | command hmove => exact hmove.mem_returns hr
  | _ => exact hr

/-- A child that cannot duplicate its descriptor returns. -/
theorem DoExecRedirectMoves.returns_child (hmove : DoExecRedirectMoves s (.dup2 false) s') :
    (Process.child, false) ∈ s'.returns := by
  cases hmove with
  | notDuplicated hpc => exact List.mem_concat_self
  | command hmove => cases hmove

/-! ## Runs -/

/-- `do_exec` has no file to open. -/
theorem DoExecMoves.not_opening (hmove : DoExecMoves s a s')
    (h : ∀ forked, s.parent ≠ .opening forked) : ∀ forked, s'.parent ≠ .opening forked := by
  cases hmove with
  | forked hpc => exact nofun
  | forkFailed hpc => exact nofun
  | command hmove =>
    cases hmove with
    | wrote data hpc => simpa using h
    | waitFailed hpc => exact nofun
    | waited t hpc hchild => exact nofun
    | _ => exact h

theorem doExec_callerDone_iff (h : ∀ forked, s.parent ≠ .opening forked) :
    CallerDone doExecStep s ↔ ∃ value, s.parent = .returned value := by
  constructor
  · intro hdone
    cases hs : s.parent with
    | forking => simpa [doExecStep, hs] using hdone (.fork true) rfl
    | opening forked => exact absurd hs (h forked)
    | waiting => simpa [doExecStep, commandStep, hs] using hdone (.waitpid false) rfl
    | returned value => exact ⟨value, rfl⟩
  · rintro ⟨value, hs⟩ a ha
    cases a <;> simp [Action.ofCaller] at ha <;> simp [doExecStep, commandStep, hs]

theorem doExecRedirect_callerDone_iff :
    CallerDone doExecRedirectStep s ↔ ∃ value, s.parent = .returned value := by
  constructor
  · intro hdone
    cases hs : s.parent with
    | forking => simpa [doExecRedirectStep, hs] using hdone (.fork true) rfl
    | opening forked =>
      cases forked <;> simpa [doExecRedirectStep, hs] using hdone (.openFile .parent true) rfl
    | waiting =>
      simpa [doExecRedirectStep, commandStep, hs] using hdone (.waitpid false) rfl
    | returned value => exact ⟨value, rfl⟩
  · rintro ⟨value, hs⟩ a ha
    cases a with
    | openFile process ok =>
      cases process with
      | parent => simp [doExecRedirectStep, hs]
      | child => cases ha
    | _ => simp [Action.ofCaller] at ha <;> simp [doExecRedirectStep, commandStep, hs]

/-- `do_exec` is right. -/
theorem doExec_right {file : Option (List UInt8)} {as : List Action}
    (hrun : run doExecStep (.init file) as = some s) (hdone : CallerDone doExecStep s) :
    s.report.Right := by
  have hplaces : ∀ forked, s.parent ≠ .opening forked :=
    run_invariant (fun _ _ _ h hs => (doExecStep_moves hs).not_opening h)
      (fun _ => ParentPc.noConfusion) hrun
  obtain ⟨value, hs⟩ := (doExec_callerDone_iff hplaces).mp hdone
  have hacc : Accounted s :=
    run_invariant (fun _ _ _ h hs => (doExecStep_moves hs).accounted h) (.init file) hrun
  exact hacc.right hs

/-- `do_exec_redirect` is right as long as `dup2` succeeds. -/
theorem doExecRedirect_right_iff {file : Option (List UInt8)} {as : List Action}
    (hrun : run doExecRedirectStep (.init file) as = some s)
    (hdone : CallerDone doExecRedirectStep s) : s.report.Right ↔ .dup2 false ∉ as := by
  have hmem : .dup2 false ∉ as ↔
      Along doExecRedirectStep (fun _ a => a ≠ .dup2 false) (.init file) as := by
    rw [along_iff_forall_mem hrun]
    exact List.forall_mem_ne'.symm
  rw [hmem]
  constructor
  · rintro ⟨value, hreturns, -⟩
    have hchild : (Process.child, false) ∉ s.returns := by
      rw [show s.returns = [(.parent, value)] from hreturns]
      simp
    have hfall : ∀ t a t', True → doExecRedirectStep t a = some t' → ¬ a ≠ .dup2 false →
        (Process.child, false) ∈ t'.returns := by
      intro t a t' _ hs ha
      rw [not_ne_iff.mp ha] at hs
      exact (doExecRedirectStep_moves hs).returns_child
    exact along_of_trap (fun _ _ _ _ _ => trivial)
      (fun _ _ _ _ hbad hs => (doExecRedirectStep_moves hs).mem_returns hbad) hfall trivial hrun
      hchild
  · intro hdup
    obtain ⟨value, hs⟩ := doExecRedirect_callerDone_iff.mp hdone
    have hacc : Accounted s :=
      run_invariant_along (fun _ _ _ h hdup hs => (doExecRedirectStep_moves hs).accounted hdup h)
        (.init file) hdup hrun
    exact hacc.right hs

/-- **When the three launchers give the right verdict**: `system` has to give
-1 or 0, and the child of `do_exec_redirect` must get its standard output. -/
theorem launchers_right_iff (cmd : List UInt8) (o : SystemOutcome)
    {file file' : Option (List UInt8)} {as as' : List Action} {s s' : Launch}
    (hexec : run doExecStep (.init file) as = some s) (hdone : CallerDone doExecStep s)
    (hredirect : run doExecRedirectStep (.init file') as' = some s')
    (hdone' : CallerDone doExecRedirectStep s') :
    (doSystemReport (some cmd) o).Right ∧ s.report.Right ∧ s'.report.Right ↔
      (o.sysRet = -1 ∨ o.sysRet = 0) ∧ .dup2 false ∉ as' := by
  have hexecRight : s.report.Right := doExec_right hexec hdone
  rw [doSystem_right_iff, doExecRedirect_right_iff hredirect hdone']
  simp [hexecRight]

/-- `true`, by each of them. -/
theorem launchers_right_true :
    let s : Launch := { Launch.init none with
      parent := .returned true, child := .terminated (.exited 0), started := true,
      waited := some 0, returns := [(.parent, true)] }
    let s' : Launch := { s with fd := true, redirected := true, file := some [] }
    (doSystemReport (some [116, 114, 117, 101]) (.ended true (.exited 0) fun _ => rfl)).Right ∧
      s.report.Right ∧ s'.report.Right := by
  intro s s'
  have hexec : run doExecStep (.init none)
      [.fork true, .execv true, .finish (.exited 0), .waitpid true] = some s := by
    decide +kernel
  have hredirect : run doExecRedirectStep (.init none)
      [.fork true, .openFile .parent true, .openFile .child true, .dup2 true, .execv true,
        .finish (.exited 0), .waitpid true] = some s' := by decide +kernel
  have hdone : CallerDone doExecStep s :=
    (doExec_callerDone_iff fun _ => ParentPc.noConfusion).mpr ⟨true, rfl⟩
  have hdone' : CallerDone doExecRedirectStep s' :=
    doExecRedirect_callerDone_iff.mpr ⟨true, rfl⟩
  exact (launchers_right_iff _ _ hexec hdone hredirect hdone').mpr ⟨.inr rfl, by decide⟩

/-- `exit 1` is a success to `do_system`. A file that cannot be opened makes
`do_exec_redirect` return twice, and the second verdict is on what the first
return led to. -/
theorem launchers_not_right :
    ¬ (doSystemReport (some [101, 120, 105, 116, 32, 49])
      (.ended true (.exited 1) fun _ => rfl)).Right ∧
    (run doExecRedirectStep (.init none)
      [.fork true, .openFile .parent false, .openFile .child false, .dup2 false,
        .finish (.exited 0), .waitpid true]).map Launch.returns =
      some [(.child, false), (.parent, true)] := by
  refine ⟨?_, by decide⟩
  rw [doSystem_right_iff]
  decide

end Aesd.SystemCalls

/-
Aesd.SystemCalls.RepeatedLaunches — `do_exec_redirect` called again and again.

The function opens `outputfile` in both processes and closes it in neither,
although its comment says that the file is closed when the call completes.
The child's descriptor ends with the child; that of the caller stays. A
process has room for so many descriptors, and the child of a `fork` has no
more room than the caller. So each call takes one place, and once there is
none no command is ever started again (`descriptors_run_out`).
-/
import Aesd.SystemCalls.RedirectedOutput

namespace Aesd.SystemCalls

open StepSystem

/-! ## The `open` of the caller -/

def Action.opensInCaller : Action → Bool
  | .openFile .parent _ => true
  | _ => false

/-- How often the caller has called `open`. -/
def ParentPc.opens : ParentPc → Nat
  | .forking | .opening _ => 0
  | .waiting | .returned _ => 1

theorem CommandMoves.opens {s s' : Launch} {a : Action} (hmove : CommandMoves s a s') :
    s'.parent.opens = s.parent.opens + [a].countP Action.opensInCaller := by
  cases hmove with
  | waitFailed hpc => simp [Launch.returnParent, ParentPc.opens, Action.opensInCaller, hpc]
  | waited t hpc hchild => simp [Launch.returnParent, ParentPc.opens, Action.opensInCaller, hpc]
  | _ => simp [Action.opensInCaller]

theorem DoExecRedirectMoves.opens {s s' : Launch} {a : Action} (hmove : DoExecRedirectMoves s a s') :
    s'.parent.opens = s.parent.opens + [a].countP Action.opensInCaller := by
  cases hmove with
  | command hmove => exact hmove.opens
  | forked hpc => simp [ParentPc.opens, Action.opensInCaller, hpc]
  | forkFailed hpc => simp [ParentPc.opens, Action.opensInCaller, hpc]
  | parentOpened ok hpc => simp [ParentPc.opens, Action.opensInCaller, hpc]
  | callerOpened ok hpc =>
    simp [Launch.returnParent, ParentPc.opens, Action.opensInCaller, hpc]
  | childOpened ok hpc => simp [Action.opensInCaller]
  | duplicated => simp [Action.opensInCaller]
  | notDuplicated => simp [Launch.returnChild, Action.opensInCaller]

theorem opens_of_run {s s' : Launch} {schedule : List Action}
    (hrun : run doExecRedirectStep s schedule = some s') :
    s'.parent.opens = s.parent.opens + schedule.countP Action.opensInCaller := by
  induction schedule generalizing s with
  | nil =>
    cases hrun
    simp
  | cons a schedule ih =>
    obtain ⟨s₁, hstep, hrest⟩ := run_cons hrun
    rw [ih hrest, (doExecRedirectStep_moves hstep).opens, Nat.add_assoc, ← List.countP_append]
    rfl

/-! ## Without a descriptor -/

/-- The child has not come past its `dup2`. -/
structure NotStarted (s : Launch) : Prop where
  fd : s.fd = false
  started : s.started = false
  child : s.child ≠ .executing ∧ s.child ≠ .running ∧ s.child ≠ .exiting

theorem CommandMoves.keepsNotStarted {s s' : Launch} {a : Action} (hmove : CommandMoves s a s')
    (h : NotStarted s) : NotStarted s' := by
  obtain ⟨hfd, hstarted, hexecuting, hrunning, hexiting⟩ := h
  cases hmove with
  | started hpc => exact absurd hpc hexecuting
  | notStarted hpc => exact absurd hpc hexecuting
  | wrote data hpc => exact absurd hpc hrunning
  | exited hpc => exact absurd hpc hexiting
  | ended t hend => exact ⟨hfd, hstarted, nofun, nofun, nofun⟩
  | waitFailed hpc => exact ⟨hfd, hstarted, hexecuting, hrunning, hexiting⟩
  | waited t hpc hchild => exact ⟨hfd, hstarted, hexecuting, hrunning, hexiting⟩

theorem DoExecRedirectMoves.keepsNotStarted {s s' : Launch} {a : Action}
    (hmove : DoExecRedirectMoves s a s') (ha : a ≠ .openFile .child true) (h : NotStarted s) :
    NotStarted s' := by
  have hsame := h
  obtain ⟨hfd, hstarted, hchild⟩ := h
  cases hmove with
  | command hmove => exact hmove.keepsNotStarted hsame
  | forked hpc => exact ⟨hfd, hstarted, nofun, nofun, nofun⟩
  | forkFailed hpc => exact ⟨hfd, hstarted, hchild⟩
  | parentOpened ok hpc => cases ok <;> exact ⟨hfd, hstarted, hchild⟩
  | callerOpened ok hpc => cases ok <;> exact ⟨hfd, hstarted, hchild⟩
  | childOpened ok hpc =>
    cases ok with
    | true => exact absurd rfl ha
    | false => exact ⟨rfl, hstarted, nofun, nofun, nofun⟩
  | duplicated hpc hfd' => exact nomatch hfd.symm.trans hfd'
  | notDuplicated hpc => exact ⟨hfd, hstarted, nofun, nofun, nofun⟩

theorem notStarted_of_run {file : Option (List UInt8)} {schedule : List Action} {s : Launch}
    (hrun : run doExecRedirectStep (.init file) schedule = some s)
    (hopen : .openFile .child true ∉ schedule) : NotStarted s := by
  have hstep : ∀ t a t', NotStarted t → a ≠ .openFile .child true →
      doExecRedirectStep t a = some t' → NotStarted t' :=
    fun t a t' ht ha hstep => (doExecRedirectStep_moves hstep).keepsNotStarted ha ht
  have halong : Along doExecRedirectStep (fun _ a => a ≠ .openFile .child true) (.init file)
      schedule := (along_iff_forall_mem hrun).mpr (List.forall_mem_ne'.mpr hopen)
  exact run_invariant_along hstep ⟨rfl, rfl, by simp [Launch.init]⟩ halong hrun

/-! ## Call after call -/

/-- A call of the function: what `outputfile` contained, the steps of the two
processes, and how they ended up. -/
structure RedirectCall where
  file : Option (List UInt8)
  schedule : List Action
  final : Launch

/-- The call ran to its end in a caller with `openFds` open descriptors, of at
most `limit`; `open` fails where there is no room, and only there. -/
structure RedirectCall.Runs (limit openFds : Nat) (c : RedirectCall) : Prop where
  run : run doExecRedirectStep (.init c.file) c.schedule = some c.final
  returned : ∃ value, c.final.parent = .returned value
  room : ∀ process ok, .openFile process ok ∈ c.schedule → (ok = true ↔ openFds < limit)

/-- The descriptors that the call leaves open in the caller. -/
def RedirectCall.left (c : RedirectCall) : Nat := c.schedule.count (.openFile .parent true)

/-- The calls follow each other. -/
def RunsFrom (limit : Nat) : Nat → List RedirectCall → Prop
  | _, [] => True
  | openFds, c :: calls => c.Runs limit openFds ∧ RunsFrom limit (openFds + c.left) calls

/-- The descriptors of the caller after these calls. -/
def openAfter (openFds : Nat) (calls : List RedirectCall) : Nat :=
  openFds + (calls.map RedirectCall.left).sum

/-- Each call leaves one, if there is room. -/
theorem RedirectCall.Runs.left_eq {limit openFds : Nat} {c : RedirectCall}
    (h : c.Runs limit openFds) : c.left = if openFds < limit then 1 else 0 := by
  obtain ⟨value, hreturned⟩ := h.returned
  have hopens := opens_of_run h.run
  rw [hreturned, Launch.init, ParentPc.opens, ParentPc.opens, Nat.zero_add] at hopens
  split
  · rename_i hroom
    rw [hopens, RedirectCall.left, List.count]
    refine List.countP_congr fun a ha => ?_
    cases a with
    | openFile process ok =>
      have hok := (h.room process ok ha).mpr hroom
      cases process <;> simp [Action.opensInCaller, hok]
    | _ => simp [Action.opensInCaller]
  · rename_i hroom
    exact List.count_eq_zero.mpr fun ha => hroom ((h.room .parent true ha).mp rfl)

/-- Without room nothing is started and the file is left alone. -/
theorem RedirectCall.Runs.full {limit openFds : Nat} {c : RedirectCall}
    (h : c.Runs limit openFds) (hfull : limit ≤ openFds) :
    c.final.started = false ∧ c.final.file = c.file ∧ c.final.output = [] := by
  have hopen : ∀ process, .openFile process true ∉ c.schedule := fun process ha =>
    absurd ((h.room process true ha).mp rfl) (by omega)
  exact ⟨(notStarted_of_run h.run (hopen .child)).started, file_of_run_unopened h.run hopen⟩

theorem runsFrom_full {limit openFds : Nat} {calls : List RedirectCall}
    (h : RunsFrom limit openFds calls) (hle : openFds ≤ limit) :
    openAfter openFds calls = min limit (openFds + calls.length) ∧
      ∀ i c, calls[i]? = some c → limit ≤ openFds + i →
        c.final.started = false ∧ c.final.file = c.file ∧ c.final.output = [] := by
  induction calls generalizing openFds with
  | nil => exact ⟨(Nat.min_eq_right hle).symm, by simp⟩
  | cons c calls ih =>
    obtain ⟨hc, hcalls⟩ := h
    have hleft := hc.left_eq
    have hnext : openFds + c.left ≤ limit := by
      rw [hleft]
      split <;> omega
    obtain ⟨hafter, hfull⟩ := ih hcalls hnext
    refine ⟨?_, fun i d hi hlimit => ?_⟩
    · rw [openAfter, List.map_cons, List.sum_cons, ← Nat.add_assoc, ← openAfter, hafter,
        List.length_cons, hleft]
      split <;> omega
    · cases i with
      | zero =>
        cases hi
        exact hc.full (by simpa using hlimit)
      | succ i =>
        refine hfull i d hi ?_
        rw [hleft]
        split <;> omega

/-- **The descriptors run out.** Each call of `do_exec_redirect` leaves a
descriptor open in the caller until there is no room for more. From then on no
call starts its command or touches `outputfile`, so there are never more
commands started than there was room at first. -/
theorem descriptors_run_out {limit openFds : Nat} {calls : List RedirectCall}
    (h : RunsFrom limit openFds calls) (hle : openFds ≤ limit) :
    openAfter openFds calls = min limit (openFds + calls.length) ∧
    (∀ i c, calls[i]? = some c → limit ≤ openFds + i →
      c.final.started = false ∧ c.final.file = c.file ∧ c.final.output = []) ∧
    calls.countP (fun c => c.final.started) ≤ limit - openFds := by
  obtain ⟨hafter, hfull⟩ := runsFrom_full h hle
  refine ⟨hafter, hfull, ?_⟩
  have hlate : (calls.drop (limit - openFds)).countP (fun c => c.final.started) = 0 := by
    refine List.countP_eq_zero.mpr fun c hc => ?_
    obtain ⟨i, hi⟩ := List.mem_iff_getElem?.mp hc
    rw [List.getElem?_drop] at hi
    simp [(hfull _ c hi (by omega)).1]
  rw [← List.take_append_drop (limit - openFds) calls, List.countP_append, hlate, Nat.add_zero]
  exact Nat.le_trans List.countP_le_length (List.length_take_le _ _)

/-- The one call there is room for, with the caller first, and a call behind
it whose child returns into the code of the caller and ends there. -/
def twoCalls : List RedirectCall :=
  [⟨none, [.fork true, .openFile .parent true, .openFile .child true, .dup2 true, .execv true,
      .write [104, 105, 10], .finish (.exited 0), .waitpid true],
    { Launch.init none with
      parent := .returned true, child := .terminated (.exited 0), fd := true, redirected := true,
      file := some [104, 105, 10], offset := 3, output := [104, 105, 10], started := true,
      waited := some 0, returns := [(.parent, true)] }⟩,
    ⟨some [104], [.fork true, .openFile .parent false, .openFile .child false, .dup2 false,
      .finish (.exited 0), .waitpid true],
    { Launch.init (some [104]) with
      parent := .returned true, child := .terminated (.exited 0),
      waited := some 0, returns := [(.child, false), (.parent, true)] }⟩]

theorem descriptors_run_out_after_one : openAfter 3 twoCalls = 4 ∧
    twoCalls.countP (fun c => c.final.started) ≤ 4 - 3 := by
  have hfirst : ∀ process ok, .openFile process ok ∈ (twoCalls[0]).schedule →
      (ok = true ↔ 3 < 4) := by
    intro process ok hmem
    cases process <;> cases ok <;> simp_all [twoCalls]
  have hsecond : ∀ process ok, .openFile process ok ∈ (twoCalls[1]).schedule →
      (ok = true ↔ 4 < 4) := by
    intro process ok hmem
    cases process <;> cases ok <;> simp_all [twoCalls]
  have hruns : RunsFrom 4 3 twoCalls :=
    ⟨⟨by decide +kernel, ⟨true, rfl⟩, hfirst⟩, ⟨by decide +kernel, ⟨true, rfl⟩, hsecond⟩, trivial⟩
  obtain ⟨hafter, -, hstarted⟩ := descriptors_run_out hruns (by decide)
  exact ⟨hafter, hstarted⟩

end Aesd.SystemCalls

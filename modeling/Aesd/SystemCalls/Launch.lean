/-
Aesd.SystemCalls.Launch — `do_exec` and `do_exec_redirect` of systemcalls.c
as the two processes run them.

After `fork` the parent and the child go on in the same function, each at a
place of its own, and nothing orders their steps. An action is a call that one
of them makes, with the outcome that the system gives it, or something the
launched command does.

A child that returns from the function goes on in the code of the caller, and
ends as that code will have it. Before `execv` and in `exit` a signal can end
it, and nothing else.
-/
import Aesd.Library.RegularFile
import Aesd.Library.StepSystem
import Aesd.Library.WaitStatus

namespace Aesd.SystemCalls

open RegularFile WaitStatus

/-! ## The state of a launch -/

inductive Process where
  | parent
  | child
  deriving DecidableEq

inductive ParentPc where
  | forking
  | opening (forked : Bool)
  | waiting
  | returned (value : Bool)
  deriving DecidableEq

inductive ChildPc where
  | notCreated
  | opening
  | duplicating
  | executing
  | running
  | exiting
  | returned (value : Bool)
  | terminated (t : Termination)
  deriving DecidableEq

inductive Action where
  | fork (ok : Bool)
  | openFile (process : Process) (ok : Bool)
  | dup2 (ok : Bool)
  | execv (ok : Bool)
  | write (data : List UInt8)
  | exit
  | finish (t : Termination)
  | waitpid (ok : Bool)
  deriving DecidableEq

structure Launch where
  parent : ParentPc
  child : ChildPc
  /-- Whether the child's `open` gave it a descriptor. -/
  fd : Bool
  /-- Whether the standard output of the child is that descriptor. -/
  redirected : Bool
  /-- The contents of `outputfile`, where it exists. -/
  file : Option (List UInt8)
  offset : Nat
  /-- The bytes that the command has written to its standard output. -/
  output : List UInt8
  started : Bool
  /-- The status that `waitpid` has stored. -/
  waited : Option Int
  returns : List (Process × Bool)
  deriving DecidableEq

/-- A call of the function, before `fork`. -/
def Launch.init (file : Option (List UInt8)) : Launch where
  parent := .forking
  child := .notCreated
  fd := false
  redirected := false
  file := file
  offset := 0
  output := []
  started := false
  waited := none
  returns := []

/-! ## The calls -/

/-- `return value` in the parent. -/
def Launch.returnParent (s : Launch) (value : Bool) : Launch :=
  { s with parent := .returned value, returns := s.returns ++ [(.parent, value)] }

/-- `return value` in the child. -/
def Launch.returnChild (s : Launch) (value : Bool) : Launch :=
  { s with child := .returned value, returns := s.returns ++ [(.child, value)] }

/-- `open` with `O_CREAT | O_WRONLY | O_TRUNC`. -/
def Launch.opened (s : Launch) (ok : Bool) : Launch :=
  if ok then { s with file := some [] } else s

/-- `write` to the standard output of the command. -/
def Launch.writeOutput (s : Launch) (data : List UInt8) : Launch :=
  if s.redirected then
    { s with
      file := s.file.map fun contents => writeAt 0 contents s.offset data
      offset := s.offset + data.length
      output := s.output ++ data }
  else { s with output := s.output ++ data }

@[simp] theorem Launch.opened_parent (s : Launch) (ok : Bool) :
    (s.opened ok).parent = s.parent := by cases ok <;> rfl

@[simp] theorem Launch.opened_child (s : Launch) (ok : Bool) :
    (s.opened ok).child = s.child := by cases ok <;> rfl

@[simp] theorem Launch.opened_returns (s : Launch) (ok : Bool) :
    (s.opened ok).returns = s.returns := by cases ok <;> rfl

@[simp] theorem Launch.opened_output (s : Launch) (ok : Bool) :
    (s.opened ok).output = s.output := by cases ok <;> rfl

@[simp] theorem Launch.writeOutput_parent (s : Launch) (data : List UInt8) :
    (s.writeOutput data).parent = s.parent := by unfold Launch.writeOutput; split <;> rfl

@[simp] theorem Launch.writeOutput_returns (s : Launch) (data : List UInt8) :
    (s.writeOutput data).returns = s.returns := by unfold Launch.writeOutput; split <;> rfl

@[simp] theorem Launch.writeOutput_output (s : Launch) (data : List UInt8) :
    (s.writeOutput data).output = s.output ++ data := by unfold Launch.writeOutput; split <;> rfl

/-- `return_value` for the status of the child. -/
def returnValue (status : Int) : Bool :=
  if wIfExited status then
    if wExitStatus status = 0 then true else false
  else false

/-- The ends of the child there, other than by its own `exit`. -/
def ChildPc.mayEnd : ChildPc → Termination → Bool
  | .running, _ | .returned _, _ => true
  | .opening, .signaled _ _ | .duplicating, .signaled _ _ => true
  | .executing, .signaled _ _ | .exiting, .signaled _ _ => true
  | _, _ => false

theorem ChildPc.mayEnd_inside {pc : ChildPc} {t : Termination} (h : pc.mayEnd t = true) :
    ∀ t', pc ≠ .terminated t' := by
  rintro t' rfl
  cases h

/-- Only what runs, or has returned into other code, exits by itself. -/
theorem ChildPc.mayEnd_exited {pc : ChildPc} {code : UInt8}
    (h : pc.mayEnd (.exited code) = true) : pc = .running ∨ ∃ value, pc = .returned value := by
  cases pc with
  | running => exact .inl rfl
  | returned value => exact .inr ⟨value, rfl⟩
  | _ => cases h

/-! ## The two functions -/

/-- From `execv` in the child and `waitpid` in the parent on. -/
def commandStep (s : Launch) : Action → Option Launch
  | .execv ok =>
    match s.child with
    | .executing =>
      if ok then some { s with child := .running, started := true }
      else some { s with child := .exiting }
    | _ => none
  | .write data =>
    match s.child with
    | .running => some (s.writeOutput data)
    | _ => none
  | .exit =>
    match s.child with
    | .exiting => some { s with child := .terminated (WaitStatus.exit (-1)) }
    | _ => none
  | .finish t =>
    if s.child.mayEnd t then some { s with child := .terminated t } else none
  | .waitpid ok =>
    match s.parent with
    | .waiting =>
      if ok then
        match s.child with
        | .terminated t =>
          some ({ s with waited := some t.status }.returnParent (returnValue t.status))
        | _ => none
      else some (s.returnParent false)
    | _ => none
  | _ => none

/-- `do_exec`. -/
def doExecStep (s : Launch) : Action → Option Launch
  | .fork ok =>
    match s.parent with
    | .forking =>
      if ok then some { s with parent := .waiting, child := .executing }
      else some (s.returnParent false)
    | _ => none
  | a => commandStep s a

/-- `do_exec_redirect`. The file is opened behind `fork`, also where that has
failed. -/
def doExecRedirectStep (s : Launch) : Action → Option Launch
  | .fork ok =>
    match s.parent with
    | .forking =>
      if ok then some { s with parent := .opening true, child := .opening }
      else some { s with parent := .opening false }
    | _ => none
  | .openFile .parent ok =>
    match s.parent with
    | .opening true => some { s.opened ok with parent := .waiting }
    | .opening false => some ((s.opened ok).returnParent false)
    | _ => none
  | .openFile .child ok =>
    match s.child with
    | .opening => some { s.opened ok with child := .duplicating, fd := ok }
    | _ => none
  | .dup2 ok =>
    match s.child with
    | .duplicating =>
      if ok then
        -- There is no duplicate of -1.
        if s.fd then some { s with child := .executing, redirected := true } else none
      else some (s.returnChild false)
    | _ => none
  | a => commandStep s a

/-! ## What a step can do -/

inductive CommandMoves (s : Launch) : Action → Launch → Prop where
  | started (h : s.child = .executing) :
      CommandMoves s (.execv true) { s with child := .running, started := true }
  | notStarted (h : s.child = .executing) :
      CommandMoves s (.execv false) { s with child := .exiting }
  | wrote (data : List UInt8) (h : s.child = .running) :
      CommandMoves s (.write data) (s.writeOutput data)
  | exited (h : s.child = .exiting) :
      CommandMoves s .exit { s with child := .terminated (WaitStatus.exit (-1)) }
  | ended (t : Termination) (h : s.child.mayEnd t = true) :
      CommandMoves s (.finish t) { s with child := .terminated t }
  | waitFailed (h : s.parent = .waiting) : CommandMoves s (.waitpid false) (s.returnParent false)
  | waited (t : Termination) (h : s.parent = .waiting) (hchild : s.child = .terminated t) :
      CommandMoves s (.waitpid true)
        ({ s with waited := some t.status }.returnParent (returnValue t.status))

inductive DoExecMoves (s : Launch) : Action → Launch → Prop where
  | forked (h : s.parent = .forking) :
      DoExecMoves s (.fork true) { s with parent := .waiting, child := .executing }
  | forkFailed (h : s.parent = .forking) : DoExecMoves s (.fork false) (s.returnParent false)
  | command {a : Action} {s' : Launch} (h : CommandMoves s a s') : DoExecMoves s a s'

inductive DoExecRedirectMoves (s : Launch) : Action → Launch → Prop where
  | forked (h : s.parent = .forking) :
      DoExecRedirectMoves s (.fork true) { s with parent := .opening true, child := .opening }
  | forkFailed (h : s.parent = .forking) :
      DoExecRedirectMoves s (.fork false) { s with parent := .opening false }
  | parentOpened (ok : Bool) (h : s.parent = .opening true) :
      DoExecRedirectMoves s (.openFile .parent ok) { s.opened ok with parent := .waiting }
  | callerOpened (ok : Bool) (h : s.parent = .opening false) :
      DoExecRedirectMoves s (.openFile .parent ok) ((s.opened ok).returnParent false)
  | childOpened (ok : Bool) (h : s.child = .opening) :
      DoExecRedirectMoves s (.openFile .child ok)
        { s.opened ok with child := .duplicating, fd := ok }
  | duplicated (h : s.child = .duplicating) (hfd : s.fd = true) :
      DoExecRedirectMoves s (.dup2 true) { s with child := .executing, redirected := true }
  | notDuplicated (h : s.child = .duplicating) :
      DoExecRedirectMoves s (.dup2 false) (s.returnChild false)
  | command {a : Action} {s' : Launch} (h : CommandMoves s a s') : DoExecRedirectMoves s a s'

variable {s s' : Launch} {a : Action}

theorem commandStep_moves (h : commandStep s a = some s') : CommandMoves s a s' := by
  cases a <;> simp only [commandStep] at h
  case execv ok =>
    split at h
    · rename_i hchild
      cases ok <;> cases h
      · exact .notStarted hchild
      · exact .started hchild
    · cases h
  case write data =>
    split at h
    · rename_i hchild
      cases h
      exact .wrote data hchild
    · cases h
  case exit =>
    split at h
    · rename_i hchild
      cases h
      exact .exited hchild
    · cases h
  case finish t =>
    split at h
    · rename_i hend
      cases h
      exact .ended t hend
    · cases h
  case waitpid ok =>
    split at h
    · rename_i hparent
      cases ok
      · cases h
        exact .waitFailed hparent
      · simp only [if_true] at h
        split at h
        · rename_i t hchild
          cases h
          exact .waited t hparent hchild
        · cases h
    · cases h
  all_goals cases h

theorem doExecStep_moves (h : doExecStep s a = some s') : DoExecMoves s a s' := by
  cases a
  case fork ok =>
    simp only [doExecStep] at h
    split at h
    · rename_i hparent
      cases ok <;> cases h
      · exact .forkFailed hparent
      · exact .forked hparent
    · cases h
  all_goals exact .command (commandStep_moves h)

theorem doExecRedirectStep_moves (h : doExecRedirectStep s a = some s') :
    DoExecRedirectMoves s a s' := by
  cases a
  case fork ok =>
    simp only [doExecRedirectStep] at h
    split at h
    · rename_i hparent
      cases ok <;> cases h
      · exact .forkFailed hparent
      · exact .forked hparent
    · cases h
  case openFile process ok =>
    cases process <;> simp only [doExecRedirectStep] at h <;> split at h
    · rename_i hparent
      cases h
      exact .parentOpened ok hparent
    · rename_i hparent
      cases h
      exact .callerOpened ok hparent
    · cases h
    · rename_i hchild
      cases h
      exact .childOpened ok hchild
    · cases h
  case dup2 ok =>
    simp only [doExecRedirectStep] at h
    split at h
    · rename_i hchild
      cases ok
      · cases h
        exact .notDuplicated hchild
      · simp only [if_true] at h
        split at h
        · rename_i hfd
          cases h
          exact .duplicated hchild hfd
        · cases h
    · cases h
  all_goals exact .command (commandStep_moves h)

end Aesd.SystemCalls

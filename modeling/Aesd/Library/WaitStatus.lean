/-
Aesd.Library.WaitStatus — how a process ends, and the status word that
`waitpid` reports for it.

A word holds the exit code in its second byte, or the number of the signal
that killed the process in its first, with the top bit of that byte set when
the process left a core dump. The numbers 0 and 127 are no signals there: they
mark an exit and a stopped process.
-/
import Mathlib.Data.Nat.Notation

namespace WaitStatus

structure Signal where
  number : Nat
  pos : 0 < number
  lt : number < 127
  deriving DecidableEq

inductive Termination where
  | exited (code : UInt8)
  | signaled (signal : Signal) (coreDumped : Bool)
  deriving DecidableEq

/-- What `exit(status)` ends a process with. -/
def exit (status : Int) : Termination := .exited (UInt8.ofInt status)

/-- The status word. -/
def Termination.status : Termination → Int
  | .exited code => code.toNat * 256
  | .signaled signal coreDumped => signal.number + if coreDumped then 128 else 0

/-- `WIFEXITED`: the low seven bits are zero. -/
def wIfExited (status : Int) : Bool := status % 128 = 0

/-- `WEXITSTATUS`: the second byte. -/
def wExitStatus (status : Int) : Int := status / 256 % 256

theorem wIfExited_exited (code : UInt8) : wIfExited (Termination.exited code).status = true := by
  have hword : (code.toNat * 256 : Int) % 128 = 0 := by omega
  exact decide_eq_true hword

theorem wExitStatus_exited (code : UInt8) :
    wExitStatus (Termination.exited code).status = code.toNat := by
  have hlt := code.toNat_lt
  simp only [wExitStatus, Termination.status]
  omega

theorem wIfExited_signaled (signal : Signal) (coreDumped : Bool) :
    wIfExited (Termination.signaled signal coreDumped).status = false := by
  have hpos := signal.pos
  have hlt := signal.lt
  have hword : ¬ (Termination.signaled signal coreDumped).status % 128 = 0 := by
    simp only [Termination.status]
    split <;> omega
  exact decide_eq_false hword

/-- **A word says that the process has exited with 0** exactly when it has. -/
theorem exited_zero_iff (t : Termination) :
    wIfExited t.status = true ∧ wExitStatus t.status = 0 ↔ t = .exited 0 := by
  cases t with
  | exited code =>
    rw [wExitStatus_exited, Termination.exited.injEq]
    constructor
    · rintro ⟨-, hcode⟩
      exact UInt8.toNat_inj.mp (by simpa using hcode)
    · rintro rfl
      exact ⟨wIfExited_exited 0, rfl⟩
  | signaled signal coreDumped =>
    rw [wIfExited_signaled]
    exact ⟨fun h => absurd h.1 Bool.false_ne_true, nofun⟩

theorem status_eq_zero_iff (t : Termination) : t.status = 0 ↔ t = .exited 0 := by
  constructor
  · intro h
    apply (exited_zero_iff t).mp
    rw [h]
    decide
  · rintro rfl
    rfl

theorem status_nonneg (t : Termination) : 0 ≤ t.status := by
  cases t with
  | exited code => simp only [Termination.status]; omega
  | signaled signal coreDumped =>
    simp only [Termination.status]
    split <;> omega

/-- 127 would be a stopped process. -/
theorem status_ne_127 (t : Termination) : t.status ≠ 127 := by
  cases t with
  | exited code => simp only [Termination.status]; omega
  | signaled signal coreDumped =>
    have hlt := signal.lt
    simp only [Termination.status]
    split <;> omega

end WaitStatus

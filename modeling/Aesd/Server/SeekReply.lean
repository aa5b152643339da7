/-
Aesd.Server.SeekReply — what a seek handler sends, in the build for the
char device, while other handlers run.

All handlers share the one file position, so a reply is made of the right
bytes only because the seek and all reads after it happen under
`file_mutex`. `DeviceInv` is the invariant of the runs: the driver is in
order, and a handler in the middle of its reply holds the mutex.
`Replying` follows one reply: what has been sent and what is stored from the
file position on make up the contents that were stored from the target of
the seek on. It also counts the reads, so that no reply goes on for ever.
-/
import Aesd.Driver.Seek
import Aesd.Server.Messages

namespace Aesd.Server

open Driver (AesdSeekto CallEnv Kernel Kmalloc Call SeekResult runCalls)

variable {kmalloc : Kmalloc} {s s' : ServerState (Kernel × Nat)}

/-! ## The driver under the handlers -/

/-- The driver between two steps: in order, and without an empty line. -/
structure DriverOk (k : Kernel) : Prop where
  idle : k.Idle
  lines_ne : ∀ l ∈ k.view.lines, l ≠ []

theorem driverOk_runCalls (llseek : Nat → Int → Int → Nat → SeekResult) (calls : List Call) :
    DriverOk (runCalls llseek calls) :=
  ⟨Driver.idle_runCalls llseek calls, fun _ hl => (Driver.mem_lines_runCalls llseek calls hl).1⟩

theorem DriverOk.write {k : Kernel} (h : DriverOk k) (kmalloc : Kmalloc) (bytes : List UInt8)
    (fPos : Nat) :
    DriverOk ((charDevice kmalloc).write bytes (k, fPos)).1 := by
  refine ⟨h.idle.write ⟨kmalloc, .ok, bytes⟩, fun l hl => ?_⟩
  rcases Driver.WriteCall.mem_lines_run (c := ⟨kmalloc, .ok, bytes⟩) h.idle.owned hl
    with hold | ⟨hne, -⟩
  · exact h.lines_ne l hold
  · exact hne

theorem DriverOk.sameButLock {k k' : Kernel} (h : DriverOk k) (hs : k.SameButLock k') :
    DriverOk k' ∧ k'.view = k.view := by
  have hview : k'.view = k.view := by rcases hs with rfl | rfl <;> rfl
  exact ⟨⟨h.idle.sameButLock hs, fun l hl => h.lines_ne l (hview ▸ hl)⟩, hview⟩

/-- The seek of a handler is the abstract one, and moves only the position. -/
theorem DriverOk.ioctl {k : Kernel} (h : DriverOk k) (kmalloc : Kmalloc) (cmd : AesdSeekto)
    (fPos : Nat) :
    DriverOk ((charDevice kmalloc).ioctl cmd (k, fPos)).2.1 ∧
      ((charDevice kmalloc).ioctl cmd (k, fPos)).2.1.view = k.view ∧
      ((charDevice kmalloc).ioctl cmd (k, fPos)).2.2 = (k.seekto .ok fPos cmd).fPos ∧
      ((charDevice kmalloc).ioctl cmd (k, fPos)).1
        = decide (0 ≤ (k.seekto .ok fPos cmd).retval) := by
  obtain ⟨hok, hview⟩ :=
    h.sameButLock (Driver.aesdIoctl_state .ok Driver.aesdcharIocseekto cmd fPos k)
  exact ⟨hok, hview, rfl, rfl⟩

/-- A read of the reply loop delivers the stored bytes at the position and
moves the position behind them. -/
theorem DriverOk.read {k : Kernel} (h : DriverOk k) (kmalloc : Kmalloc) (count fPos : Nat) :
    DriverOk ((charDevice kmalloc).read count (k, fPos)).2.1 ∧
      ((charDevice kmalloc).read count (k, fPos)).2.1.view = k.view ∧
      ((charDevice kmalloc).read count (k, fPos)).1 = k.view.readAt count fPos ∧
      ((charDevice kmalloc).read count (k, fPos)).2.2
        = fPos + (k.view.readAt count fPos).length := by
  obtain ⟨hok, hview⟩ := h.sameButLock (Driver.aesdRead_state h.idle.owned .ok count fPos)
  have hint : CallEnv.ok.interrupted = false := rfl
  have hread : (Driver.aesdRead .ok count fPos k).1
      = ⟨(k.view.readAt count fPos).length, k.view.readAt count fPos,
          fPos + (k.view.readAt count fPos).length⟩ := by
    rw [Driver.aesdRead_eq h.idle.owned hint]
    simp [CallEnv.ok]
  refine ⟨hok, hview, ?_, ?_⟩
  · show (if 0 < (Driver.aesdRead .ok count fPos k).1.retval then
        (Driver.aesdRead .ok count fPos k).1.data else []) = _
    rw [hread]
    cases hdata : k.view.readAt count fPos with
    | nil => rfl
    | cons b bs =>
      rw [if_pos]
      show 0 < ((b :: bs).length : Int)
      simp
  · show (Driver.aesdRead .ok count fPos k).1.fPos = _
    rw [hread]

/-! ## The invariant of the runs -/

structure DeviceInv (s : ServerState (Kernel × Nat)) : Prop where
  driver : DriverOk s.file.1
  mutex : ∀ (j : Nat) (sent : List UInt8), s.handlers[j]? = some (.reading sent) →
    s.fileMutex = some j

theorem deviceInv_start {k : Kernel} (h : DriverOk k) (fPos : Nat)
    (conns : List (List (List UInt8))) : DeviceInv (.start (k, fPos) conns) := by
  refine ⟨h, fun j sent hj => ?_⟩
  simp only [ServerState.start, List.getElem?_map, Option.map_eq_some_iff] at hj
  obtain ⟨reads, -, heq⟩ := hj
  cases heq

/-- Every step keeps the invariant. -/
theorem deviceInv_step (s : ServerState (Kernel × Nat)) (a : Action)
    (s' : ServerState (Kernel × Nat)) (h : DeviceInv s)
    (hstep : step (charDevice kmalloc) s a = some s') : DeviceInv s' := by
  obtain ⟨i, before, after, s₁, hi, hmoves, rfl⟩ := step_moves hstep
  have hget := hmoves.getElem?_setHandler hi
  -- Where the moving handler stays outside its reply and the mutex as it is.
  have hquiet : DriverOk s₁.file.1 → s₁.fileMutex = s.fileMutex →
      (∀ sent, after ≠ .reading sent) → DeviceInv (s₁.setHandler i after) := by
    intro hok hmutex hafter
    refine ⟨hok, fun j sent hj => ?_⟩
    rw [hget] at hj
    split at hj
    · cases hj
      exact absurd rfl (hafter sent)
    · exact hmutex.trans (h.mutex j sent hj)
  cases hmoves with
  | receivedText _ => exact hquiet h.driver rfl (fun _ => Handler.noConfusion)
  | receivedSeek _ => exact hquiet h.driver rfl (fun _ => Handler.noConfusion)
  | append => exact hquiet h.driver rfl (fun _ => Handler.noConfusion)
  | write _ => exact hquiet (h.driver.write kmalloc ..) rfl (fun _ => Handler.noConfusion)
  | seekFailed _ _ =>
    exact hquiet (h.driver.ioctl kmalloc ..).1 rfl (fun _ => Handler.noConfusion)
  | sought hfree _ =>
    refine ⟨(h.driver.ioctl kmalloc ..).1, fun j sent hj => ?_⟩
    rw [hget] at hj
    split at hj
    · rename_i hij
      exact congrArg some hij
    · have hheld := h.mutex j sent hj
      rw [hfree] at hheld
      cases hheld
  | @read i sent _ =>
    refine ⟨(h.driver.read kmalloc ..).1, fun j sent' hj => ?_⟩
    rw [hget] at hj
    split at hj
    · rename_i hij
      exact hij ▸ h.mutex i sent hi
    · exact h.mutex j sent' hj
  | @readEnd i sent _ =>
    refine ⟨(h.driver.read kmalloc ..).1, fun j sent' hj => ?_⟩
    rw [hget] at hj
    split at hj
    · cases hj
    · rename_i hij
      have hsame := (h.mutex i sent hi).symm.trans (h.mutex j sent' hj)
      exact absurd (Option.some.inj hsame) hij

/-! ## One reply -/

/-- Handler `i` is sending the bytes `reply`: it has taken `reads` turns of
the loop, what it has sent and what follows the file position make up the
reply; or it has sent all of it. -/
def Replying (reply : List UInt8) (i reads : Nat) (s : ServerState (Kernel × Nat)) : Prop :=
  (∃ sent, s.handlers[i]? = some (.reading sent) ∧ reads ≤ sent.length ∧
    reply = sent ++ s.file.1.view.contents.drop s.file.2) ∨
  s.handlers[i]? = some (.finished reply)

/-- Whether a step is a turn of the loop of handler `i`. -/
def Action.isReadOf (i : Nat) : Action → Bool
  | .read j => i = j
  | _ => false

/-- A finished handler makes no further step. -/
theorem finished_step {σ : Type} {F : TempFile σ} {s s' : ServerState σ} {a : Action} {i : Nat}
    {sent : List UInt8} (hi : s.handlers[i]? = some (.finished sent))
    (hstep : step F s a = some s') : s'.handlers[i]? = some (.finished sent) := by
  obtain ⟨j, before, after, s₁, hj, hmoves, rfl⟩ := step_moves hstep
  have hne : j ≠ i := by
    rintro rfl
    rw [hi, Option.some.injEq] at hj
    subst hj
    cases hmoves
  rw [hmoves.getElem?_setHandler hj, if_neg hne, hi]

/-- Only the holder of the mutex is in its reply. -/
theorem DeviceInv.reading_unique (h : DeviceInv s) {i j : Nat} {sent sent' : List UInt8}
    (hi : s.handlers[i]? = some (.reading sent)) (hj : s.handlers[j]? = some (.reading sent')) :
    i = j ∧ sent = sent' := by
  obtain rfl : i = j := Option.some.inj ((h.mutex i sent hi).symm.trans (h.mutex j sent' hj))
  rw [hi, Option.some.injEq, Handler.reading.injEq] at hj
  exact ⟨rfl, hj⟩

/-- **One step of any handler** keeps the reply in order. -/
theorem replying_step {reply : List UInt8} {i reads : Nat} {a : Action} (hinv : DeviceInv s)
    (h : Replying reply i reads s) (hstep : step (charDevice kmalloc) s a = some s') :
    Replying reply i (reads + if a.isReadOf i then 1 else 0) s' := by
  rcases h with ⟨sent, hi, hreads, hreply⟩ | hdone
  swap
  · exact Or.inr (finished_step hdone hstep)
  have hmutex := hinv.mutex i sent hi
  obtain ⟨j, before, after, s₁, hj, hmoves, rfl⟩ := step_moves hstep
  have hget := hmoves.getElem?_setHandler hj
  -- A handler that is not in its reply is another one, and leaves the file alone.
  have hother : (∀ sent', before ≠ .reading sent') → s₁.file = s.file →
      a.isReadOf i = false →
      Replying reply i (reads + if a.isReadOf i then 1 else 0) (s₁.setHandler j after) := by
    intro hbefore hfile hno
    have hne : j ≠ i := by
      rintro rfl
      rw [hi, Option.some.injEq] at hj
      exact hbefore sent hj.symm
    refine Or.inl ⟨sent, ?_, ?_, ?_⟩
    · rw [hget, if_neg hne, hi]
    · rw [hno]
      exact hreads
    · show reply = sent ++ s₁.file.1.view.contents.drop s₁.file.2
      rw [hfile]
      exact hreply
  cases hmoves with
  | receivedText _ => exact hother (fun _ => Handler.noConfusion) rfl rfl
  | receivedSeek _ => exact hother (fun _ => Handler.noConfusion) rfl rfl
  | append => exact hother (fun _ => Handler.noConfusion) rfl rfl
  | write hfree => rw [hmutex] at hfree; cases hfree
  | sought hfree _ => rw [hmutex] at hfree; cases hfree
  | seekFailed hfree _ => rw [hmutex] at hfree; cases hfree
  | @read j sent' hdata =>
    obtain ⟨rfl, rfl⟩ := hinv.reading_unique hi hj
    obtain ⟨-, hview, hbytes, hpos⟩ := hinv.driver.read kmalloc bufferSize s.file.2
    obtain ⟨rest, hrest⟩ := s.file.1.view.readAt_prefix bufferSize s.file.2
    left
    refine ⟨_, (hget i).trans (if_pos rfl), ?_, ?_⟩
    · have hone : 1 ≤ ((charDevice kmalloc).read bufferSize s.file).1.length :=
        List.length_pos_of_ne_nil hdata
      rw [List.length_append]
      simp only [Action.isReadOf, decide_true, if_true]
      omega
    · show reply = (sent ++ ((charDevice kmalloc).read bufferSize (s.file.1, s.file.2)).1)
        ++ ((charDevice kmalloc).read bufferSize (s.file.1, s.file.2)).2.1.view.contents.drop
            ((charDevice kmalloc).read bufferSize (s.file.1, s.file.2)).2.2
      rw [hview, hbytes, hpos, hreply, ← List.drop_drop, ← hrest, List.drop_left,
          List.append_assoc]
  | @readEnd j sent' hdata =>
    obtain ⟨rfl, rfl⟩ := hinv.reading_unique hi hj
    obtain ⟨-, -, hbytes, -⟩ := hinv.driver.read kmalloc bufferSize s.file.2
    right
    have hend : s.file.1.view.contents.length ≤ s.file.2 :=
      (s.file.1.view.readAt_eq_nil_iff (by decide) _).mp (hbytes.symm.trans hdata)
    rw [hget, if_pos rfl, hreply, List.drop_eq_nil_of_le hend, List.append_nil]

/-- Any run of all handlers does. -/
theorem replying_run {reply : List UInt8} {i : Nat} (schedule : List Action) :
    ∀ {s s' : ServerState (Kernel × Nat)} {reads : Nat}, DeviceInv s →
      Replying reply i reads s →
      StepSystem.run (step (charDevice kmalloc)) s schedule = some s' →
      Replying reply i (reads + schedule.countP (Action.isReadOf i)) s' := by
  induction schedule with
  | nil =>
    intro s s' reads _ h hrun
    cases hrun
    exact h
  | cons a schedule ih =>
    intro s s' reads hinv h hrun
    obtain ⟨s₁, hstep, hrun⟩ := StepSystem.run_cons hrun
    have hnext := ih (deviceInv_step s a s₁ hinv hstep) (replying_step hinv h hstep) hrun
    rw [List.countP_cons, Nat.add_comm (schedule.countP _), ← Nat.add_assoc]
    exact hnext

/-! ## The reply is a snapshot -/

/-- The stored bytes from a line and offset to the end. -/
def seekReply (d : Driver.Device) (cmd : AesdSeekto) : List UInt8 :=
  (d.lines.getD cmd.writeCmd.toNat []).drop cmd.writeCmdOffset.toNat
    ++ (d.lines.drop (cmd.writeCmd.toNat + 1)).flatten

/-- A seek that succeeds starts the reply, one that fails ends the handler. -/
theorem ioctl_step {s s₁ : ServerState (Kernel × Nat)} (hinv : DeviceInv s) {i : Nat}
    {cmd : AesdSeekto} (hi : s.handlers[i]? = some (.seek cmd))
    (hstep : step (charDevice kmalloc) s (.ioctl i) = some s₁) :
    (0 ≤ (s.file.1.seekto .ok s.file.2 cmd).retval ∧
        Replying (seekReply s.file.1.view cmd) i 0 s₁) ∨
      ((s.file.1.seekto .ok s.file.2 cmd).retval < 0 ∧
        s₁.handlers[i]? = some (.finished [])) := by
  obtain ⟨j, before, after, s₂, hj, hmoves, rfl⟩ := step_moves hstep
  have hget := hmoves.getElem?_setHandler hj
  obtain ⟨-, hview, hpos, hret⟩ := hinv.driver.ioctl kmalloc cmd s.file.2
  cases hmoves with
  | @sought _ cmd' _ hok =>
    obtain rfl : cmd = cmd' := by
      rw [hi, Option.some.injEq, Handler.seek.injEq] at hj
      exact hj
    left
    have hnonneg : 0 ≤ (s.file.1.seekto .ok s.file.2 cmd).retval :=
      of_decide_eq_true (hret.symm.trans hok)
    refine ⟨hnonneg, Or.inl ⟨[], (hget i).trans (if_pos rfl), Nat.zero_le _, ?_⟩⟩
    rcases hinv.driver.idle.owned.seekto_cases hinv.driver.lines_ne .ok s.file.2 cmd with
      ⟨p, -, hseek, hres⟩ | ⟨e, -, hres⟩
    · show seekReply s.file.1.view cmd
        = [] ++ ((charDevice kmalloc).ioctl cmd (s.file.1, s.file.2)).2.1.view.contents.drop
            ((charDevice kmalloc).ioctl cmd (s.file.1, s.file.2)).2.2
      rw [hview, hpos, hres, List.nil_append, Driver.Device.contents_drop_seekTo hseek, seekReply]
    · rw [hres] at hnonneg
      have hneg : 0 ≤ -((e + 1 : Nat) : Int) := hnonneg
      omega
  | @seekFailed _ cmd' _ hfail =>
    obtain rfl : cmd = cmd' := by
      rw [hi, Option.some.injEq, Handler.seek.injEq] at hj
      exact hj
    right
    refine ⟨?_, (hget i).trans (if_pos rfl)⟩
    have hneg := of_decide_eq_false (hret.symm.trans hfail)
    omega

/-- **A seek reply is a snapshot.** After a seek that succeeds, in any run of
all handlers, the handler ends with exactly the bytes sent that were stored
from that line and offset on when it sought; before that it has sent a first
part of them, has made at most as many reads as that has bytes, and can make
the next one. After a seek that fails it sends nothing. -/
theorem seek_reply_snapshot (kmalloc : Kmalloc)
    (llseek : Nat → Int → Int → Nat → SeekResult) (calls : List Call) (fPos : Nat)
    (conns : List (List (List UInt8))) {schedule : List Action}
    {s s₁ : ServerState (Kernel × Nat)}
    (hrun : StepSystem.run (step (charDevice kmalloc))
      (.start (runCalls llseek calls, fPos) conns) schedule = some s)
    {i : Nat} {cmd : AesdSeekto} (hi : s.handlers[i]? = some (.seek cmd))
    (hseek : step (charDevice kmalloc) s (.ioctl i) = some s₁) {schedule' : List Action}
    {s₂ : ServerState (Kernel × Nat)}
    (hrun' : StepSystem.run (step (charDevice kmalloc)) s₁ schedule' = some s₂) :
    (0 ≤ (s.file.1.seekto .ok s.file.2 cmd).retval →
      s₂.handlers[i]? = some (.finished (seekReply s.file.1.view cmd)) ∨
      ∃ sent, s₂.handlers[i]? = some (.reading sent) ∧
        sent <+: seekReply s.file.1.view cmd ∧
        schedule'.countP (Action.isReadOf i) ≤ sent.length ∧
        (step (charDevice kmalloc) s₂ (.read i)).isSome = true) ∧
    ((s.file.1.seekto .ok s.file.2 cmd).retval < 0 →
      s₂.handlers[i]? = some (.finished [])) := by
  have hinv : DeviceInv s := StepSystem.run_invariant deviceInv_step
    (deviceInv_start (driverOk_runCalls llseek calls) fPos conns) hrun
  have hinv₁ := deviceInv_step s _ s₁ hinv hseek
  rcases ioctl_step hinv hi hseek with ⟨hok, hreply⟩ | ⟨hfail, hfin⟩
  · refine ⟨fun _ => ?_, fun hneg => by omega⟩
    rcases replying_run schedule' hinv₁ hreply hrun' with ⟨sent, hread, hcount, hsent⟩ | hdone
    · rw [Nat.zero_add] at hcount
      refine Or.inr ⟨sent, hread, ⟨_, hsent.symm⟩, hcount, ?_⟩
      simp only [step, stepRead, hread]
      split <;> rfl
    · exact Or.inl hdone
  · refine ⟨fun hok => by omega, fun _ => ?_⟩
    exact StepSystem.run_invariant
      (fun _ _ _ h hstep => finished_step h hstep) hfin hrun'

/-- `"AESDCHAR_IOCSEEKTO:0,1"` -/
def seekText : List UInt8 := aesdIoctlStr ++ [48, 44, 49]

/-- A device that stores the line `"hi\n"`. -/
def oneLineDevice : Kernel := runCalls (fun p _ _ _ => ⟨0, p⟩) Driver.oneLineRun

/-- A seek into that line, from its second byte on. Another handler appends
its message between the reads, and writes it behind the reply. -/
theorem seek_reply_beside_message :
    ∃ s s₁ s₂ : ServerState (Kernel × Nat),
      StepSystem.run (step (charDevice fun _ _ => some fun _ => 0))
        (.start (oneLineDevice, 0) [[seekText], [messageA]])
        [.receive 0 (fun _ => 0) ⟨0, 1⟩, .receive 1 (fun _ => 0) ⟨0, 0⟩] = some s ∧
      step (charDevice fun _ _ => some fun _ => 0) s (.ioctl 0) = some s₁ ∧
      StepSystem.run (step (charDevice fun _ _ => some fun _ => 0)) s₁
        [.read 0, .append 1, .read 0, .write 1] = some s₂ ∧
      s₂.file.1.view.contents = [104, 105, 10, 97, 10] ∧
      (s₂.handlers[0]? = some (.finished [105, 10]) ∨
        ∃ sent, s₂.handlers[0]? = some (.reading sent) ∧ sent <+: [105, 10] ∧
          [Action.read 0, .append 1, .read 0, .write 1].countP (Action.isReadOf 0)
            ≤ sent.length ∧
          (step (charDevice fun _ _ => some fun _ => 0) s₂ (.read 0)).isSome = true) := by
  have hnul : 0 ∉ seekText := by decide
  obtain ⟨st, hcmd⟩ := receive_command (fun _ => 0) hnul (by decide) (by decide) []
  obtain ⟨st', hmessage, htext⟩ :=
    receive_short (fun _ => 0) isShortMessage_a.toIsMessage isShortMessage_a.length_lt
  obtain ⟨s, hs⟩ : ∃ s : ServerState (Kernel × Nat),
      s = { toWrite := [], file := (oneLineDevice, 0), fileMutex := none, written := []
            handlers := [.seek ⟨0, 1⟩, .received messageA] } := ⟨_, rfl⟩
  have hrun : StepSystem.run (step (charDevice fun _ _ => some fun _ => 0))
      (.start (oneLineDevice, 0) [[seekText], [messageA]])
      [.receive 0 (fun _ => 0) ⟨0, 1⟩, .receive 1 (fun _ => 0) ⟨0, 0⟩] = some s := by
    have hfirst : (ServerState.start (oneLineDevice, 0) [[seekText], [messageA]]).handlers[0]?
        = some (.connected [seekText]) := rfl
    have hsecond : ((ServerState.start (oneLineDevice, 0) [[seekText], [messageA]]).setHandler 0
        (.seek ⟨0, 1⟩)).handlers[1]? = some (.connected [messageA]) := rfl
    simp only [StepSystem.run, step, stepReceive, hfirst, hcmd, Option.bind_some, hsecond,
               hmessage, htext]
    rw [hs]
    rfl
  obtain ⟨s₁, s₂, hseek, hreads, hcontents⟩ : ∃ s₁ s₂,
      step (charDevice fun _ _ => some fun _ => 0) s (.ioctl 0) = some s₁ ∧
      StepSystem.run (step (charDevice fun _ _ => some fun _ => 0)) s₁
        [.read 0, .append 1, .read 0, .write 1] = some s₂ ∧
      s₂.file.1.view.contents = [104, 105, 10, 97, 10] := by
    rw [hs]
    exact ⟨_, _, rfl, rfl, rfl⟩
  have hi : s.handlers[0]? = some (.seek ⟨0, 1⟩) := by rw [hs]; rfl
  have hok : 0 ≤ (s.file.1.seekto .ok s.file.2 ⟨0, 1⟩).retval := by rw [hs]; decide
  have hreply : seekReply s.file.1.view ⟨0, 1⟩ = [105, 10] := by rw [hs]; rfl
  rw [← hreply]
  exact ⟨s, s₁, s₂, hrun, hseek, hreads, hcontents,
    (seek_reply_snapshot (fun _ _ => some fun _ => 0) _ Driver.oneLineRun 0
      [[seekText], [messageA]] hrun hi hseek hreads).1 hok⟩

end Aesd.Server

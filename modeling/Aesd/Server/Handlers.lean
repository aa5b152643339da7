/-
Aesd.Server.Handlers — the connection handlers of `server/socket_core.c` at
work on the reply buffer and on the one open file.

Every handler runs `connection_handler` to its end; the threads take their
steps in any order. These are taken to be whole:

* the receive loop, which touches nothing shared;
* the append to `to_write` with the `send` under `reply_mutex`;
* the `write` with its `strlen(to_write)` under `file_mutex`, or the `ioctl`
  that opens a seek reply;
* one `read` and `send` of that reply, `file_mutex` held throughout.

The second and the third have different mutexes. In the source the `strlen`
can fall into the `strcat` of another handler, and then `write` gets a piece
of a message; or `to_write` is moved while `write` reads it. No run here shows
that. What is said of all runs is said of those in which it does not happen
(`Aesd.Server.AtomicSteps`).

The file behind `temp_file_fd` is a parameter (`TempFile`): the driver of
this repository in the build for it (`charDevice`), a file opened with
`O_APPEND` in the other (`regularFile`). What `sscanf` makes of a command is
left open: the step brings the two numbers. `realloc` succeeds, `to_write`
has room for all that is appended, and a `to_write_local` ends in a NUL
(`Aesd.Server.LocalString` says when). The list of threads is left out, and so
are the log and the results of `send` and `write`, which the source ignores.
-/
import Aesd.Driver.Calls
import Aesd.Library.StepSystem
import Aesd.Server.Receive

namespace Aesd.Server

open Driver (AesdSeekto CallEnv Kernel Kmalloc)

/-! ## The open file -/

/-- What the handlers do with `temp_file_fd`. The state is the file and the
position of the one open file description. -/
structure TempFile (σ : Type) where
  write : List UInt8 → σ → σ
  /-- `AESDCHAR_IOCSEEKTO`: whether it succeeds, and the state after it. -/
  ioctl : AesdSeekto → σ → Bool × σ
  /-- The bytes a `read` of at most so many delivers. -/
  read : Nat → σ → List UInt8 × σ

/-- `/dev/aesdchar`, whose driver gets its memory from `kmalloc`. Its lock
is never interrupted and every copy succeeds. -/
def charDevice (kmalloc : Kmalloc) : TempFile (Kernel × Nat) where
  write := fun bytes (k, fPos) => ((Driver.aesdWrite kmalloc .ok bytes k).2, fPos)
  ioctl := fun cmd (k, fPos) =>
    let (r, k) := Driver.aesdIoctl .ok Driver.aesdcharIocseekto cmd fPos k
    (decide (0 ≤ r.retval), (k, r.fPos))
  read := fun count (k, fPos) =>
    let (r, k) := Driver.aesdRead .ok count fPos k
    (if 0 < r.retval then r.data else [], (k, r.fPos))

/-- `/var/tmp/aesdsocketdata`, as its contents and the position. It knows no
`AESDCHAR_IOCSEEKTO`. -/
def regularFile : TempFile (List UInt8 × Nat) where
  write := fun bytes (contents, _) => (contents ++ bytes, contents.length + bytes.length)
  ioctl := fun _ s => (false, s)
  read := fun count (contents, fPos) =>
    let data := (contents.drop fPos).take count
    (data, (contents, fPos + data.length))

/-! ## Handlers -/

/-- Where a handler stands. `sent` are the bytes it has passed to `send`. -/
inductive Handler where
  /-- In the receive loop, whose `read()` calls are going to have these
  results. -/
  | connected (reads : List (List UInt8))
  /-- Holds this C string in `to_write_local`. -/
  | received (text : List UInt8)
  /-- Has appended it and replied. -/
  | appended (sent : List UInt8)
  /-- Is on the seek path, with this command. -/
  | seek (cmd : AesdSeekto)
  /-- Has sought and holds `file_mutex`. -/
  | reading (sent : List UInt8)
  | finished (sent : List UInt8)
  deriving DecidableEq, Repr

structure ServerState (σ : Type) where
  /-- The C string in `to_write`. -/
  toWrite : List UInt8
  file : σ
  /-- The handler that holds `file_mutex` from one step to the next. -/
  fileMutex : Option Nat
  /-- All the bytes passed to `write` so far. -/
  written : List UInt8
  handlers : List Handler
  deriving DecidableEq, Repr

/-- The listening thread has set up `to_write`, opened the file and accepted
the connections. -/
def ServerState.start {σ : Type} (file : σ) (conns : List (List (List UInt8))) : ServerState σ where
  toWrite := []
  file
  fileMutex := none
  written := []
  handlers := conns.map .connected

def ServerState.setHandler {σ : Type} (s : ServerState σ) (i : Nat) (h : Handler) : ServerState σ :=
  { s with handlers := s.handlers.set i h }

/-! ## Steps -/

/-- One step of the handler number `i`. -/
inductive Action where
  /-- The receive loop, with what `realloc` provides, and with the numbers
  that `sscanf` reads if there is a command. -/
  | receive (i : Nat) (fresh : Nat → UInt8) (cmd : AesdSeekto)
  | append (i : Nat)
  | write (i : Nat)
  | ioctl (i : Nat)
  | read (i : Nat)

variable {σ : Type}

/-- After the receive loop. A loop that waits for another `read()` makes no
step. -/
def stepReceive (i : Nat) (fresh : Nat → UInt8) (cmd : AesdSeekto) (s : ServerState σ) :
    Option (ServerState σ) :=
  match s.handlers[i]? with
  | some (.connected reads) =>
    match receive fresh reads .init with
    | .message st _ => some (s.setHandler i (.received (CString.contents st.toWriteLocal)))
    | .seek _ => some (s.setHandler i (.seek cmd))
    | .reading _ => none
    | .fault => none
  | _ => none

/-- `strcat(to_write, to_write_local)` and `send(..., to_write, ...)`. -/
def stepAppend (i : Nat) (s : ServerState σ) : Option (ServerState σ) :=
  match s.handlers[i]? with
  | some (.received text) =>
    let toWrite := s.toWrite ++ text
    some ({ s with toWrite }.setHandler i (.appended toWrite))
  | _ => none

/-- `write(temp_file_fd, to_write, strlen(to_write))`. -/
def stepWrite (F : TempFile σ) (i : Nat) (s : ServerState σ) : Option (ServerState σ) :=
  match s.handlers[i]?, s.fileMutex with
  | some (.appended sent), none =>
    some ({ s with
      file := F.write s.toWrite s.file
      written := s.written ++ s.toWrite }.setHandler i (.finished sent))
  | _, _ => none

/-- Lock `file_mutex` and seek; after a failed `ioctl`, unlock it again. -/
def stepIoctl (F : TempFile σ) (i : Nat) (s : ServerState σ) : Option (ServerState σ) :=
  match s.handlers[i]?, s.fileMutex with
  | some (.seek cmd), none =>
    let (ok, file) := F.ioctl cmd s.file
    if ok then some ({ s with file, fileMutex := some i }.setHandler i (.reading []))
    else some ({ s with file }.setHandler i (.finished []))
  | _, _ => none

/-- One turn of the loop that sends the reply to a seek; the last one
unlocks `file_mutex`. -/
def stepRead (F : TempFile σ) (i : Nat) (s : ServerState σ) : Option (ServerState σ) :=
  match s.handlers[i]? with
  | some (.reading sent) =>
    let (data, file) := F.read bufferSize s.file
    if data ≠ [] then some ({ s with file }.setHandler i (.reading (sent ++ data)))
    else some ({ s with file, fileMutex := none }.setHandler i (.finished sent))
  | _ => none

def step (F : TempFile σ) (s : ServerState σ) : Action → Option (ServerState σ)
  | .receive i fresh cmd => stepReceive i fresh cmd s
  | .append i => stepAppend i s
  | .write i => stepWrite F i s
  | .ioctl i => stepIoctl F i s
  | .read i => stepRead F i s

/-! ## What one step can do -/

/-- The change an enabled step makes: the handler it moves, from where to
where, and the rest of the state after it. -/
inductive Moves (F : TempFile σ) (s : ServerState σ) : Action → Nat → Handler → Handler →
    ServerState σ → Prop where
  | receivedText {i fresh cmd reads st rest} :
    receive fresh reads .init = .message st rest →
    Moves F s (.receive i fresh cmd) i (.connected reads)
      (.received (CString.contents st.toWriteLocal)) s
  | receivedSeek {i fresh cmd reads st} :
    receive fresh reads .init = .seek st →
    Moves F s (.receive i fresh cmd) i (.connected reads) (.seek cmd) s
  | append {i text} :
    Moves F s (.append i) i (.received text) (.appended (s.toWrite ++ text))
      { s with toWrite := s.toWrite ++ text }
  | write {i sent} : s.fileMutex = none →
    Moves F s (.write i) i (.appended sent) (.finished sent)
      { s with
        file := F.write s.toWrite s.file
        written := s.written ++ s.toWrite }
  | sought {i cmd} : s.fileMutex = none → (F.ioctl cmd s.file).1 = true →
    Moves F s (.ioctl i) i (.seek cmd) (.reading [])
      { s with file := (F.ioctl cmd s.file).2, fileMutex := some i }
  | seekFailed {i cmd} : s.fileMutex = none → (F.ioctl cmd s.file).1 = false →
    Moves F s (.ioctl i) i (.seek cmd) (.finished [])
      { s with file := (F.ioctl cmd s.file).2 }
  | read {i sent} : (F.read bufferSize s.file).1 ≠ [] →
    Moves F s (.read i) i (.reading sent)
      (.reading (sent ++ (F.read bufferSize s.file).1))
      { s with file := (F.read bufferSize s.file).2 }
  | readEnd {i sent} : (F.read bufferSize s.file).1 = [] →
    Moves F s (.read i) i (.reading sent) (.finished sent)
      { s with file := (F.read bufferSize s.file).2, fileMutex := none }

/-- **Inversion of a step.** -/
theorem step_moves {F : TempFile σ} {s s' : ServerState σ} {a : Action} (h : step F s a = some s') :
    ∃ i before after s₁, s.handlers[i]? = some before ∧ Moves F s a i before after s₁ ∧
      s' = s₁.setHandler i after := by
  cases a with
  | receive i fresh cmd =>
    simp only [step, stepReceive] at h
    split at h
    · rename_i reads hi
      split at h
      · rename_i st rest hrec
        cases h
        exact ⟨i, _, _, s, hi, .receivedText hrec, rfl⟩
      · rename_i st hrec
        cases h
        exact ⟨i, _, _, s, hi, .receivedSeek hrec, rfl⟩
      · cases h
      · cases h
    · cases h
  | append i =>
    simp only [step, stepAppend] at h
    split at h
    · rename_i text hi
      cases h
      exact ⟨i, _, _, _, hi, .append, rfl⟩
    · cases h
  | write i =>
    simp only [step, stepWrite] at h
    split at h
    · rename_i sent hi hmutex
      cases h
      exact ⟨i, _, _, _, hi, .write hmutex, rfl⟩
    · cases h
  | ioctl i =>
    simp only [step, stepIoctl] at h
    split at h
    · rename_i cmd hi hmutex
      split at h
      · rename_i hok
        cases h
        exact ⟨i, _, _, _, hi, .sought hmutex hok, rfl⟩
      · rename_i hok
        cases h
        exact ⟨i, _, _, _, hi, .seekFailed hmutex (by simpa using hok), rfl⟩
    · cases h
  | read i =>
    simp only [step, stepRead] at h
    split at h
    · rename_i sent hi
      split at h
      · rename_i hdata
        cases h
        exact ⟨i, _, _, _, hi, .read hdata, rfl⟩
      · rename_i hdata
        cases h
        exact ⟨i, _, _, _, hi, .readEnd (not_not.mp hdata), rfl⟩
    · cases h

/-- The handlers after the step. -/
theorem Moves.getElem?_setHandler {F : TempFile σ} {s s₁ : ServerState σ} {a : Action} {i : Nat}
    {before after : Handler} (h : Moves F s a i before after s₁)
    (hi : s.handlers[i]? = some before) (j : Nat) :
    (s₁.setHandler i after).handlers[j]? = if i = j then some after else s.handlers[j]? := by
  have hsame : s₁.handlers = s.handlers := by cases h <;> rfl
  rw [ServerState.setHandler, hsame]
  exact StepSystem.getElem?_set_eq_ite hi after j

end Aesd.Server

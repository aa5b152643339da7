/-
Aesd.Server.ReplyMemory — the block behind `to_write`, while handlers share
it.

`Handlers` takes the append and the reply as one step, and the write to the
file as another. Here the steps are those of the source: the lock, the
`realloc`, the assignment of what it returns, the start of the stores of
`strcat` and its return, the `send`; and for the write, which is under
`file_mutex` and not under `reply_mutex`, the lock, `to_write`, the call of
`strlen(to_write)` and its return, and the `write` itself. `to_write` may be
evaluated before the call, between the two, or after. So a block can go away
between the evaluation of `to_write` and its use, `to_write` points to no block
between a `realloc` that moves it and the assignment, and a `strcat` can store
over the NUL that `strlen` is looking for.

Where a `strlen` overlaps the stores of a `strcat`, the one that starts second
is taken for a misuse, whatever the bytes are by then. The string functions of
the thread that has `reply_mutex`, `strlen` for the `realloc` and for the
`send`, never overlap a `strcat`, and are one step with what they are for.
-/
import Aesd.Library.BlockHeap
import Aesd.Server.Handlers

namespace Aesd.Server

/-! ## Stages -/

/-- `strlen(to_write)`, the third argument of `write`. -/
inductive Strlen where
  | notCalled
  /-- It was called with this pointer. -/
  | scanning (pointer : Nat)
  | returned (length : Nat)

/-- Where a handler stands. -/
inductive Stage where
  | connected (reads : List (List UInt8))
  /-- Out of the receive loop, with the C string in `to_write_local` and the
  size of that. -/
  | received (text : List UInt8) (size : Nat)
  /-- Holds `reply_mutex`. -/
  | locked (text : List UInt8) (size : Nat)
  /-- `realloc` has returned this block, which is not in `to_write` yet. -/
  | reallocated (text : List UInt8) (block : Nat)
  /-- Ready for `strcat`. -/
  | roomy (text : List UInt8)
  /-- In `strcat`, which has found the end of the text here. -/
  | appending (text : List UInt8) (offset : Nat)
  | appended
  /-- Has sent this reply and given `reply_mutex` back. -/
  | replied (sent : List UInt8)
  /-- Holds `file_mutex` for the write, and may have evaluated `to_write`. -/
  | writing (sent : List UInt8) (pointer : Option Nat) (strlen : Strlen)
  | seek (cmd : Driver.AesdSeekto)
  /-- Has sought and holds `file_mutex`. -/
  | reading (sent : List UInt8)
  | finished (sent : List UInt8)

@[simp] def Stage.inStrcat : Stage → Bool
  | .appending .. => true
  | _ => false

@[simp] def Stage.inStrlen : Stage → Bool
  | .writing _ _ (.scanning _) => true
  | _ => false

/-- The handlers, with the memory of `to_write`. -/
structure ReplyMemory (σ : Type) where
  heap : BlockHeap UInt8
  toWrite : Nat
  replyMutex : Option Nat
  file : σ
  fileMutex : Option Nat
  /-- All the bytes passed to `write` so far. -/
  written : List UInt8
  threads : List Stage

/-- `socket_listen` allocates `to_write` and fills it with zeros. -/
def ReplyMemory.start {σ : Type} (file : σ) (conns : List (List (List UInt8))) : ReplyMemory σ where
  heap :=
    { block := Function.update (fun _ => none) 0 (some (List.replicate bufferSize 0))
      next := 1
      faults := [] }
  toWrite := 0
  replyMutex := none
  file
  fileMutex := none
  written := []
  threads := conns.map .connected

variable {σ : Type}

def ReplyMemory.setStage (s : ReplyMemory σ) (i : Nat) (stage : Stage) : ReplyMemory σ :=
  { s with threads := s.threads.set i stage }

/-- The C string there; none if there is no block or no NUL in it. -/
def ReplyMemory.textAt (s : ReplyMemory σ) (p : Nat) : Option (List UInt8) :=
  match s.heap.block p with
  | some bs => if 0 ∈ bs then some (CString.contents bs) else none
  | none => none

/-- The C string at `to_write`. -/
def ReplyMemory.text (s : ReplyMemory σ) : Option (List UInt8) := s.textAt s.toWrite

/-- A string function that finds no string, or one that another is changing. -/
def ReplyMemory.misuse (s : ReplyMemory σ) : ReplyMemory σ :=
  { s with heap := { s.heap with faults := .outOfBounds :: s.heap.faults } }

/-! ## Steps -/

/-- One step of the handler number `i`. -/
inductive MemoryAction where
  | receive (i : Nat) (fresh : Nat → UInt8) (cmd : Driver.AesdSeekto)
  | lockReply (i : Nat)
  /-- The comparison and the `realloc`; it comes with whether that moves the
  block, and with what the new bytes happen to be. -/
  | reserve (i : Nat) (moves : Bool) (fresh : Nat → UInt8)
  | assign (i : Nat)
  /-- `strcat` has found the end of the text, and starts to store. -/
  | findEnd (i : Nat)
  /-- `strcat` has stored its bytes, and returns. -/
  | strcat (i : Nat)
  | send (i : Nat)
  | lockFile (i : Nat)
  | loadPointer (i : Nat)
  /-- `strlen` is called. -/
  | scan (i : Nat)
  /-- `strlen` returns. -/
  | measure (i : Nat)
  | write (i : Nat)
  | ioctl (i : Nat)
  | read (i : Nat)

def memReceive (i : Nat) (fresh : Nat → UInt8) (cmd : Driver.AesdSeekto) (s : ReplyMemory σ) :
    Option (ReplyMemory σ) :=
  match s.threads[i]? with
  | some (.connected reads) =>
    match receive fresh reads .init with
    | .message st _ => some (s.setStage i (.received (CString.contents st.toWriteLocal) st.size))
    | .seek _ => some (s.setStage i (.seek cmd))
    | .reading _ => none
    | .fault => none
  | _ => none

/-- `pthread_mutex_lock(&reply_mutex)`. -/
def memLockReply (i : Nat) (s : ReplyMemory σ) : Option (ReplyMemory σ) :=
  match s.threads[i]?, s.replyMutex with
  | some (.received text size), none =>
    some ({ s with replyMutex := some i }.setStage i (.locked text size))
  | _, _ => none

/-- `if(strlen(to_write) < size)`, and `realloc(to_write, size + old_size + 500)`. -/
def memReserve (i : Nat) (moves : Bool) (fresh : Nat → UInt8) (s : ReplyMemory σ) :
    Option (ReplyMemory σ) :=
  match s.threads[i]? with
  | some (.locked text size) =>
    match s.text with
    | none => some (s.misuse.setStage i (.roomy text))
    | some old =>
      if old.length < size then
        let (block, heap) := s.heap.realloc moves fresh (size + old.length + 500) s.toWrite
        some ({ s with heap }.setStage i (.reallocated text block))
      else some (s.setStage i (.roomy text))
  | _ => none

/-- `to_write = realloc(..)`. -/
def memAssign (i : Nat) (s : ReplyMemory σ) : Option (ReplyMemory σ) :=
  match s.threads[i]? with
  | some (.reallocated text block) => some ({ s with toWrite := block }.setStage i (.roomy text))
  | _ => none

/-- `strcat(to_write, to_write_local)`, up to its first store. -/
def memFindEnd (i : Nat) (s : ReplyMemory σ) : Option (ReplyMemory σ) :=
  match s.threads[i]? with
  | some (.roomy text) =>
    match s.text with
    | none => some (s.misuse.setStage i (.appending text 0))
    | some old =>
      if s.threads.any Stage.inStrlen then
        some (s.misuse.setStage i (.appending text old.length))
      else some (s.setStage i (.appending text old.length))
  | _ => none

/-- Its stores, and the return. -/
def memStrcat (i : Nat) (s : ReplyMemory σ) : Option (ReplyMemory σ) :=
  match s.threads[i]? with
  | some (.appending text offset) =>
    some ({ s with heap := s.heap.store (some s.toWrite) offset (text ++ [0]) }.setStage i
      .appended)
  | _ => none

/-- `send(.., to_write, strlen(to_write), ..)`, and the unlock. -/
def memSend (i : Nat) (s : ReplyMemory σ) : Option (ReplyMemory σ) :=
  match s.threads[i]? with
  | some .appended =>
    match s.text with
    | none => some ({ s.misuse with replyMutex := none }.setStage i (.replied []))
    | some sent => some ({ s with replyMutex := none }.setStage i (.replied sent))
  | _ => none

/-- `pthread_mutex_lock(&file_mutex)`, on the message path. -/
def memLockFile (i : Nat) (s : ReplyMemory σ) : Option (ReplyMemory σ) :=
  match s.threads[i]?, s.fileMutex with
  | some (.replied sent), none =>
    some ({ s with fileMutex := some i }.setStage i (.writing sent none .notCalled))
  | _, _ => none

/-- `to_write`, the second argument of `write`. -/
def memLoadPointer (i : Nat) (s : ReplyMemory σ) : Option (ReplyMemory σ) :=
  match s.threads[i]? with
  | some (.writing sent none strlen) => some (s.setStage i (.writing sent (some s.toWrite) strlen))
  | _ => none

/-- The call of `strlen(to_write)`, the third. -/
def memScan (i : Nat) (s : ReplyMemory σ) : Option (ReplyMemory σ) :=
  match s.threads[i]? with
  | some (.writing sent pointer .notCalled) =>
    if s.threads.any Stage.inStrcat then
      some (s.misuse.setStage i (.writing sent pointer (.scanning s.toWrite)))
    else some (s.setStage i (.writing sent pointer (.scanning s.toWrite)))
  | _ => none

/-- Its return. -/
def memMeasure (i : Nat) (s : ReplyMemory σ) : Option (ReplyMemory σ) :=
  match s.threads[i]? with
  | some (.writing sent pointer (.scanning p)) =>
    match s.textAt p with
    | none => some (s.misuse.setStage i (.writing sent pointer (.returned 0)))
    | some text => some (s.setStage i (.writing sent pointer (.returned text.length)))
  | _ => none

/-- `write` with both, and the unlock. -/
def memWrite (F : TempFile σ) (i : Nat) (s : ReplyMemory σ) : Option (ReplyMemory σ) :=
  match s.threads[i]? with
  | some (.writing sent (some pointer) (.returned length)) =>
    match s.heap.load (some pointer) 0 length with
    | none => some ({ s.misuse with fileMutex := none }.setStage i (.finished sent))
    | some bytes =>
      some ({ s with
        file := F.write bytes s.file
        written := s.written ++ bytes
        fileMutex := none }.setStage i (.finished sent))
  | _ => none

/-- As `stepIoctl`. -/
def memIoctl (F : TempFile σ) (i : Nat) (s : ReplyMemory σ) : Option (ReplyMemory σ) :=
  match s.threads[i]?, s.fileMutex with
  | some (.seek cmd), none =>
    let (ok, file) := F.ioctl cmd s.file
    if ok then some ({ s with file, fileMutex := some i }.setStage i (.reading []))
    else some ({ s with file }.setStage i (.finished []))
  | _, _ => none

/-- As `stepRead`. -/
def memRead (F : TempFile σ) (i : Nat) (s : ReplyMemory σ) : Option (ReplyMemory σ) :=
  match s.threads[i]? with
  | some (.reading sent) =>
    let (data, file) := F.read bufferSize s.file
    if data ≠ [] then some ({ s with file }.setStage i (.reading (sent ++ data)))
    else some ({ s with file, fileMutex := none }.setStage i (.finished sent))
  | _ => none

def memStep (F : TempFile σ) (s : ReplyMemory σ) : MemoryAction → Option (ReplyMemory σ)
  | .receive i fresh cmd => memReceive i fresh cmd s
  | .lockReply i => memLockReply i s
  | .reserve i moves fresh => memReserve i moves fresh s
  | .assign i => memAssign i s
  | .findEnd i => memFindEnd i s
  | .strcat i => memStrcat i s
  | .send i => memSend i s
  | .lockFile i => memLockFile i s
  | .loadPointer i => memLoadPointer i s
  | .scan i => memScan i s
  | .measure i => memMeasure i s
  | .write i => memWrite F i s
  | .ioctl i => memIoctl F i s
  | .read i => memRead F i s

/-! ## What one step can do -/

/-- The change an enabled step makes: the handler it moves, from where to
where, and the rest of the state after it. -/
inductive MemMoves (F : TempFile σ) (s : ReplyMemory σ) : MemoryAction → Nat → Stage → Stage →
    ReplyMemory σ → Prop where
  | receivedText {i fresh cmd reads st rest} (hrec : receive fresh reads .init = .message st rest) :
    MemMoves F s (.receive i fresh cmd) i (.connected reads)
      (.received (CString.contents st.toWriteLocal) st.size) s
  | receivedSeek {i fresh cmd reads st} (hrec : receive fresh reads .init = .seek st) :
    MemMoves F s (.receive i fresh cmd) i (.connected reads) (.seek cmd) s
  | locked {i text size} (hfree : s.replyMutex = none) :
    MemMoves F s (.lockReply i) i (.received text size) (.locked text size)
      { s with replyMutex := some i }
  | reallocated {i moves fresh text size old} (hold : s.text = some old) (hlt : old.length < size) :
    MemMoves F s (.reserve i moves fresh) i (.locked text size)
      (.reallocated text
        (s.heap.realloc moves fresh (size + old.length + 500) s.toWrite).1)
      { s with heap := (s.heap.realloc moves fresh (size + old.length + 500) s.toWrite).2 }
  | enough {i moves fresh text size old} (hold : s.text = some old) (hle : size ≤ old.length) :
    MemMoves F s (.reserve i moves fresh) i (.locked text size) (.roomy text) s
  | reserveLost {i moves fresh text size} (hnone : s.text = none) :
    MemMoves F s (.reserve i moves fresh) i (.locked text size) (.roomy text) s.misuse
  | assigned {i text block} :
    MemMoves F s (.assign i) i (.reallocated text block) (.roomy text) { s with toWrite := block }
  | foundEnd {i text old} (hold : s.text = some old)
      (hnobody : ∀ stage ∈ s.threads, stage.inStrlen = false) :
    MemMoves F s (.findEnd i) i (.roomy text) (.appending text old.length) s
  | foundEndRacing {i text old} (hold : s.text = some old)
      (hrace : ¬ ∀ stage ∈ s.threads, stage.inStrlen = false) :
    MemMoves F s (.findEnd i) i (.roomy text) (.appending text old.length) s.misuse
  | findEndLost {i text} (hnone : s.text = none) :
    MemMoves F s (.findEnd i) i (.roomy text) (.appending text 0) s.misuse
  | appended {i text offset} :
    MemMoves F s (.strcat i) i (.appending text offset) .appended
      { s with heap := s.heap.store (some s.toWrite) offset (text ++ [0]) }
  | sent {i sent} (hold : s.text = some sent) :
    MemMoves F s (.send i) i .appended (.replied sent) { s with replyMutex := none }
  | sendLost {i} (hnone : s.text = none) :
    MemMoves F s (.send i) i .appended (.replied []) { s.misuse with replyMutex := none }
  | lockedFile {i sent} (hfree : s.fileMutex = none) :
    MemMoves F s (.lockFile i) i (.replied sent) (.writing sent none .notCalled)
      { s with fileMutex := some i }
  | loaded {i sent strlen} :
    MemMoves F s (.loadPointer i) i (.writing sent none strlen)
      (.writing sent (some s.toWrite) strlen) s
  | scanned {i sent pointer} (hnobody : ∀ stage ∈ s.threads, stage.inStrcat = false) :
    MemMoves F s (.scan i) i (.writing sent pointer .notCalled)
      (.writing sent pointer (.scanning s.toWrite)) s
  | scannedRacing {i sent pointer} (hrace : ¬ ∀ stage ∈ s.threads, stage.inStrcat = false) :
    MemMoves F s (.scan i) i (.writing sent pointer .notCalled)
      (.writing sent pointer (.scanning s.toWrite)) s.misuse
  | measured {i sent pointer p text} (hold : s.textAt p = some text) :
    MemMoves F s (.measure i) i (.writing sent pointer (.scanning p))
      (.writing sent pointer (.returned text.length)) s
  | measureLost {i sent pointer p} (hnone : s.textAt p = none) :
    MemMoves F s (.measure i) i (.writing sent pointer (.scanning p))
      (.writing sent pointer (.returned 0)) s.misuse
  | wrote {i sent pointer length bytes} (hload : s.heap.load (some pointer) 0 length = some bytes) :
    MemMoves F s (.write i) i (.writing sent (some pointer) (.returned length)) (.finished sent)
      { s with file := F.write bytes s.file, written := s.written ++ bytes, fileMutex := none }
  | writeLost {i sent pointer length} (hload : s.heap.load (some pointer) 0 length = none) :
    MemMoves F s (.write i) i (.writing sent (some pointer) (.returned length)) (.finished sent)
      { s.misuse with fileMutex := none }
  | sought {i cmd} (hfree : s.fileMutex = none) (hok : (F.ioctl cmd s.file).1 = true) :
    MemMoves F s (.ioctl i) i (.seek cmd) (.reading [])
      { s with file := (F.ioctl cmd s.file).2, fileMutex := some i }
  | seekFailed {i cmd} (hfree : s.fileMutex = none) (hok : (F.ioctl cmd s.file).1 = false) :
    MemMoves F s (.ioctl i) i (.seek cmd) (.finished []) { s with file := (F.ioctl cmd s.file).2 }
  | read {i sent} (hdata : (F.read bufferSize s.file).1 ≠ []) :
    MemMoves F s (.read i) i (.reading sent)
      (.reading (sent ++ (F.read bufferSize s.file).1))
      { s with file := (F.read bufferSize s.file).2 }
  | readEnd {i sent} (hdata : (F.read bufferSize s.file).1 = []) :
    MemMoves F s (.read i) i (.reading sent) (.finished sent)
      { s with file := (F.read bufferSize s.file).2, fileMutex := none }

theorem not_any_iff {threads : List Stage} {inCall : Stage → Bool} :
    ¬ threads.any inCall = true ↔ ∀ stage ∈ threads, inCall stage = false := by
  simp

/-- **Inversion of a step.** -/
theorem memStep_moves {F : TempFile σ} {s s' : ReplyMemory σ} {a : MemoryAction}
    (h : memStep F s a = some s') :
    ∃ i before after s₁, s.threads[i]? = some before ∧ MemMoves F s a i before after s₁ ∧
      s' = s₁.setStage i after := by
  cases a with
  | receive i fresh cmd =>
    simp only [memStep, memReceive] at h
    split at h
    · rename_i reads hi
      split at h
      · rename_i st rest hrec
        cases h
        exact ⟨i, _, _, s, hi, .receivedText hrec, rfl⟩
      · rename_i st hrec
        cases h
        exact ⟨i, _, _, s, hi, .receivedSeek hrec, rfl⟩
      · cases h
      · cases h
    · cases h
  | lockReply i =>
    simp only [memStep, memLockReply] at h
    split at h
    · rename_i text size hi hfree
      cases h
      exact ⟨i, _, _, _, hi, .locked hfree, rfl⟩
    · cases h
  | reserve i moves fresh =>
    simp only [memStep, memReserve] at h
    split at h
    · rename_i text size hi
      split at h
      · rename_i hnone
        cases h
        exact ⟨i, _, _, _, hi, .reserveLost hnone, rfl⟩
      · rename_i old hold
        split at h
        · rename_i hlt
          cases h
          exact ⟨i, _, _, _, hi, .reallocated hold hlt, rfl⟩
        · rename_i hge
          cases h
          exact ⟨i, _, _, _, hi, .enough hold (Nat.le_of_not_lt hge), rfl⟩
    · cases h
  | assign i =>
    simp only [memStep, memAssign] at h
    split at h
    · rename_i text block hi
      cases h
      exact ⟨i, _, _, _, hi, .assigned, rfl⟩
    · cases h
  | findEnd i =>
    simp only [memStep, memFindEnd] at h
    split at h
    · rename_i text hi
      split at h
      · rename_i hnone
        cases h
        exact ⟨i, _, _, _, hi, .findEndLost hnone, rfl⟩
      · rename_i old hold
        split at h
        · rename_i hany
          cases h
          exact ⟨i, _, _, _, hi, .foundEndRacing hold fun hno => not_any_iff.mpr hno hany, rfl⟩
        · rename_i hnone
          cases h
          exact ⟨i, _, _, s, hi, .foundEnd hold (not_any_iff.mp hnone), rfl⟩
    · cases h
  | strcat i =>
    simp only [memStep, memStrcat] at h
    split at h
    · rename_i text offset hi
      cases h
      exact ⟨i, _, _, _, hi, .appended, rfl⟩
    · cases h
  | send i =>
    simp only [memStep, memSend] at h
    split at h
    · rename_i hi
      split at h
      · rename_i hnone
        cases h
        exact ⟨i, _, _, _, hi, .sendLost hnone, rfl⟩
      · rename_i sent hold
        cases h
        exact ⟨i, _, _, _, hi, .sent hold, rfl⟩
    · cases h
  | lockFile i =>
    simp only [memStep, memLockFile] at h
    split at h
    · rename_i sent hi hfree
      cases h
      exact ⟨i, _, _, _, hi, .lockedFile hfree, rfl⟩
    · cases h
  | loadPointer i =>
    simp only [memStep, memLoadPointer] at h
    split at h
    · rename_i sent strlen hi
      cases h
      exact ⟨i, _, _, s, hi, .loaded, rfl⟩
    · cases h
  | scan i =>
    simp only [memStep, memScan] at h
    split at h
    · rename_i sent pointer hi
      split at h
      · rename_i hany
        cases h
        exact ⟨i, _, _, _, hi, .scannedRacing fun hno => not_any_iff.mpr hno hany, rfl⟩
      · rename_i hnone
        cases h
        exact ⟨i, _, _, s, hi, .scanned (not_any_iff.mp hnone), rfl⟩
    · cases h
  | measure i =>
    simp only [memStep, memMeasure] at h
    split at h
    · rename_i sent pointer p hi
      split at h
      · rename_i hnone
        cases h
        exact ⟨i, _, _, _, hi, .measureLost hnone, rfl⟩
      · rename_i text hold
        cases h
        exact ⟨i, _, _, s, hi, .measured hold, rfl⟩
    · cases h
  | write i =>
    simp only [memStep, memWrite] at h
    split at h
    · rename_i sent pointer length hi
      split at h
      · rename_i hload
        cases h
        exact ⟨i, _, _, _, hi, .writeLost hload, rfl⟩
      · rename_i bytes hload
        cases h
        exact ⟨i, _, _, _, hi, .wrote hload, rfl⟩
    · cases h
  | ioctl i =>
    simp only [memStep, memIoctl] at h
    split at h
    · rename_i cmd hi hfree
      split at h
      · rename_i hok
        cases h
        exact ⟨i, _, _, _, hi, .sought hfree hok, rfl⟩
      · rename_i hok
        cases h
        exact ⟨i, _, _, _, hi, .seekFailed hfree (by simpa using hok), rfl⟩
    · cases h
  | read i =>
    simp only [memStep, memRead] at h
    split at h
    · rename_i sent hi
      split at h
      · rename_i hdata
        cases h
        exact ⟨i, _, _, _, hi, .read hdata, rfl⟩
      · rename_i hdata
        cases h
        exact ⟨i, _, _, _, hi, .readEnd (not_not.mp hdata), rfl⟩
    · cases h

end Aesd.Server

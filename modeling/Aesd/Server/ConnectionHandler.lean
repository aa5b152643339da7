/-
Aesd.Server.ConnectionHandler — all that `connection_handler` does, on both
of its paths, as the list of its effects.

A handler is given a descriptor and its `full_data_t`, allocates
`to_write_local`, takes five locks in turn and leaves a record in the linked
list. `Holding.step` is the discipline: what the handler holds decides which
effect may come next. `handler_keeps_discipline` says that every run of the
function keeps it, whatever the network, `ioctl` and the file answer, and
returns with nothing left in its hands. `malloc` and `realloc` are taken to
succeed; what the memory they provide holds is left open.

One access is outside of the discipline and has an effect of its own: the
`write` of the message path reads `to_write`, and takes its length, under
`file_mutex` and not under `reply_mutex` (`Effect.writeToWrite`).
-/
import Aesd.Library.StepSystem
import Aesd.Server.Receive

namespace Aesd.Server

open StepSystem

/-! ## The effects -/

/-- The mutexes of a handler: `reply_mutex`, `file_mutex`, that of the linked
list and `thread_join_mutex`. -/
inductive HandlerMutex where
  | reply
  | file
  | list
  | threadJoin
  deriving DecidableEq, Repr

/-- What a handler does to what others can see, or have to trust it with. -/
inductive Effect where
  | lock (m : HandlerMutex)
  | unlock (m : HandlerMutex)
  /-- An access to `*fulldata`. -/
  | useFulldata
  | freeFulldata
  | mallocLocal
  | reallocLocal
  /-- The `memcpy` into `to_write_local`. -/
  | copyToLocal
  | freeLocal
  /-- `read` of the connection. -/
  | readSocket
  /-- `send` of what was read from the file. -/
  | sendReply
  /-- `send` of `to_write`. -/
  | sendToWrite
  | close
  /-- `realloc` of `to_write`. -/
  | growToWrite
  /-- `strcat(to_write, to_write_local)`. -/
  | appendToWrite
  | seekFile
  | readFile
  /-- `write(temp_file_fd, to_write, strlen(to_write))`. -/
  | writeToWrite
  | insertRecord
  | setStatus
  | signal
  deriving DecidableEq, Repr

/-- What the world answers to one handler: the results of `read` on the
connection, what `realloc` provides, whether `ioctl` succeeds, the results of
`read` on the file, and `strlen(to_write)` when it gets there. -/
structure HandlerInput where
  reads : List (List UInt8)
  fresh : Nat → UInt8
  ioctlOk : Bool
  replies : List (List UInt8)
  toWriteLength : Nat

/-- The receive loop; a `read` without a result is where it waits. -/
def receiveEffects (fresh : Nat → UInt8) : List (List UInt8) → ReceiveState → List Effect
  | [], _ => [.useFulldata, .readSocket]
  | chunk :: rest, st =>
    let readRet := chunk.length
    .useFulldata :: .readSocket ::
    if readRet = 0 then []
    else
      let st := { st with buffer := chunk ++ st.buffer.drop readRet }
      if isSeekCommand st.buffer then []
      else
        (if st.size ≤ st.currentCount + readRet then [.reallocLocal] else []) ++ .copyToLocal ::
        match copyChunk chunk (growLocal fresh readRet st) with
        | none => []
        | some st => if readRet < bufferSize then [] else receiveEffects fresh rest st

/-- The loop that sends the reply to a seek. -/
def replyEffects : List (List UInt8) → List Effect
  | [] => [.readFile]
  | data :: rest =>
    if data = [] then [.readFile]
    else .readFile :: .useFulldata :: .sendReply :: replyEffects rest

/-- What both paths end with. -/
def bookkeepingEffects : List Effect :=
  [.useFulldata, .lock .list, .useFulldata, .insertRecord, .setStatus, .unlock .list,
   .lock .threadJoin, .signal, .unlock .threadJoin, .freeFulldata]

def seekEffects (inp : HandlerInput) : List Effect :=
  [.lock .file, .seekFile] ++ (if inp.ioctlOk then replyEffects inp.replies else []) ++
    [.unlock .file, .useFulldata, .close, .freeLocal] ++ bookkeepingEffects

/-- From the end of the loop on, with `size` the size of `to_write_local`. -/
def messageEffects (inp : HandlerInput) (size : Nat) : List Effect :=
  .lock .reply :: (if inp.toWriteLength < size then [.growToWrite] else []) ++
    [.appendToWrite, .freeLocal, .useFulldata, .sendToWrite, .unlock .reply, .useFulldata, .close,
     .lock .file, .writeToWrite, .unlock .file] ++ bookkeepingEffects

/-- `connection_handler`. Before the loop it stores the thread's id and looks
at the descriptor and the address. -/
def handlerEffects (inp : HandlerInput) : List Effect :=
  [.mallocLocal, .useFulldata, .useFulldata] ++ receiveEffects inp.fresh inp.reads .init ++
    match receive inp.fresh inp.reads .init with
    | .reading _ => []
    | .fault => []
    | .seek _ => seekEffects inp
    | .message st _ => messageEffects inp st.size

/-- It returns, unless it waits in `read` for ever. -/
def HandlerInput.returns (inp : HandlerInput) : Bool :=
  match receive inp.fresh inp.reads .init with
  | .reading _ => false
  | .fault => false
  | .seek _ => true
  | .message _ _ => true

/-! ## The discipline -/

/-- What the handler holds. -/
structure Holding where
  held : Option HandlerMutex
  /-- The descriptor is open. -/
  socket : Bool
  /-- `*fulldata` is allocated. -/
  fulldata : Bool
  /-- `to_write_local` is allocated. -/
  toWriteLocal : Bool
  /-- The record is in the list. -/
  recorded : Bool
  signalled : Bool
  deriving DecidableEq, Repr

def Holding.start : Holding where
  held := none
  socket := true
  fulldata := true
  toWriteLocal := false
  recorded := false
  signalled := false

/-- Everything is given back, the record is there and the signal sent. -/
def Holding.done : Holding where
  held := none
  socket := false
  fulldata := false
  toWriteLocal := false
  recorded := true
  signalled := true

/-- The mutex that guards what the effect touches. -/
def Effect.guard : Effect → Option HandlerMutex
  | .growToWrite | .appendToWrite | .sendToWrite => some .reply
  | .seekFile | .readFile | .sendReply | .writeToWrite => some .file
  | .insertRecord | .setStatus => some .list
  | .signal => some .threadJoin
  | _ => none

/-- One mutex at a time, each thing only while it is held, the record before
the signal, and everything given back once. -/
def Holding.step (h : Holding) (e : Effect) : Option Holding :=
  if e.guard ≠ none ∧ e.guard ≠ h.held then none
  else
    match e with
    | .lock m => if h.held = none then some { h with held := some m } else none
    | .unlock m => if h.held = some m then some { h with held := none } else none
    | .useFulldata => if h.fulldata then some h else none
    | .freeFulldata => if h.fulldata then some { h with fulldata := false } else none
    | .mallocLocal => if h.toWriteLocal then none else some { h with toWriteLocal := true }
    | .reallocLocal | .copyToLocal | .appendToWrite => if h.toWriteLocal then some h else none
    | .freeLocal => if h.toWriteLocal then some { h with toWriteLocal := false } else none
    | .readSocket | .sendReply | .sendToWrite => if h.socket then some h else none
    | .close => if h.socket then some { h with socket := false } else none
    | .growToWrite | .seekFile | .readFile | .writeToWrite => some h
    | .insertRecord => if h.recorded then none else some { h with recorded := true }
    | .setStatus => if h.recorded then some h else none
    | .signal => if h.recorded ∧ ¬ h.signalled then some { h with signalled := true } else none

/-- In the loop, before the mutexes. -/
def Holding.receiving : Holding := { Holding.start with toWriteLocal := true }

/-- Under `file_mutex`, on the seek path. -/
def Holding.seeking : Holding := { Holding.receiving with held := some .file }

/-- The loop has no other effects. -/
theorem receiveEffects_subset (fresh : Nat → UInt8) (reads : List (List UInt8)) :
    ∀ st, receiveEffects fresh reads st ⊆
      [.useFulldata, .readSocket, .reallocLocal, .copyToLocal] := by
  induction reads with
  | nil => simp [receiveEffects]
  | cons chunk rest ih =>
    intro st
    rw [receiveEffects]
    simp only [List.cons_subset]
    refine ⟨by simp, by simp, ?_⟩
    split
    · exact List.nil_subset _
    · split
      · exact List.nil_subset _
      · -- the copy, with or without the larger buffer before it
        refine List.append_subset.mpr ⟨?_, List.cons_subset.mpr ⟨by simp, ?_⟩⟩
        · split <;> simp
        · split
          · exact List.nil_subset _
          · split
            · exact List.nil_subset _
            · exact ih _

theorem replyEffects_subset (replies : List (List UInt8)) :
    replyEffects replies ⊆ [.readFile, .useFulldata, .sendReply] := by
  induction replies with
  | nil => simp [replyEffects]
  | cons data rest ih =>
    rw [replyEffects]
    split
    · simp
    · simpa using ih

theorem receiveEffects_keeps (fresh : Nat → UInt8) (reads : List (List UInt8))
    (st : ReceiveState) :
    run Holding.step .receiving (receiveEffects fresh reads st) = some .receiving := by
  refine run_eq_self fun e he => ?_
  have hmem := receiveEffects_subset fresh reads st he
  simp only [List.mem_cons, List.not_mem_nil, or_false] at hmem
  rcases hmem with rfl | rfl | rfl | rfl <;> rfl

theorem replyEffects_keeps (replies : List (List UInt8)) :
    run Holding.step .seeking (replyEffects replies) = some .seeking := by
  refine run_eq_self fun e he => ?_
  have hmem := replyEffects_subset replies he
  simp only [List.mem_cons, List.not_mem_nil, or_false] at hmem
  rcases hmem with rfl | rfl | rfl <;> rfl

theorem seekEffects_done (inp : HandlerInput) :
    run Holding.step .receiving (seekEffects inp) = some .done := by
  have hreply : run Holding.step .seeking (if inp.ioctlOk then replyEffects inp.replies else [])
      = some .seeking := by
    split
    · exact replyEffects_keeps inp.replies
    · rfl
  rw [seekEffects, List.append_assoc, List.append_assoc, run_append]
  show run Holding.step .seeking _ = _
  rw [run_append, hreply]
  rfl

theorem messageEffects_done (inp : HandlerInput) (size : Nat) :
    run Holding.step .receiving (messageEffects inp size) = some .done := by
  rw [messageEffects]
  split <;> rfl

/-- The whole function: where it returns, nothing is left to give back, and
where it waits for the network it has the connection open and no mutex. -/
theorem handlerEffects_keep (inp : HandlerInput) :
    run Holding.step .start (handlerEffects inp)
      = some (if inp.returns then .done else .receiving) := by
  have hloop := receiveEffects_keeps inp.fresh inp.reads .init
  rw [handlerEffects, List.append_assoc, run_append]
  show run Holding.step .receiving _ = _
  rw [run_append, hloop, Option.bind_some, HandlerInput.returns]
  cases receive inp.fresh inp.reads .init with
  | reading st => rfl
  | fault => rfl
  | seek st => exact seekEffects_done inp
  | message st rest => exact messageEffects_done inp st.size

/-! ## Counting -/

def Holding.holds (h : Holding) (m : HandlerMutex) : Nat := if h.held = some m then 1 else 0

/-- What is taken and what is given back, on the way from `h` to `h'`. -/
structure Holding.Balanced (h h' : Holding) (effects : List Effect) : Prop where
  mutex : ∀ m, effects.count (.lock m) + h.holds m = effects.count (.unlock m) + h'.holds m
  toWriteLocal : effects.count .mallocLocal + h.toWriteLocal.toNat
    = effects.count .freeLocal + h'.toWriteLocal.toNat
  socket : h.socket.toNat = effects.count .close + h'.socket.toNat
  fulldata : h.fulldata.toNat = effects.count .freeFulldata + h'.fulldata.toNat
  recorded : effects.count .insertRecord + h.recorded.toNat = h'.recorded.toNat
  signalled : effects.count .signal + h.signalled.toNat = h'.signalled.toNat

/-- One effect takes or gives back what the discipline says. -/
theorem Holding.step_balanced {h h' : Holding} {e : Effect} (hstep : h.step e = some h') :
    h.Balanced h' [e] := by
  unfold Holding.step at hstep
  split at hstep
  · cases hstep
  · cases e <;> constructor <;> grind [Holding.holds]

theorem Holding.Balanced.append {h h₁ h' : Holding} {past rest : List Effect}
    (hpast : h.Balanced h₁ past) (hrest : h₁.Balanced h' rest) :
    h.Balanced h' (past ++ rest) := by
  constructor <;> grind [Holding.Balanced]

theorem balanced_of_run {effects : List Effect} {h h' : Holding}
    (hrun : run Holding.step h effects = some h') : h.Balanced h' effects := by
  induction effects generalizing h with
  | nil =>
    cases hrun
    constructor <;> simp
  | cons e rest ih =>
    obtain ⟨h₁, hstep, hrest⟩ := run_cons hrun
    exact (Holding.step_balanced hstep).append (ih hrest)

/-- **The discipline is kept**, at every point of every run of the function in
which `malloc` and `realloc` succeed, and by then each mutex and each block
was given back as often as it was taken, but for those that are held. A call
that returns closes its descriptor, frees what it was given, records itself
and signals once; one that does not return does none of this. -/
theorem handler_keeps_discipline (inp : HandlerInput) :
    (∀ k, ∃ h, run Holding.step .start ((handlerEffects inp).take k) = some h ∧
      Holding.start.Balanced h ((handlerEffects inp).take k)) ∧
    (∀ e ∈ [Effect.close, .freeFulldata, .insertRecord, .signal],
      (handlerEffects inp).count e = inp.returns.toNat) ∧
    (handlerEffects inp).count .mallocLocal
      = (handlerEffects inp).count .freeLocal + (!inp.returns).toNat ∧
    ∀ m, (handlerEffects inp).count (.lock m) = (handlerEffects inp).count (.unlock m) := by
  have hrun := handlerEffects_keep inp
  refine ⟨fun k => ?_, ?_⟩
  · rw [← List.take_append_drop k (handlerEffects inp), run_append] at hrun
    obtain ⟨h, hpast, -⟩ := Option.bind_eq_some_iff.mp hrun
    exact ⟨h, hpast, balanced_of_run hpast⟩
  · obtain ⟨hmutex, hlocal, hsocket, hfulldata, hrecorded, hsignalled⟩ := balanced_of_run hrun
    cases hreturns : inp.returns <;>
      simp_all [Holding.holds, Holding.start, Holding.done, Holding.receiving]

end Aesd.Server

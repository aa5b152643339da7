/-
Aesd.Server.SplitSteps — the steps of `Handlers`, taken apart.

`AtomicSteps` goes from the steps of the source to those of `Handlers`. This
is the way back: a handler that takes the steps of an append, or of a write,
one right after the other, does what `Handlers` has as one. So every run of
`Handlers` whose messages fit is what the others see of a run of the source
that misuses no block (`reply_memory_of_handlers`), and what goes wrong in one
can go wrong in the program.
-/
import Aesd.Server.AtomicSteps
import Aesd.Server.ReplyRoom

namespace Aesd.Server

open StepSystem

/-! ## At rest -/

/-- The append that the step makes. -/
def Action.addition (lengths : Nat → Nat) : Action → Option Append
  | .append i => some (.connection (lengths i) (lengths i))
  | _ => none

def Action.Receives (conns : List (List (List UInt8))) (lengths : Nat → Nat) : Action → Prop
  | .receive i fresh cmd => (MemoryAction.receive i fresh cmd).Receives conns lengths
  | _ => True

/-- The stages between two steps of `Handlers`, and what they are there. -/
inductive Stands : Stage → Handler → Prop where
  | connected {reads} : Stands (.connected reads) (.connected reads)
  | received {text size} : Stands (.received text size) (.received text)
  | replied {sent} : Stands (.replied sent) (.appended sent)
  | seek {cmd} : Stands (.seek cmd) (.seek cmd)
  | reading {sent} : Stands (.reading sent) (.reading sent)
  | finished {sent} : Stands (.finished sent) (.finished sent)

variable {σ : Type} {F : TempFile σ} {conns : List (List (List UInt8))} {lengths : Nat → Nat}
  {s s₁ s' : ReplyMemory σ} {c c' : ServerState σ} {b : ReplyBuffer} {block : Nat}
  {text : List UInt8} {i : Nat} {stage after : Stage}

/-- Nobody is in the middle of a step. -/
structure Rests (s : ReplyMemory σ) (c : ServerState σ) : Prop where
  stands : ∀ stage ∈ s.threads, ∃ handler, Stands stage handler
  reply : s.replyMutex = none
  file : s.fileMutex = c.fileMutex

theorem rests_start (file : σ) (conns : List (List (List UInt8))) :
    Rests (.start file conns) (.start file conns) where
  stands stage hstage := by
    obtain ⟨reads, -, rfl⟩ := List.mem_map.mp hstage
    exact ⟨_, .connected⟩
  reply := rfl
  file := rfl

theorem Stands.quiet {handler : Handler} (h : Stands stage handler) : stage.Quiet := by
  cases h <;> exact ⟨rfl, rfl, rfl, rfl⟩

theorem Stage.Quiet.strlen (h : stage.Quiet) : stage.inStrlen = false := by
  obtain ⟨-, -, hpointers, -⟩ := h
  cases stage with
  | writing sent pointer strlen => cases strlen <;> simp_all
  | _ => rfl

theorem Stands.handler_eq {handler : Handler} (h : Stands stage handler) :
    stage.handler text = handler := by
  cases h <;> rfl

theorem Rests.set {handler : Handler} (h : Rests s c)
    (hthreads : s'.threads = s.threads.set i after) (hafter : Stands after handler)
    (hreply : s'.replyMutex = none) (hfile : s'.fileMutex = c'.fileMutex) : Rests s' c' where
  stands stage hstage := by
    rw [hthreads] at hstage
    rcases List.mem_or_eq_of_mem_set hstage with hold | rfl
    · exact h.stands stage hold
    · exact ⟨_, hafter⟩
  reply := hreply
  file := hfile

theorem Rests.quiet (h : Rests s c) : ∀ stage ∈ s.threads, stage.Quiet := by
  intro stage hstage
  obtain ⟨handler, hstands⟩ := h.stands stage hstage
  exact hstands.quiet

/-- The stage that a handler stands for. -/
theorem Rests.exists_stage (h : Rests s c) (hm : Matches F s text c) {handler : Handler}
    (hi : c.handlers[i]? = some handler) :
    ∃ stage, s.threads[i]? = some stage ∧ Stands stage handler := by
  rw [hm.handlers, List.getElem?_map] at hi
  obtain ⟨stage, hstage, rfl⟩ := Option.map_eq_some_iff.mp hi
  obtain ⟨handler, hstands⟩ := h.stands stage (List.mem_of_getElem? hstage)
  have heq : stage.handler text = handler := hstands.handler_eq
  exact ⟨stage, hstage, heq ▸ hstands⟩

/-! ## Runs of one handler -/

/-- A run without a disturbed step. -/
structure Reaches (F : TempFile σ) (s : ReplyMemory σ) (as : List MemoryAction)
    (s' : ReplyMemory σ) : Prop where
  run : run (memStep F) s as = some s'
  along : Along (memStep F) Undisturbed s as

theorem Reaches.nil : Reaches F s [] s := ⟨rfl, trivial⟩

theorem Reaches.cons {a : MemoryAction} {as : List MemoryAction} (h : Reaches F s₁ as s')
    (hstep : memStep F s a = some s₁) (ha : Undisturbed s a) : Reaches F s (a :: as) s' where
  run := by
    rw [StepSystem.run, hstep]
    exact h.run
  along := h.along.cons ha hstep

theorem Reaches.append {as bs : List MemoryAction} (h : Reaches F s as s₁)
    (h' : Reaches F s₁ bs s') : Reaches F s (as ++ bs) s' := by
  induction as generalizing s with
  | nil =>
    obtain rfl := Option.some.inj h.run
    exact h'
  | cons a as ih =>
    obtain ⟨s₂, hs₂, hrest⟩ := run_cons h.run
    exact (ih ⟨hrest, h.along.2 s₂ hs₂⟩).cons hs₂ h.along.1

/-- With `reply_mutex`, room is made, by a `realloc` that leaves the block where
it is. -/
theorem RoomInv.exists_roomy (h : RoomInv conns lengths s b)
    (hle : ∀ reads ∈ conns, ∀ r ∈ reads, r.length ≤ bufferSize) {t : List UInt8} {size : Nat}
    (hi : s.threads[i]? = some (.locked t size)) :
    ∃ as s', Reaches F s as s' ∧ as.filterMap MemoryAction.seen = [] ∧
      s'.threads = s.threads.set i (.roomy t) ∧ s'.replyMutex = s.replyMutex ∧
      s'.fileMutex = s.fileMutex ∧ RoomInv conns lengths s' b := by
  obtain ⟨block, text, hinv, -⟩ := h.order
  have htext := hinv.text_eq (hinv.assigned_of_holds hi rfl rfl)
  have hstays : Undisturbed s (.reserve i false fun _ => 0) := fun hmoves =>
    absurd hmoves Bool.false_ne_true
  by_cases hlt : text.length < size
  · obtain ⟨p, heap, hrealloc⟩ : ∃ p heap,
        s.heap.realloc false (fun _ => 0) (size + text.length + 500) s.toWrite = (p, heap) :=
      ⟨_, _, rfl⟩
    have hreserve : memStep F s (.reserve i false fun _ => 0)
        = some ({ s with heap }.setStage i (.reallocated t p)) := by
      simp only [memStep, memReserve, hi, htext, if_pos hlt, hrealloc]
    have hi₁ : ({ s with heap }.setStage i (.reallocated t p)).threads[i]?
        = some (.reallocated t p) := (getElem?_set_eq_ite hi _ i).trans (if_pos rfl)
    have hassign : memStep F ({ s with heap }.setStage i (.reallocated t p)) (.assign i)
        = some ({ { s with heap }.setStage i (.reallocated t p) with toWrite := p }.setStage i
          (.roomy t)) := by
      simp only [memStep, memAssign, hi₁]
    refine ⟨_, _, (Reaches.nil.cons hassign trivial).cons hreserve hstays,
      rfl, List.set_set .., rfl, rfl, ?_⟩
    exact (h.step hle hreserve trivial rfl).step hle hassign trivial rfl
  · have hreserve : memStep F s (.reserve i false fun _ => 0)
        = some (s.setStage i (.roomy t)) := by
      simp only [memStep, memReserve, hi, htext, if_neg hlt]
    exact ⟨_, _, Reaches.nil.cons hreserve hstays, rfl, rfl, rfl, rfl,
      h.step hle hreserve trivial rfl⟩

/-- `strcat`, while no `strlen` is under way. -/
theorem RoomInv.exists_appended (h : RoomInv conns lengths s b)
    (hle : ∀ reads ∈ conns, ∀ r ∈ reads, r.length ≤ bufferSize) {t : List UInt8}
    (hi : s.threads[i]? = some (.roomy t)) (hnobody : ∀ stage ∈ s.threads, stage.inStrlen = false)
    (hfits : b.Fits (.connection (lengths i) (lengths i))) :
    ∃ as s', Reaches F s as s' ∧ as.filterMap MemoryAction.seen = [.append i] ∧
      s'.threads = s.threads.set i .appended ∧ s'.replyMutex = s.replyMutex ∧
      s'.fileMutex = s.fileMutex ∧
      RoomInv conns lengths s' (b.strcat (.connection (lengths i) (lengths i))) := by
  obtain ⟨block, text, hinv, -⟩ := h.order
  have htext := hinv.text_eq (hinv.assigned_of_holds hi rfl rfl)
  have hfindEnd : memStep F s (.findEnd i)
      = some (s.setStage i (.appending t text.length)) := by
    simp only [memStep, memFindEnd, hi, htext, if_neg (not_any_iff.mpr hnobody)]
  have hi₁ : (s.setStage i (.appending t text.length)).threads[i]?
      = some (.appending t text.length) := (getElem?_set_eq_ite hi _ i).trans (if_pos rfl)
  have hroom₁ := h.step hle hfindEnd trivial rfl
  have hfits₁ := (hroom₁.fits_iff hi₁).mpr hfits
  have hstrcat : memStep F (s.setStage i (.appending t text.length)) (.strcat i)
      = some ({ s.setStage i (.appending t text.length) with
          heap := s.heap.store (some s.toWrite) text.length (t ++ [0]) }.setStage i .appended) := by
    simp only [memStep, memStrcat, hi₁]
    rfl
  exact ⟨_, _, (Reaches.nil.cons hstrcat hfits₁).cons hfindEnd hnobody, rfl, List.set_set .., rfl,
    rfl, hroom₁.strcat hfits₁ hstrcat⟩

/-- An append, with its reply. -/
theorem RoomInv.exists_replied (h : RoomInv conns lengths s b)
    (hle : ∀ reads ∈ conns, ∀ r ∈ reads, r.length ≤ bufferSize) {t : List UInt8} {size : Nat}
    (hi : s.threads[i]? = some (.received t size)) (hfree : s.replyMutex = none)
    (hnobody : ∀ stage ∈ s.threads, stage.inStrlen = false)
    (hfits : b.Fits (.connection (lengths i) (lengths i))) :
    ∃ as s' sent, Reaches F s as s' ∧ as.filterMap MemoryAction.seen = [.append i] ∧
      s'.threads = s.threads.set i (.replied sent) ∧ s'.replyMutex = none ∧
      s'.fileMutex = s.fileMutex ∧
      RoomInv conns lengths s' (b.strcat (.connection (lengths i) (lengths i))) := by
  have hlock : memStep F s (.lockReply i)
      = some ({ s with replyMutex := some i }.setStage i (.locked t size)) := by
    simp only [memStep, memLockReply, hi, hfree]
  have hself : ∀ after, (s.threads.set i after)[i]? = some after := fun after =>
    (getElem?_set_eq_ite hi after i).trans (if_pos rfl)
  obtain ⟨as, s₂, hreaches₂, hseen₂, hthreads₂, hreply₂, hfile₂, hroom₂⟩ :=
    (h.step hle hlock trivial rfl).exists_roomy hle (F := F) (hself _)
  have hset₂ : s₂.threads = s.threads.set i (.roomy t) := hthreads₂.trans (List.set_set ..)
  have hnobody₂ : ∀ stage ∈ s₂.threads, stage.inStrlen = false := by
    intro stage hstage
    rw [hset₂] at hstage
    rcases List.mem_or_eq_of_mem_set hstage with hold | rfl
    · exact hnobody stage hold
    · rfl
  obtain ⟨bs, s₃, hreaches₃, hseen₃, hthreads₃, hreply₃, hfile₃, hroom₃⟩ :=
    hroom₂.exists_appended hle (F := F) (hset₂ ▸ hself _) hnobody₂ hfits
  have hset₃ : s₃.threads = s.threads.set i .appended := by
    rw [hthreads₃, hset₂, List.set_set]
  have hi₃ : s₃.threads[i]? = some .appended := hset₃ ▸ hself _
  obtain ⟨block₃, text₃, hinv₃, -⟩ := hroom₃.order
  have htext₃ := hinv₃.text_eq (hinv₃.assigned_of_holds hi₃ rfl rfl)
  let released := { s₃ with replyMutex := none }
  have hsend : memStep F s₃ (.send i) = some (released.setStage i (.replied text₃)) := by
    simp only [memStep, memSend, hi₃, htext₃, released]
  refine ⟨.lockReply i :: (as ++ (bs ++ [.send i])), released.setStage i (.replied text₃), text₃,
    (hreaches₂.append (hreaches₃.append (Reaches.nil.cons hsend trivial))).cons hlock trivial,
    ?_, ?_, rfl, hfile₃.trans hfile₂, hroom₃.step hle hsend trivial rfl⟩
  · rw [List.filterMap_cons_none rfl, List.filterMap_append, List.filterMap_append, hseen₂, hseen₃]
    rfl
  · rw [ReplyMemory.setStage, hset₃, List.set_set]

theorem setStage_setStage (s : ReplyMemory σ) (i : Nat) (before after : Stage) :
    (s.setStage i before).setStage i after = s.setStage i after := by
  simp only [ReplyMemory.setStage, List.set_set]

/-- A write. -/
theorem RoomInv.exists_written (h : RoomInv conns lengths s b)
    (hle : ∀ reads ∈ conns, ∀ r ∈ reads, r.length ≤ bufferSize) {sent : List UInt8}
    (hi : s.threads[i]? = some (.replied sent)) (hfree : s.fileMutex = none)
    (hquiet : ∀ stage ∈ s.threads, stage.Quiet) :
    ∃ as s', Reaches F s as s' ∧ as.filterMap MemoryAction.seen = [.write i] ∧
      s'.threads = s.threads.set i (.finished sent) ∧ s'.replyMutex = s.replyMutex ∧
      s'.fileMutex = none ∧ RoomInv conns lengths s' b := by
  obtain ⟨block, text, hinv, -⟩ := h.order
  have hnone : ∀ stage ∈ s.threads, ∀ p ∈ stage.pending, p = s.toWrite := by
    intro stage hstage p hp
    rw [(hquiet stage hstage).pending] at hp
    cases hp
  obtain rfl := hinv.pending_iff.mp hnone
  obtain ⟨rest, hsole⟩ := hinv.sole
  have hself : ∀ after, (s.threads.set i after)[i]? = some after := fun after =>
    (getElem?_set_eq_ite hi after i).trans (if_pos rfl)
  -- What the others are at does not change, and this thread is in no `strcat` itself.
  have hothers : ∀ after : Stage, after.pending = none → ∀ stage ∈ s.threads.set i after,
      ∀ p ∈ stage.pending, p = s.toWrite := by
    intro after hafter stage hstage p hp
    rcases List.mem_or_eq_of_mem_set hstage with hold | rfl
    · exact hnone stage hold p hp
    · rw [hafter] at hp
      cases hp
  have hnobody : ∀ after : Stage, after.inStrcat = false → ∀ stage ∈ s.threads.set i after,
      stage.inStrcat = false := by
    intro after hafter stage hstage
    rcases List.mem_or_eq_of_mem_set hstage with hold | rfl
    · exact (hquiet stage hold).strcat
    · exact hafter
  let locked := { s with fileMutex := some i }
  have hlock : memStep F s (.lockFile i)
      = some (locked.setStage i (.writing sent none .notCalled)) := by
    simp only [memStep, memLockFile, hi, hfree, locked]
  have hscan : memStep F (locked.setStage i (.writing sent none .notCalled)) (.scan i)
      = some (locked.setStage i (.writing sent none (.scanning s.toWrite))) := by
    have hi₁ : (locked.setStage i (.writing sent none .notCalled)).threads[i]?
        = some (.writing sent none .notCalled) := hself _
    have hnobody₁ : ¬ (locked.setStage i (.writing sent none .notCalled)).threads.any
        Stage.inStrcat = true := not_any_iff.mpr (hnobody _ rfl)
    simp only [memStep, memScan, hi₁, if_neg hnobody₁, setStage_setStage]
    rfl
  have hmeasure : memStep F (locked.setStage i (.writing sent none (.scanning s.toWrite)))
      (.measure i) = some (locked.setStage i (.writing sent none (.returned text.length))) := by
    have hi₂ : (locked.setStage i (.writing sent none (.scanning s.toWrite))).threads[i]?
        = some (.writing sent none (.scanning s.toWrite)) := hself _
    have htext₂ : (locked.setStage i (.writing sent none (.scanning s.toWrite))).textAt s.toWrite
        = some text := hinv.textAt_eq
    simp only [memStep, memMeasure, hi₂, htext₂, setStage_setStage]
  have hload : memStep F (locked.setStage i (.writing sent none (.returned text.length)))
      (.loadPointer i)
      = some (locked.setStage i (.writing sent (some s.toWrite) (.returned text.length))) := by
    have hi₃ : (locked.setStage i (.writing sent none (.returned text.length))).threads[i]?
        = some (.writing sent none (.returned text.length)) := hself _
    simp only [memStep, memLoadPointer, hi₃, setStage_setStage]
    rfl
  have hbytes : s.heap.load (some s.toWrite) 0 text.length = some text := by
    rw [BlockHeap.load_live hsole.self (by simp)]
    simp
  have hwrite : memStep F
      (locked.setStage i (.writing sent (some s.toWrite) (.returned text.length)))
      (.write i) = some ({ locked with
        file := F.write text s.file
        written := s.written ++ text
        fileMutex := none }.setStage i (.finished sent)) := by
    have hi₄ : (locked.setStage i
        (.writing sent (some s.toWrite) (.returned text.length))).threads[i]?
        = some (.writing sent (some s.toWrite) (.returned text.length)) := hself _
    have hbytes₄ : (locked.setStage i (.writing sent (some s.toWrite)
        (.returned text.length))).heap.load (some s.toWrite) 0 text.length = some text := hbytes
    simp only [memStep, memWrite, hi₄, hbytes₄]
    simp only [ReplyMemory.setStage, List.set_set, locked]
  refine ⟨_, _, ((((Reaches.nil.cons hwrite trivial).cons hload (hothers _ rfl)).cons hmeasure
    trivial).cons hscan ⟨hothers _ rfl, hnobody _ rfl⟩).cons hlock trivial, rfl, rfl, rfl, rfl, ?_⟩
  exact ((((h.step hle hlock trivial rfl).step hle hscan trivial rfl).step hle hmeasure trivial
    rfl).step hle hload trivial rfl).step hle hwrite trivial rfl

/-! ## All runs -/

/-- **Each step of `Handlers` is a run of one handler.** -/
theorem RoomInv.exists_split (h : RoomInv conns lengths s b) (hshows : Shows F s c)
    (hrests : Rests s c) (hle : ∀ reads ∈ conns, ∀ r ∈ reads, r.length ≤ bufferSize) {a : Action}
    (hreceives : a.Receives conns lengths) (hfits : ∀ x ∈ a.addition lengths, b.Fits x)
    (hstep : Server.step F c a = some c') :
    ∃ as s', Reaches F s as s' ∧ as.filterMap MemoryAction.seen = [a] ∧ Rests s' c' ∧
      RoomInv conns lengths s' ((a.addition lengths).elim b b.strcat) := by
  obtain ⟨block, text, hinv, -, hm⟩ := hshows
  obtain ⟨i, before, after, c₁, hi, hmoves, rfl⟩ := step_moves hstep
  obtain ⟨stage, hstage, hstands⟩ := hrests.exists_stage hm hi
  obtain ⟨hfile, -⟩ := hm.idle fun j stage hj => (hrests.quiet stage (List.mem_of_getElem? hj)).length
  -- One step is enough where the source has one, too.
  have hone : ∀ {m : MemoryAction} {s₁ : ReplyMemory σ} {after' : Stage} {handler : Handler},
      memStep F s m = some (s₁.setStage i after') → m.seen = some a →
      m.addition lengths = none → a.addition lengths = none → Undisturbed s m →
      m.Receives conns lengths → s₁.threads = s.threads → Stands after' handler →
      s₁.replyMutex = none → s₁.fileMutex = c₁.fileMutex →
      ∃ as s', Reaches F s as s' ∧ as.filterMap MemoryAction.seen = [a] ∧
        Rests s' (c₁.setHandler i after) ∧
        RoomInv conns lengths s' ((a.addition lengths).elim b b.strcat) := by
    intro m s₁ after' handler hmem hseen hadd hadd' hundisturbed hreceives hthreads hafter hreply
      hmutex
    have hset : (s₁.setStage i after').threads = s.threads.set i after' := by
      rw [ReplyMemory.setStage, hthreads]
    rw [hadd']
    exact ⟨[m], _, Reaches.nil.cons hmem hundisturbed, List.filterMap_cons_some hseen,
      hrests.set hset hafter hreply hmutex, h.step hle hmem hreceives hadd⟩
  cases hmoves with
  | @receivedText i fresh cmd reads st rest hrec =>
    cases hstands
    have hmem : memStep F s (.receive i fresh cmd)
        = some (s.setStage i (.received (CString.contents st.toWriteLocal) st.size)) := by
      simp only [memStep, memReceive, hstage, hrec]
    exact hone hmem rfl rfl rfl trivial hreceives rfl .received hrests.reply hrests.file
  | @receivedSeek i fresh cmd reads st hrec =>
    cases hstands
    have hmem : memStep F s (.receive i fresh cmd) = some (s.setStage i (.seek cmd)) := by
      simp only [memStep, memReceive, hstage, hrec]
    exact hone hmem rfl rfl rfl trivial hreceives rfl .seek hrests.reply hrests.file
  | append =>
    cases hstands
    obtain ⟨as, s', sent, hreaches, hseen, hthreads, hreply, hmutex, hroom⟩ :=
      h.exists_replied hle (F := F) hstage hrests.reply
        (fun stage hstage => (hrests.quiet stage hstage).strlen) (hfits _ rfl)
    exact ⟨as, s', hreaches, hseen, hrests.set hthreads .replied hreply (hmutex.trans hrests.file),
      hroom⟩
  | write hfree =>
    cases hstands
    obtain ⟨as, s', hreaches, hseen, hthreads, hreply, hmutex, hroom⟩ :=
      h.exists_written hle (F := F) hstage (hrests.file.trans hfree) hrests.quiet
    exact ⟨as, s', hreaches, hseen, hrests.set hthreads .finished (hreply.trans hrests.reply)
      (hmutex.trans hfree.symm), hroom⟩
  | @sought i cmd hfree hok =>
    cases hstands
    rw [hfile] at hok
    have hmem : memStep F s (.ioctl i) = some ({ s with
        file := (F.ioctl cmd s.file).2
        fileMutex := some i }.setStage i (.reading [])) := by
      simp only [memStep, memIoctl, hstage, hrests.file.trans hfree, if_pos hok]
    exact hone hmem rfl rfl rfl trivial trivial rfl .reading hrests.reply rfl
  | @seekFailed i cmd hfree hok =>
    cases hstands
    rw [hfile] at hok
    have hmem : memStep F s (.ioctl i)
        = some ({ s with file := (F.ioctl cmd s.file).2 }.setStage i (.finished [])) := by
      simp [memStep, memIoctl, hstage, hrests.file.trans hfree, hok]
    exact hone hmem rfl rfl rfl trivial trivial rfl .finished hrests.reply hrests.file
  | @read i sent hdata =>
    cases hstands
    rw [hfile] at hdata
    have hmem : memStep F s (.read i) = some ({ s with
        file := (F.read bufferSize s.file).2 }.setStage i
          (.reading (sent ++ (F.read bufferSize s.file).1))) := by
      simp only [memStep, memRead, hstage, if_pos hdata]
    exact hone hmem rfl rfl rfl trivial trivial rfl .reading hrests.reply hrests.file
  | @readEnd i sent hdata =>
    cases hstands
    rw [hfile] at hdata
    have hmem : memStep F s (.read i) = some ({ s with
        file := (F.read bufferSize s.file).2
        fileMutex := none }.setStage i (.finished sent)) := by
      simp [memStep, memRead, hstage, hdata]
    exact hone hmem rfl rfl rfl trivial trivial rfl .finished hrests.reply rfl

/-- What the run of one handler shows is the step. -/
theorem Reaches.shows {as : List MemoryAction} {a : Action} (h : Reaches F s as s')
    (hseen : as.filterMap MemoryAction.seen = [a]) (hshows : Shows F s c)
    (hstep : step F c a = some c') : Shows F s' c' := by
  obtain ⟨c₁, hc₁, hshows₁⟩ := run_simulates shows_step hshows h.along h.run
  rw [hseen, StepSystem.run, hstep] at hc₁
  obtain rfl := Option.some.inj hc₁
  exact hshows₁

theorem RoomInv.exists_run {schedule : List Action} (h : RoomInv conns lengths s b)
    (hshows : Shows F s c) (hrests : Rests s c)
    (hle : ∀ reads ∈ conns, ∀ r ∈ reads, r.length ≤ bufferSize)
    (hreceives : ∀ a ∈ schedule, a.Receives conns lengths)
    (hfits : NeverOverflows b (schedule.filterMap (Action.addition lengths)))
    (hrun : run (Server.step F) c schedule = some c') :
    ∃ as s', Reaches F s as s' ∧ as.filterMap MemoryAction.seen = schedule ∧ Shows F s' c' ∧
      Rests s' c' := by
  induction schedule generalizing s c b with
  | nil =>
    obtain rfl := Option.some.inj hrun
    exact ⟨[], s, Reaches.nil, rfl, hshows, hrests⟩
  | cons a schedule ih =>
    obtain ⟨c₁, hc₁, hrest⟩ := run_cons hrun
    have hfirst : (∀ x ∈ a.addition lengths, b.Fits x) ∧
        NeverOverflows ((a.addition lengths).elim b b.strcat)
          (schedule.filterMap (Action.addition lengths)) := by
      cases ha : a.addition lengths with
      | none =>
        rw [List.filterMap_cons_none ha] at hfits
        exact ⟨nofun, hfits⟩
      | some x =>
        rw [List.filterMap_cons_some ha] at hfits
        exact ⟨fun x' hx' => Option.some.inj hx' ▸ hfits.1, hfits.2⟩
    obtain ⟨as, s₁, hreaches, hseen, hrests₁, hroom₁⟩ := h.exists_split hshows hrests hle
      (hreceives a List.mem_cons_self) hfirst.1 hc₁
    obtain ⟨bs, s', hreaches', hseen', hlast⟩ := ih hroom₁ (hreaches.shows hseen hshows hc₁) hrests₁
      (fun a' ha' => hreceives a' (List.mem_cons_of_mem a ha')) hfirst.2 hrest
    refine ⟨as ++ bs, s', hreaches.append hreaches', ?_, hlast⟩
    rw [List.filterMap_append, hseen, hseen', List.singleton_append]

/-- **Every run of `Handlers` is one of the source.** Where the messages come
out of their receive loops as C strings, and stay within the slack of the
allocations, the steps of a run are what the others see of a run that misuses no
block and leaves the same behind. -/
theorem reply_memory_of_handlers (F : TempFile σ) (file : σ) {conns : List (List (List UInt8))}
    {lengths : Nat → Nat} (hle : ∀ reads ∈ conns, ∀ r ∈ reads, r.length ≤ bufferSize)
    {schedule : List Action} {c : ServerState σ}
    (hreceives : ∀ a ∈ schedule, a.Receives conns lengths)
    (hslack : EnoughSlack bufferSize 0 (schedule.filterMap (Action.addition lengths)))
    (hrun : run (step F) (.start file conns) schedule = some c) :
    ∃ as s, run (memStep F) (.start file conns) as = some s ∧
      as.filterMap MemoryAction.seen = schedule ∧ s.heap.faults = [] ∧
      (∀ stage ∈ s.threads, stage.Quiet) ∧ s.text = some c.toWrite ∧ c.file = s.file ∧
      c.written = s.written ∧ c.handlers = s.threads.map (Stage.handler c.toWrite) := by
  have hroom : RoomInv conns lengths (.start file conns) .init := roomInv_start file conns lengths
  obtain ⟨as, s, hreaches, hseen, hshows, hrests⟩ := hroom.exists_run (shows_start file conns)
    (rests_start file conns) hle hreceives ((neverOverflows_from _ .init).mpr hslack) hrun
  have hsame := hshows.same hrests.quiet
  obtain ⟨block, text, -, hclean, -⟩ := hshows
  exact ⟨as, s, hreaches.run, hseen, hclean.faults, hrests.quiet, hsame⟩

/-- Handler 1 appends before handler 0, and writes after it. -/
def crossing : List Action :=
  [.receive 0 (fun _ => 0) ⟨0, 0⟩, .receive 1 (fun _ => 0) ⟨0, 0⟩, .append 1, .append 0, .write 0,
    .write 1]

theorem crossing_of_source : ∃ as s,
    run (memStep regularFile) (.start ([], 0) [[messageA], [messageB]]) as = some s ∧
      as.filterMap MemoryAction.seen = crossing ∧ s.heap.faults = [] ∧
      s.text = some (messageB ++ messageA) ∧
      s.written = messageB ++ messageA ++ (messageB ++ messageA) := by
  have hreceives : ∀ a ∈ crossing, a.Receives [[messageA], [messageB]] fun _ => 2 := by
    simp only [crossing, List.forall_mem_cons]
    refine ⟨fun reads st rest hreads hrec => ⟨messageA, rfl, ?_⟩,
      fun reads st rest hreads hrec => ⟨messageB, rfl, ?_⟩, by simp [Action.Receives]⟩
    · obtain rfl := Option.some.inj hreads
      exact isShortMessage_a.terminated hrec
    · obtain rfl := Option.some.inj hreads
      exact isShortMessage_b.terminated hrec
  have hslack : EnoughSlack bufferSize 0 [.connection 2 2, .connection 2 2] := by
    have hsize : localSize 2 = 1024 := localSize_small (by decide)
    refine (neverOverflows_from _ .init).mp ⟨?_, ?_, trivial⟩ <;>
      simp [ReplyBuffer.Fits, ReplyBuffer.strcat, ReplyBuffer.makeRoom, ReplyBuffer.init,
        Append.length, hsize]
  have hend : (run (step regularFile) (.start ([], 0) [[messageA], [messageB]]) crossing).map
      (fun c => (c.toWrite, c.written))
      = some (messageB ++ messageA, messageB ++ messageA ++ (messageB ++ messageA)) := by
    decide +kernel
  obtain ⟨c, hc, heq⟩ := Option.map_eq_some_iff.mp hend
  obtain ⟨htoWrite, hwritten⟩ := Prod.mk.inj heq
  obtain ⟨as, s, hrun, hseen, hfaults, -, htext, -, hsame, -⟩ :=
    reply_memory_of_handlers regularFile ([], 0) (by decide) hreceives hslack hc
  exact ⟨as, s, hrun, hseen, hfaults, htoWrite ▸ htext, hsame.symm.trans hwritten⟩

end Aesd.Server

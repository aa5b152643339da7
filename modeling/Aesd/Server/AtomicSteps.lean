/-
Aesd.Server.AtomicSteps — why the steps of the handlers may be taken as one.

In `Handlers` a message is appended and the reply sent in one step, and
`to_write` written to the file in one. `ReplyMemory` has the steps of the
source. In its undisturbed runs they come to the same: the append is where
`strcat` returns, the write where `strlen(to_write)` does, and the steps around
them show nothing to the others (`handlers_of_reply_memory`). So what holds of
the runs of `Handlers` holds of these, and of no others: where a `strlen` falls
into the stores of a `strcat` the file may get a part of a message, which is
nothing that `Handlers` shows.
-/
import Aesd.Server.ReplySafety

namespace Aesd.Server

open StepSystem

variable {σ : Type} {F : TempFile σ} {s s₁ s' : ReplyMemory σ} {c : ServerState σ}
  {block : Nat} {text : List UInt8} {i : Nat} {before after : Stage} {a : MemoryAction}

/-! ## The two systems -/

/-- The step that the others can see. -/
def MemoryAction.seen : MemoryAction → Option Action
  | .receive i fresh cmd => some (.receive i fresh cmd)
  | .strcat i => some (.append i)
  | .measure i => some (.write i)
  | .ioctl i => some (.ioctl i)
  | .read i => some (.read i)
  | _ => none

/-- What the handler at this stage looks like, where `to_write` holds `text`. -/
@[simp] def Stage.handler (text : List UInt8) : Stage → Handler
  | .connected reads => .connected reads
  | .received t _ | .locked t _ | .reallocated t _ | .roomy t | .appending t _ => .received t
  | .appended => .appended text
  | .replied sent => .appended sent
  | .writing sent _ .notCalled | .writing sent _ (.scanning _) => .appended sent
  | .writing sent _ (.returned _) => .finished sent
  | .seek cmd => .seek cmd
  | .reading sent => .reading sent
  | .finished sent => .finished sent

/-- The states show the same, but for the write that is under way: that has
taken place in `c` as soon as its length is known. -/
structure Matches (F : TempFile σ) (s : ReplyMemory σ) (text : List UInt8) (c : ServerState σ) :
    Prop where
  toWrite : c.toWrite = text
  handlers : c.handlers = s.threads.map (Stage.handler text)
  idle : (∀ (j : Nat) (stage : Stage), s.threads[j]? = some stage → stage.length = none) →
    c.file = s.file ∧ c.written = s.written
  underWay : ∀ (j : Nat) (stage : Stage), s.threads[j]? = some stage → ∀ n ∈ stage.length,
    c.file = F.write (text.take n) s.file ∧ c.written = s.written ++ text.take n
  mutex : ∀ (j : Nat), c.fileMutex = some j → ∃ sent, s.threads[j]? = some (.reading sent)

theorem matches_start (file : σ) (conns : List (List (List UInt8))) :
    Matches F (.start file conns) [] (.start file conns) where
  toWrite := rfl
  handlers := by
    rw [ServerState.start, ReplyMemory.start, List.map_map]
    rfl
  idle _ := ⟨rfl, rfl⟩
  underWay j stage hj := by
    simp only [ReplyMemory.start, List.getElem?_map, Option.map_eq_some_iff] at hj
    obtain ⟨reads, -, rfl⟩ := hj
    simp
  mutex i := by
    simp [ServerState.start]

/-! ## Steps -/

theorem Matches.getElem? (h : Matches F s text c) (hi : s.threads[i]? = some before) :
    c.handlers[i]? = some (before.handler text) := by
  rw [h.handlers, List.getElem?_map, hi, Option.map_some]

/-- What the steps of a thread show of the others: all but the file and the
text stay, and only `after` is new. -/
theorem Matches.move {c₁ : ServerState σ} {text' : List UInt8} (h : Matches F s text c)
    (hi : s.threads[i]? = some before) (hthreads : s₁.threads = s.threads)
    (htoWrite : c₁.toWrite = text') (hhandlers : c₁.handlers = c.handlers)
    (hothers : ∀ (j : Nat) (stage : Stage), j ≠ i → s.threads[j]? = some stage →
      stage.handler text' = stage.handler text)
    (hidle : after.length = none → (∀ (j : Nat) (stage : Stage), j ≠ i →
      s.threads[j]? = some stage → stage.length = none) →
      c₁.file = s₁.file ∧ c₁.written = s₁.written)
    (hmine : ∀ n ∈ after.length,
      c₁.file = F.write (text'.take n) s₁.file ∧ c₁.written = s₁.written ++ text'.take n)
    (htheirs : ∀ (j : Nat) (stage : Stage), j ≠ i → s.threads[j]? = some stage →
      ∀ n ∈ stage.length,
        c₁.file = F.write (text'.take n) s₁.file ∧ c₁.written = s₁.written ++ text'.take n)
    (hmutex : ∀ j, c₁.fileMutex = some j →
      j = i ∧ (∃ sent, after = .reading sent) ∨ j ≠ i ∧ c.fileMutex = some j) :
    Matches F (s₁.setStage i after) text' (c₁.setHandler i (after.handler text')) := by
  have hget := getElem?_setStage hi hthreads after
  have hother : ∀ {j}, j ≠ i → (s₁.setStage i after).threads[j]? = s.threads[j]? :=
    fun hji => (hget _).trans (if_neg (Ne.symm hji))
  have hself : (s₁.setStage i after).threads[i]? = some after := (hget i).trans (if_pos rfl)
  refine ⟨htoWrite, ?_, fun hnone => ?_, fun j stage hj n hn => ?_, fun j hj => ?_⟩
  · apply List.ext_getElem?
    intro j
    rw [ServerState.setHandler, hhandlers, getElem?_set_eq_ite (h.getElem? hi), List.getElem?_map,
      hget]
    by_cases hij : i = j
    · rw [if_pos hij, if_pos hij, Option.map_some]
    · rw [if_neg hij, if_neg hij, h.handlers, List.getElem?_map]
      cases hj : s.threads[j]? with
      | none => rfl
      | some stage =>
        rw [Option.map_some, Option.map_some, hothers j stage (Ne.symm hij) hj]
  · exact hidle (hnone i after hself) fun j stage hji hj => hnone j stage ((hother hji).trans hj)
  · by_cases hji : j = i
    · subst hji
      rw [hself, Option.some.injEq] at hj
      exact hmine n (hj ▸ hn)
    · exact htheirs j stage hji ((hother hji).symm.trans hj) n hn
  · rcases hmutex j hj with ⟨rfl, sent, rfl⟩ | ⟨hji, hheld⟩
    · exact ⟨sent, hself⟩
    · obtain ⟨sent, hreading⟩ := h.mutex j hheld
      exact ⟨sent, (hother hji).trans hreading⟩

/-- A step apart from the file. -/
theorem Matches.aside {c₁ : ServerState σ} {text' : List UInt8} (h : Matches F s text c)
    (hi : s.threads[i]? = some before) (hthreads : s₁.threads = s.threads)
    (hfile : s₁.file = s.file ∧ s₁.written = s.written) (htoWrite : c₁.toWrite = text')
    (hhandlers : c₁.handlers = c.handlers) (hfile' : c₁.file = c.file ∧ c₁.written = c.written)
    (hmutex : c₁.fileMutex = c.fileMutex)
    (hothers : ∀ (j : Nat) (stage : Stage), j ≠ i → s.threads[j]? = some stage →
      stage.handler text' = stage.handler text)
    (htake : ∀ (j : Nat) (stage : Stage), s.threads[j]? = some stage →
      ∀ n ∈ stage.length, text'.take n = text.take n)
    (hlength : after.length = before.length)
    (hreading : ∀ sent, before = .reading sent → ∃ sent', after = .reading sent') :
    Matches F (s₁.setStage i after) text' (c₁.setHandler i (after.handler text')) := by
  have hunderWay : ∀ (j : Nat) (stage : Stage), s.threads[j]? = some stage → ∀ n ∈ stage.length,
      c₁.file = F.write (text'.take n) s₁.file ∧ c₁.written = s₁.written ++ text'.take n := by
    intro j stage hj n hn
    rw [hfile.1, hfile.2, hfile'.1, hfile'.2, htake j stage hj n hn]
    exact h.underWay j stage hj n hn
  refine h.move hi hthreads htoWrite hhandlers hothers (fun hnone hrest => ?_)
    (fun n hn => hunderWay i before hi n (hlength ▸ hn)) (fun j stage _ => hunderWay j stage)
    fun j hj => ?_
  · rw [hfile.1, hfile.2, hfile'.1, hfile'.2]
    refine h.idle fun j stage hj => ?_
    by_cases hji : j = i
    · subst hji
      rw [hi, Option.some.injEq] at hj
      exact hj ▸ hlength ▸ hnone
    · exact hrest j stage hji hj
  · rw [hmutex] at hj
    by_cases hji : j = i
    · subst hji
      obtain ⟨sent, hread⟩ := h.mutex j hj
      rw [hi, Option.some.injEq] at hread
      exact .inl ⟨rfl, hreading sent hread⟩
    · exact .inr ⟨hji, hj⟩

/-- The handler stays as it is. -/
theorem Matches.setHandler_eq (h : Matches F s text c) (hi : s.threads[i]? = some before)
    (hhandler : after.handler text = before.handler text) :
    c.setHandler i (after.handler text) = c := by
  obtain ⟨hlt, hget⟩ := List.getElem?_eq_some_iff.mp (h.getElem? hi)
  rw [ServerState.setHandler, hhandler, ← hget, List.set_getElem_self]

theorem Stage.eq_reading {stage : Stage} {sent : List UInt8}
    (h : stage.handler text = .reading sent) : stage = .reading sent := by
  cases stage with
  | reading sent' => rw [Handler.reading.inj h]
  | writing _ _ strlen => cases strlen <;> cases h
  | _ => cases h

/-- A step that nobody sees. -/
theorem Matches.silent (h : Matches F s text c) (hi : s.threads[i]? = some before)
    (hthreads : s₁.threads = s.threads) (hfile : s₁.file = s.file ∧ s₁.written = s.written)
    (hhandler : after.handler text = before.handler text)
    (hlength : after.length = before.length) : Matches F (s₁.setStage i after) text c := by
  rw [← h.setHandler_eq hi hhandler]
  refine h.aside hi hthreads hfile h.toWrite rfl ⟨rfl, rfl⟩ rfl (fun _ _ _ _ => rfl)
    (fun _ _ _ _ _ => rfl) hlength ?_
  rintro sent rfl
  exact ⟨sent, Stage.eq_reading hhandler⟩

theorem Stage.length_of_not_holdsFile {stage : Stage} (h : stage.holdsFile = false) :
    stage.length = none := by
  cases stage <;> simp_all

/-- While thread `i` has `file_mutex`, or nobody has, no other one writes. -/
theorem InOrder.length_none (h : InOrder s block text) (hown : ∀ j, s.fileMutex = some j → j = i) :
    ∀ (j : Nat) (stage : Stage), j ≠ i → s.threads[j]? = some stage → stage.length = none := by
  intro j stage hji hj
  refine Stage.length_of_not_holdsFile (Bool.eq_false_iff.mpr fun hholds => ?_)
  exact hji (hown j ((h.threads j stage hj).file hholds))

/-- A step of the thread that has `file_mutex`, or takes it. -/
theorem Matches.alone {c₁ : ServerState σ} (h : Matches F s text c) (horder : InOrder s block text)
    (hi : s.threads[i]? = some before) (hown : ∀ j, s.fileMutex = some j → j = i)
    (hthreads : s₁.threads = s.threads) (htoWrite : c₁.toWrite = c.toWrite)
    (hhandlers : c₁.handlers = c.handlers)
    (hidle : after.length = none → c₁.file = s₁.file ∧ c₁.written = s₁.written)
    (hmine : ∀ n ∈ after.length,
      c₁.file = F.write (text.take n) s₁.file ∧ c₁.written = s₁.written ++ text.take n)
    (hmutex : ∀ j, c₁.fileMutex = some j → j = i ∧ ∃ sent, after = .reading sent) :
    Matches F (s₁.setStage i after) text (c₁.setHandler i (after.handler text)) := by
  refine h.move hi hthreads (htoWrite.trans h.toWrite) hhandlers (fun _ _ _ _ => rfl)
    (fun hnone _ => hidle hnone) hmine (fun j stage hji hj n hn => ?_) fun j hj => .inl (hmutex j hj)
  rw [horder.length_none hown j stage hji hj] at hn
  cases hn

/-- That thread finds the file as the other system has it. -/
theorem Matches.file_eq (h : Matches F s text c) (horder : InOrder s block text)
    (hi : s.threads[i]? = some before) (hown : ∀ j, s.fileMutex = some j → j = i)
    (hlength : before.length = none) : c.file = s.file ∧ c.written = s.written := by
  refine h.idle fun j stage hj => ?_
  by_cases hji : j = i
  · subst hji
    rw [hi, Option.some.injEq] at hj
    exact hj ▸ hlength
  · exact horder.length_none hown j stage hji hj

/-- Nobody else is in the loop that replies to a seek. -/
theorem Matches.mutex_own (h : Matches F s text c) (horder : InOrder s block text)
    (hown : ∀ j, s.fileMutex = some j → j = i) {j : Nat} (hj : c.fileMutex = some j) :
    j = i ∧ ∃ sent, s.threads[j]? = some (.reading sent) := by
  obtain ⟨sent, hreading⟩ := h.mutex j hj
  exact ⟨hown j ((horder.threads j _ hreading).file rfl), sent, hreading⟩

/-- With `file_mutex` free here, it is free there. -/
theorem Matches.mutex_none (h : Matches F s text c) (horder : InOrder s block text)
    (hown : ∀ j, s.fileMutex = some j → j = i) (hi : s.threads[i]? = some before)
    (hbefore : ∀ sent, before ≠ .reading sent) : c.fileMutex = none := by
  refine Option.eq_none_iff_forall_not_mem.mpr fun j hj => ?_
  obtain ⟨rfl, sent, hreading⟩ := h.mutex_own horder hown hj
  rw [hi, Option.some.injEq] at hreading
  exact hbefore sent hreading

/-- Out of the receive loop. -/
theorem Matches.received (h : Matches F s text c) {reads : List (List UInt8)}
    (hi : s.threads[i]? = some (.connected reads)) (hlength : after.length = none) :
    Matches F (s.setStage i after) text (c.setHandler i (after.handler text)) :=
  h.aside hi rfl ⟨rfl, rfl⟩ h.toWrite rfl ⟨rfl, rfl⟩ rfl (fun _ _ _ _ => rfl)
    (fun _ _ _ _ _ => rfl) hlength fun _ hreading => by cases hreading

/-- `strcat`. The others that are between their append and their reply would
hold `reply_mutex`. -/
theorem Matches.appended (h : Matches F s text c) (horder : InOrder s block text) {t : List UInt8}
    {offset : Nat} (hi : s.threads[i]? = some (.appending t offset)) (heap : BlockHeap UInt8) :
    Matches F ({ s with heap }.setStage i .appended) (text ++ t)
      ({ c with toWrite := text ++ t }.setHandler i (.appended (text ++ t))) := by
  refine h.aside hi rfl ⟨rfl, rfl⟩ rfl rfl ⟨rfl, rfl⟩ rfl (fun j stage hji hj => ?_)
    (fun j stage hj n hn => ?_) rfl fun _ hreading => by cases hreading
  · have hmine := (horder.threads i _ hi).reply rfl
    have htheirs := (horder.threads j stage hj).reply
    rw [hmine, Option.some.injEq] at htheirs
    cases stage with
    | appended => exact absurd (htheirs rfl).symm hji
    | writing sent pointer strlen => cases strlen <;> rfl
    | _ => rfl
  · exact List.take_append_of_le_length ((horder.threads j stage hj).length n hn)

/-- `strlen(to_write)`: the bytes that are going to be written are known. -/
theorem Matches.measured (h : Matches F s text c) (horder : InOrder s block text)
    {sent : List UInt8} {pointer : Option Nat} {p : Nat}
    (hi : s.threads[i]? = some (.writing sent pointer (.scanning p))) :
    ∃ c', Server.step F c (.write i) = some c' ∧
      Matches F (s.setStage i (.writing sent pointer (.returned text.length))) text c' := by
  have hown : ∀ j, s.fileMutex = some j → j = i := fun j hj =>
    Option.some.inj (hj.symm.trans ((horder.threads i _ hi).file rfl))
  have hmutex : c.fileMutex = none := h.mutex_none horder hown hi fun _ => by simp
  obtain ⟨hfile, hwritten⟩ := h.file_eq horder hi hown rfl
  have hhandler := h.getElem? hi
  simp only [Server.step, stepWrite, hhandler, Stage.handler, hmutex]
  refine ⟨_, rfl, h.alone horder hi hown rfl rfl rfl (fun hnone => by cases hnone) (fun n hn => ?_)
    fun j hj => by cases hj⟩
  obtain rfl := Option.some.inj hn
  rw [List.take_length, hfile, hwritten, h.toWrite]
  exact ⟨rfl, rfl⟩

/-- `write`: the file now is what the other system has had for a while. -/
theorem Matches.wrote (h : Matches F s text c) (horder : InOrder s block text) (hclean : Clean s)
    {sent bytes : List UInt8} {pointer length : Nat}
    (hi : s.threads[i]? = some (.writing sent (some pointer) (.returned length)))
    (hload : s.heap.load (some pointer) 0 length = some bytes) :
    Matches F ({ s with
      file := F.write bytes s.file
      written := s.written ++ bytes
      fileMutex := none }.setStage i (.finished sent)) text c := by
  have hown : ∀ j, s.fileMutex = some j → j = i := fun j hj =>
    Option.some.inj (hj.symm.trans ((horder.threads i _ hi).file rfl))
  have hmutex : c.fileMutex = none := h.mutex_none horder hown hi fun _ => by simp
  -- The block is still there, and the text in it has only become longer.
  have hbytes : bytes = text.take length := by
    obtain rfl := horder.isSome_iff.mp (hclean.pointers i _ hi pointer (by simp))
    obtain ⟨rest, hsole⟩ := horder.sole
    have hle : length ≤ text.length := (horder.threads i _ hi).length length rfl
    have hlen : 0 + length ≤ (text ++ 0 :: rest).length := by
      rw [List.length_append]
      omega
    rw [BlockHeap.load_live hsole.self hlen, Option.some.injEq] at hload
    rw [← hload, List.drop_zero, List.take_append_of_le_length hle]
  obtain ⟨hfile, hwritten⟩ := h.underWay i _ hi length rfl
  have hsame : c.setHandler i (Stage.handler text (.finished sent)) = c := h.setHandler_eq hi rfl
  rw [← hsame]
  refine h.alone horder hi hown rfl rfl rfl (fun _ => ?_) (fun n hn => by cases hn)
    fun j hj => by cases hmutex.symm.trans hj
  rw [hbytes]
  exact ⟨hfile, hwritten⟩

/-- The steps of a reply to a seek are the same in both. -/
theorem Matches.ioctl (h : Matches F s text c) (horder : InOrder s block text)
    {cmd : Driver.AesdSeekto} (hi : s.threads[i]? = some (.seek cmd)) (hfree : s.fileMutex = none)
    (hstep : memStep F s (.ioctl i) = some s') :
    ∃ c', Server.step F c (.ioctl i) = some c' ∧ Matches F s' text c' := by
  have hown : ∀ j, s.fileMutex = some j → j = i := fun j hj => by cases hfree.symm.trans hj
  have hmutex : c.fileMutex = none := h.mutex_none horder hown hi fun _ => by simp
  obtain ⟨hfile, hwritten⟩ := h.file_eq horder hi hown rfl
  have hhandler := h.getElem? hi
  simp only [memStep, memIoctl, hi, hfree] at hstep
  simp only [Server.step, stepIoctl, hhandler, Stage.handler, hmutex, hfile]
  split at hstep
  · rename_i hok
    cases hstep
    refine ⟨_, if_pos hok, h.alone horder hi hown rfl rfl rfl (fun _ => ⟨rfl, hwritten⟩)
      (fun n hn => by cases hn) fun j hj => ⟨(Option.some.inj hj).symm, [], rfl⟩⟩
  · rename_i hok
    cases hstep
    refine ⟨_, if_neg hok, h.alone horder hi hown rfl rfl rfl (fun _ => ⟨rfl, hwritten⟩)
      (fun n hn => by cases hn) fun j hj => by cases hj⟩

theorem Matches.read (h : Matches F s text c) (horder : InOrder s block text) {sent : List UInt8}
    (hi : s.threads[i]? = some (.reading sent)) (hstep : memStep F s (.read i) = some s') :
    ∃ c', Server.step F c (.read i) = some c' ∧ Matches F s' text c' := by
  have hown : ∀ j, s.fileMutex = some j → j = i := fun j hj =>
    Option.some.inj (hj.symm.trans ((horder.threads i _ hi).file rfl))
  obtain ⟨hfile, hwritten⟩ := h.file_eq horder hi hown rfl
  have hhandler := h.getElem? hi
  simp only [memStep, memRead, hi] at hstep
  simp only [Server.step, stepRead, hhandler, Stage.handler, hfile]
  split at hstep
  · rename_i hdata
    cases hstep
    refine ⟨_, if_pos hdata, h.alone horder hi hown rfl rfl rfl (fun _ => ⟨rfl, hwritten⟩)
      (fun n hn => by cases hn) fun j hj => ⟨(h.mutex_own horder hown hj).1, _, rfl⟩⟩
  · rename_i hdata
    cases hstep
    refine ⟨_, if_neg hdata, h.alone horder hi hown rfl rfl rfl (fun _ => ⟨rfl, hwritten⟩)
      (fun n hn => by cases hn) fun j hj => by cases hj⟩

/-- **Each step of the source is a step that the others see, or none.** -/
theorem Matches.step (hm : Matches F s text c) (h : InOrder s block text) (hclean : Clean s)
    (hundisturbed : Undisturbed s a) (hstep : memStep F s a = some s') :
    ∃ block' text' c', run (step F) c a.seen.toList = some c' ∧ InOrder s' block' text' ∧
      Matches F s' text' c' := by
  obtain ⟨block', text', horder', htext⟩ := h.step hstep
  obtain ⟨i, before, after, s₁, hi, hmoves, rfl⟩ := memStep_moves hstep
  have hbefore := h.threads i before hi
  -- A step that shows nothing.
  have hsilent : a.seen = none → text' = text → s₁.threads = s.threads →
      s₁.file = s.file ∧ s₁.written = s.written → after.handler text = before.handler text →
      after.length = before.length →
      ∃ block' text' c', run (Server.step F) c a.seen.toList = some c' ∧
        InOrder (s₁.setStage i after) block' text' ∧
        Matches F (s₁.setStage i after) text' c' := by
    intro hseen htext hthreads hfile hhandler hlength
    subst htext
    rw [hseen]
    exact ⟨_, _, c, rfl, horder', hm.silent hi hthreads hfile hhandler hlength⟩
  -- A step that is one of the other system, too.
  have hseen : ∀ {a' : Action}, a.seen = some a' →
      (∃ c', Server.step F c a' = some c' ∧ Matches F (s₁.setStage i after) text' c') →
      ∃ block' text' c', run (Server.step F) c a.seen.toList = some c' ∧
        InOrder (s₁.setStage i after) block' text' ∧
        Matches F (s₁.setStage i after) text' c' := by
    rintro a' hseen ⟨c', hc', hmatches⟩
    rw [hseen]
    exact ⟨_, _, c', by simp [run, hc'], horder', hmatches⟩
  have hhandler := hm.getElem? hi
  cases hmoves with
  | receivedText hrec =>
    obtain rfl : text' = text := htext
    refine hseen rfl ⟨_, ?_, hm.received hi rfl⟩
    simp only [Server.step, stepReceive, hhandler, Stage.handler, hrec]
  | receivedSeek hrec =>
    obtain rfl : text' = text := htext
    refine hseen rfl ⟨_, ?_, hm.received hi rfl⟩
    simp only [Server.step, stepReceive, hhandler, Stage.handler, hrec]
  | locked hnone => exact hsilent rfl htext rfl ⟨rfl, rfl⟩ rfl rfl
  | reallocated hold hlt => exact hsilent rfl htext rfl ⟨rfl, rfl⟩ rfl rfl
  | enough hold hle => exact hsilent rfl htext rfl ⟨rfl, rfl⟩ rfl rfl
  | reserveLost hnone => exact absurd hnone (h.text_ne_none hi rfl rfl)
  | assigned => exact hsilent rfl htext rfl ⟨rfl, rfl⟩ rfl rfl
  | foundEnd hold hnobody => exact hsilent rfl htext rfl ⟨rfl, rfl⟩ rfl rfl
  | foundEndRacing hold hrace => exact absurd hundisturbed hrace
  | findEndLost hnone => exact absurd hnone (h.text_ne_none hi rfl rfl)
  | @appended i t offset =>
    rcases htext t offset hi with ⟨-, rfl⟩ | ⟨hfits, -⟩
    · refine hseen rfl ⟨_, ?_, hm.appended h hi _⟩
      simp only [Server.step, stepAppend, hhandler, Stage.handler, hm.toWrite]
    · exact absurd hundisturbed hfits
  | sent hold =>
    obtain ⟨-, rfl⟩ := h.eq_of_text hold
    exact hsilent rfl htext rfl ⟨rfl, rfl⟩ rfl rfl
  | sendLost hnone => exact absurd hnone (h.text_ne_none hi rfl rfl)
  | lockedFile hnone => exact hsilent rfl htext rfl ⟨rfl, rfl⟩ rfl rfl
  | @loaded i sent strlen =>
    refine hsilent rfl htext rfl ⟨rfl, rfl⟩ ?_ rfl
    cases strlen <;> rfl
  | scanned hnobody => exact hsilent rfl htext rfl ⟨rfl, rfl⟩ rfl rfl
  | scannedRacing hrace => exact absurd hundisturbed.2 hrace
  | measured hold =>
    obtain rfl : text' = text := htext
    obtain ⟨-, rfl⟩ := h.eq_of_textAt hold
    exact hseen rfl (hm.measured h hi)
  | measureLost hnone =>
    have hfaults := ((h.clean_step hstep).mpr ⟨hclean, hundisturbed⟩).faults
    cases hfaults
  | wrote hload =>
    obtain rfl : text' = text := htext
    exact ⟨_, _, c, rfl, horder', hm.wrote h hclean hi hload⟩
  | writeLost hload =>
    have hfaults := ((h.clean_step hstep).mpr ⟨hclean, hundisturbed⟩).faults
    cases hfaults
  | sought hfree hok =>
    obtain rfl : text' = text := htext
    exact hseen rfl (hm.ioctl h hi hfree hstep)
  | seekFailed hfree hok =>
    obtain rfl : text' = text := htext
    exact hseen rfl (hm.ioctl h hi hfree hstep)
  | read hdata =>
    obtain rfl : text' = text := htext
    exact hseen rfl (hm.read h hi hstep)
  | readEnd hdata =>
    obtain rfl : text' = text := htext
    exact hseen rfl (hm.read h hi hstep)

/-! ## Runs -/

/-- Nobody is between a `realloc` and its assignment, in the stores of `strcat`,
or between the arguments of a `write` and the `write`. -/
structure Stage.Quiet (stage : Stage) : Prop where
  pending : stage.pending = none
  strcat : stage.inStrcat = false
  pointers : stage.pointers = []
  length : stage.length = none

instance (stage : Stage) : Decidable stage.Quiet :=
  decidable_of_iff (stage.pending = none ∧ stage.inStrcat = false ∧ stage.pointers = [] ∧
    stage.length = none)
    ⟨fun h => ⟨h.1, h.2.1, h.2.2.1, h.2.2.2⟩, fun h => ⟨h.pending, h.strcat, h.pointers, h.length⟩⟩

/-- The memory is in order and was not misused, and `c` shows the same. -/
def Shows (F : TempFile σ) (s : ReplyMemory σ) (c : ServerState σ) : Prop :=
  ∃ block text, InOrder s block text ∧ Clean s ∧ Matches F s text c

theorem shows_step : ∀ (s : ReplyMemory σ) (a : MemoryAction) (s' : ReplyMemory σ)
    (c : ServerState σ), Shows F s c → Undisturbed s a → memStep F s a = some s' →
      ∃ c', run (step F) c a.seen.toList = some c' ∧ Shows F s' c' := by
  rintro s a s' c ⟨block, text, horder, hclean, hmatches⟩ hundisturbed hstep
  obtain ⟨block', text', c', hc', horder', hmatches'⟩ :=
    hmatches.step horder hclean hundisturbed hstep
  have hclean' : Clean s' := (horder.clean_step hstep).mpr ⟨hclean, hundisturbed⟩
  exact ⟨c', hc', block', text', horder', hclean', hmatches'⟩

theorem shows_start (file : σ) (conns : List (List (List UInt8))) :
    Shows F (.start file conns) (.start file conns) :=
  ⟨0, [], inOrder_start file conns, clean_start file conns, matches_start file conns⟩

theorem Shows.same {c : ServerState σ} (h : Shows F s c) (hquiet : ∀ stage ∈ s.threads, stage.Quiet) :
    s.text = some c.toWrite ∧ c.file = s.file ∧ c.written = s.written ∧
      c.handlers = s.threads.map (Stage.handler c.toWrite) := by
  obtain ⟨block, text, horder, -, hmatches⟩ := h
  obtain ⟨hfile, hwritten⟩ := hmatches.idle fun j stage hj =>
    (hquiet stage (List.mem_of_getElem? hj)).length
  have hassigned : s.toWrite = block := by
    refine horder.pending_iff.mp fun stage hstage p hp => ?_
    rw [(hquiet stage hstage).pending] at hp
    cases hp
  obtain rfl := hmatches.toWrite
  exact ⟨horder.text_eq hassigned, hfile, hwritten, hmatches.handlers⟩

/-- **The steps may be taken as one.** A run that misuses no block, and stops
where nobody is about to use what it has read of `to_write`, is a run of
`Handlers` for the others: with the same text, the same file, the same bytes
written and the same replies. -/
theorem handlers_of_reply_memory (F : TempFile σ) (file : σ) (conns : List (List (List UInt8)))
    {schedule : List MemoryAction} {s : ReplyMemory σ}
    (hrun : run (memStep F) (.start file conns) schedule = some s) (hsafe : s.heap.faults = [])
    (hquiet : ∀ stage ∈ s.threads, stage.Quiet) :
    ∃ c, run (step F) (.start file conns) (schedule.filterMap MemoryAction.seen) = some c ∧
      s.text = some c.toWrite ∧ c.file = s.file ∧ c.written = s.written ∧
      c.handlers = s.threads.map (Stage.handler c.toWrite) := by
  have hclean : Clean s := (clean_iff_of_quiet fun stage h => (hquiet stage h).pointers).mpr hsafe
  obtain ⟨c, hc, hshows⟩ :=
    run_simulates shows_step (shows_start file conns) ((clean_run hrun).mp hclean) hrun
  exact ⟨c, hc, hshows.same hquiet⟩

/-- Handler 1 appends its message and replies, moving the block, between the
`strlen` and the `write` of handler 0. -/
def repliedUnderWrite : List MemoryAction :=
  [.receive 0 (fun _ => 0) ⟨0, 0⟩, .lockReply 0, .reserve 0 false (fun _ => 0), .assign 0,
    .findEnd 0, .strcat 0, .send 0, .lockFile 0, .scan 0, .measure 0,
    .receive 1 (fun _ => 0) ⟨0, 0⟩, .lockReply 1, .reserve 1 true (fun _ => 0), .assign 1,
    .findEnd 1, .strcat 1, .send 1, .loadPointer 0, .write 0,
    .lockFile 1, .loadPointer 1, .scan 1, .measure 1, .write 1]

theorem repliedUnderWrite_handlers : ∃ s c,
    run (memStep regularFile) (.start ([], 0) [[messageA], [messageB]]) repliedUnderWrite = some s ∧
      run (step regularFile) (.start ([], 0) [[messageA], [messageB]])
        (repliedUnderWrite.filterMap MemoryAction.seen) = some c ∧
      s.text = some c.toWrite ∧ c.file = s.file ∧ c.written = s.written ∧
      c.handlers = s.threads.map (Stage.handler c.toWrite) := by
  have hend : (run (memStep regularFile) (.start ([], 0) [[messageA], [messageB]])
      repliedUnderWrite).map (fun s => (s.heap.faults, s.threads.all fun stage => stage.Quiet))
      = some ([], true) := by decide +kernel
  obtain ⟨s, hrun, hs⟩ := Option.map_eq_some_iff.mp hend
  obtain ⟨hfaults, hstages⟩ := Prod.mk.inj hs
  have hquiet : ∀ stage ∈ s.threads, stage.Quiet := fun stage hstage =>
    of_decide_eq_true (List.all_eq_true.mp hstages stage hstage)
  obtain ⟨c, hc⟩ := handlers_of_reply_memory regularFile _ _ hrun hfaults hquiet
  exact ⟨s, c, hrun, hc⟩

end Aesd.Server

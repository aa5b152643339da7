/-
Aesd.Server.ReplySafety — when the block behind `to_write` is misused.

The handlers keep one block with one string in it in every run, also in those
that misuse it (`InOrder`): only the holder of `reply_mutex` changes either.
What goes wrong is the `write`, which is under the other mutex.
`reply_memory_safe_iff` says in which runs no block is misused: those in which
nobody moves the block while a write, or the `strlen` for it, holds the pointer,
no write looks at `to_write` before the assignment, no such `strlen` overlaps
the stores of a `strcat`, and each message fits.
-/
import Aesd.Server.Messages
import Aesd.Server.ReplyMemory

namespace Aesd.Server

open StepSystem

variable {σ : Type}

/-! ## The memory in order -/

/-- The message that is still to be appended. -/
@[simp] def Stage.text : Stage → Option (List UInt8)
  | .received text _ | .locked text _ | .reallocated text _ | .roomy text
  | .appending text _ => some text
  | _ => none

@[simp] def Stage.holdsReply : Stage → Bool
  | .locked .. | .reallocated .. | .roomy _ | .appending .. | .appended => true
  | _ => false

@[simp] def Stage.holdsFile : Stage → Bool
  | .writing .. | .reading _ => true
  | _ => false

/-- What `realloc` has returned and nobody has stored. -/
@[simp] def Stage.pending : Stage → Option Nat
  | .reallocated _ block => some block
  | _ => none

/-- Where `strcat` stores. -/
@[simp] def Stage.offset : Stage → Option Nat
  | .appending _ offset => some offset
  | _ => none

/-- The pointer that `strlen` is at. -/
@[simp] def Strlen.pointer : Strlen → Option Nat
  | .scanning p => some p
  | _ => none

@[simp] def Strlen.length : Strlen → Option Nat
  | .returned n => some n
  | _ => none

/-- The pointers into the block that the thread is going to use: the one that
`write` is called with, and that of `strlen`. -/
@[simp] def Stage.pointers : Stage → List Nat
  | .writing _ pointer strlen => pointer.toList ++ strlen.pointer.toList
  | _ => []

/-- The length that `write` is going to be called with. -/
@[simp] def Stage.length : Stage → Option Nat
  | .writing _ _ strlen => strlen.length
  | _ => none

/-- Handler `i` may be at this stage, where the text is in this block. -/
structure Stage.Ok (s : ReplyMemory σ) (block : Nat) (text : List UInt8) (i : Nat)
    (stage : Stage) : Prop where
  noNul : ∀ t ∈ stage.text, 0 ∉ t
  reply : stage.holdsReply = true → s.replyMutex = some i
  file : stage.holdsFile = true → s.fileMutex = some i
  pending : ∀ p ∈ stage.pending, p = block
  offset : ∀ n ∈ stage.offset, n = text.length
  pointers : ∀ p ∈ stage.pointers, p < s.heap.next
  length : ∀ n ∈ stage.length, n ≤ text.length

/-- There is one block, and the text is in it. `to_write` points to it, or
will when the `realloc` under way is assigned. -/
structure InOrder (s : ReplyMemory σ) (block : Nat) (text : List UInt8) : Prop where
  sole : ∃ rest, s.heap.Sole block (text ++ 0 :: rest)
  noNul : 0 ∉ text
  toWrite_lt : s.toWrite < s.heap.next
  assigned : s.toWrite = block ∨ ∃ (i : Nat) (t : List UInt8), s.threads[i]? = some (.reallocated t block)
  threads : ∀ (i : Nat) (stage : Stage), s.threads[i]? = some stage → stage.Ok s block text i

theorem inOrder_start (file : σ) (conns : List (List (List UInt8))) :
    InOrder (.start file conns) 0 [] where
  sole := by
    have hzeros : List.replicate bufferSize (0 : UInt8) = [] ++ 0 :: List.replicate 1023 0 := rfl
    refine ⟨List.replicate 1023 0, ?_, fun j hj => ?_, Nat.one_pos⟩
    · simp only [ReplyMemory.start, Function.update_self, hzeros]
    · simp only [ReplyMemory.start, Function.update_of_ne hj]
  noNul := List.not_mem_nil
  toWrite_lt := Nat.one_pos
  assigned := .inl rfl
  threads i stage hi := by
    simp only [ReplyMemory.start, List.getElem?_map, Option.map_eq_some_iff] at hi
    obtain ⟨reads, -, rfl⟩ := hi
    constructor <;> simp

variable {F : TempFile σ} {s s₁ s' : ReplyMemory σ} {block block' : Nat} {text text' : List UInt8}
  {i j : Nat} {before after stage : Stage} {a : MemoryAction}

/-- The threads after the step. -/
theorem getElem?_setStage (hi : s.threads[i]? = some before) (hthreads : s₁.threads = s.threads)
    (after : Stage) (j : Nat) :
    (s₁.setStage i after).threads[j]? = if i = j then some after else s.threads[j]? := by
  rw [ReplyMemory.setStage, hthreads]
  exact getElem?_set_eq_ite hi after j

/-- A thread that stays where it is. -/
theorem Stage.Ok.frame (h : stage.Ok s block text j)
    (hreply : s.replyMutex = some j → s₁.replyMutex = some j)
    (hfile : s.fileMutex = some j → s₁.fileMutex = some j)
    (hpending : ∀ p ∈ stage.pending, block' = block)
    (hoffset : ∀ n ∈ stage.offset, text' = text) (hnext : s.heap.next ≤ s₁.heap.next)
    (htext : text.length ≤ text'.length) : stage.Ok s₁ block' text' j where
  noNul := h.noNul
  reply hr := hreply (h.reply hr)
  file hf := hfile (h.file hf)
  pending p hp := (h.pending p hp).trans (hpending p hp).symm
  offset n hn := (h.offset n hn).trans (congrArg List.length (hoffset n hn).symm)
  pointers p hp := Nat.lt_of_lt_of_le (h.pointers p hp) hnext
  length n hn := Nat.le_trans (h.length n hn) htext

/-- The string in the block. -/
theorem InOrder.textAt_eq (h : InOrder s block text) : s.textAt block = some text := by
  obtain ⟨rest, hsole⟩ := h.sole
  rw [ReplyMemory.textAt, hsole.self]
  dsimp only
  rw [if_pos (by simp), CString.contents_append_nul h.noNul]

theorem InOrder.text_eq (h : InOrder s block text) (heq : s.toWrite = block) :
    s.text = some text := by
  rw [ReplyMemory.text, heq, h.textAt_eq]

/-- There is no other block. -/
theorem InOrder.textAt_none (h : InOrder s block text) {p : Nat} (hne : p ≠ block) :
    s.textAt p = none := by
  obtain ⟨rest, hsole⟩ := h.sole
  rw [ReplyMemory.textAt, hsole.other _ hne]

/-- Who holds `reply_mutex` and has no `realloc` under way sees the block. -/
theorem InOrder.assigned_of_holds (h : InOrder s block text) (hi : s.threads[i]? = some stage)
    (hholds : stage.holdsReply = true) (hpending : stage.pending = none) : s.toWrite = block := by
  rcases h.assigned with heq | ⟨j, t, hj⟩
  · exact heq
  · have hji : some j = some i :=
      ((h.threads j _ hj).reply rfl).symm.trans ((h.threads i stage hi).reply hholds)
    obtain rfl := Option.some.inj hji
    rw [hi, Option.some.injEq] at hj
    subst hj
    cases hpending

theorem InOrder.text_ne_none (h : InOrder s block text) (hi : s.threads[i]? = some stage)
    (hholds : stage.holdsReply = true) (hpending : stage.pending = none) : s.text ≠ none := by
  rw [h.text_eq (h.assigned_of_holds hi hholds hpending)]
  exact Option.some_ne_none text

/-- A step of one thread, from what it leaves of the others. -/
theorem InOrder.move (h : InOrder s block text) (hi : s.threads[i]? = some before)
    (hthreads : s₁.threads = s.threads)
    (hsole : ∃ rest, s₁.heap.Sole block' (text' ++ 0 :: rest)) (hnul : 0 ∉ text')
    (hlt : s₁.toWrite < s₁.heap.next)
    (hassigned : s₁.toWrite = block' ∨ (∃ t, after = .reallocated t block') ∨
      before.pending = none ∧ s₁.toWrite = s.toWrite ∧ block' = block)
    (hothers : ∀ (j : Nat) (stage : Stage), j ≠ i → stage.Ok s block text j → stage.Ok s₁ block' text' j)
    (hafter : after.Ok s₁ block' text' i) : InOrder (s₁.setStage i after) block' text' := by
  have hget := getElem?_setStage hi hthreads after
  refine ⟨hsole, hnul, hlt, ?_, fun j stage hj => ?_⟩
  · rcases hassigned with heq | ⟨t, rfl⟩ | ⟨hbefore, hsame, rfl⟩
    · exact .inl heq
    · exact .inr ⟨i, t, (hget i).trans (if_pos rfl)⟩
    · rcases h.assigned with heq | ⟨j, t, hj⟩
      · exact .inl (hsame.trans heq)
      · have hij : i ≠ j := by
          rintro rfl
          rw [hi, Option.some.injEq] at hj
          subst hj
          cases hbefore
        exact .inr ⟨j, t, (hget j).trans ((if_neg hij).trans hj)⟩
  · rw [hget] at hj
    split at hj
    · rename_i hij
      cases hj
      obtain rfl := hij
      exact ⟨hafter.noNul, hafter.reply, hafter.file, hafter.pending, hafter.offset,
        hafter.pointers, hafter.length⟩
    · rename_i hij
      have hok := hothers j stage (Ne.symm hij) (h.threads j stage hj)
      exact ⟨hok.noNul, hok.reply, hok.file, hok.pending, hok.offset, hok.pointers, hok.length⟩

/-- A step that leaves the memory alone. -/
theorem InOrder.quiet (h : InOrder s block text) (hi : s.threads[i]? = some before)
    (hthreads : s₁.threads = s.threads) (hblock : s₁.heap.block = s.heap.block)
    (hnext : s₁.heap.next = s.heap.next) (htoWrite : s₁.toWrite = s.toWrite)
    (hpending : before.pending = none)
    (hreply : ∀ j, j ≠ i → s.replyMutex = some j → s₁.replyMutex = some j)
    (hfile : ∀ j, j ≠ i → s.fileMutex = some j → s₁.fileMutex = some j)
    (hafter : after.Ok s₁ block text i) : InOrder (s₁.setStage i after) block text := by
  obtain ⟨rest, hsole⟩ := h.sole
  refine h.move hi hthreads ⟨rest, ?_, fun j hj => ?_, hnext ▸ hsole.fresh⟩ h.noNul ?_
    (.inr (.inr ⟨hpending, htoWrite, rfl⟩)) (fun j stage hj hok => ?_) hafter
  · rw [hblock, hsole.self]
  · rw [hblock, hsole.other j hj]
  · rw [htoWrite, hnext]
    exact h.toWrite_lt
  · exact hok.frame (hreply j hj) (hfile j hj) (fun _ _ => rfl) (fun _ _ => rfl) hnext.ge
      (Nat.le_refl _)

/-- What `strcat` leaves, if there is room. -/
theorem splice_text {t rest : List UInt8} :
    BlockHeap.splice (text ++ 0 :: rest) text.length (t ++ [0])
      = (text ++ t) ++ 0 :: rest.drop t.length := by
  rw [BlockHeap.splice, List.take_left, List.length_append, List.drop_append]
  simp

theorem Stage.holdsReply_of_pending {p : Nat} (h : p ∈ stage.pending) :
    stage.holdsReply = true := by
  cases stage <;> simp_all

theorem Stage.holdsReply_of_offset {n : Nat} (h : n ∈ stage.offset) :
    stage.holdsReply = true := by
  cases stage <;> simp_all

/-- A string that is found is the text. -/
theorem InOrder.eq_of_textAt (h : InOrder s block text) {p : Nat} {old : List UInt8}
    (hold : s.textAt p = some old) : p = block ∧ old = text := by
  by_cases heq : p = block
  · exact ⟨heq, Option.some.inj (hold.symm.trans (heq ▸ h.textAt_eq))⟩
  · cases hold.symm.trans (h.textAt_none heq)

theorem InOrder.eq_of_text (h : InOrder s block text) {old : List UInt8}
    (hold : s.text = some old) : s.toWrite = block ∧ old = text :=
  h.eq_of_textAt hold

/-- `realloc` keeps the text, and `to_write` with it as soon as it is assigned. -/
theorem InOrder.reallocated (h : InOrder s block text) {t : List UInt8} {size : Nat}
    (hi : s.threads[i]? = some (.locked t size)) (moves : Bool) (fresh : Nat → UInt8) (n : Nat)
    (hn : text.length < n) :
    InOrder ({ s with heap := (s.heap.realloc moves fresh n s.toWrite).2 }.setStage i
      (.reallocated t (s.heap.realloc moves fresh n s.toWrite).1))
      (s.heap.realloc moves fresh n s.toWrite).1 text := by
  have hbefore := h.threads i _ hi
  have hblock := h.assigned_of_holds hi rfl rfl
  obtain ⟨rest, hsole⟩ := h.sole
  rw [← hblock] at hsole
  obtain ⟨hrealloc, -, hnext⟩ := hsole.realloc moves fresh n
  have hfront : (text ++ [(0 : UInt8)]).length ≤ n := by
    rw [List.length_append]
    exact hn
  obtain ⟨rest', hrest'⟩ := BlockHeap.exists_resize fresh hfront rest
  rw [List.append_assoc, List.append_assoc, List.singleton_append, List.singleton_append] at hrest'
  rw [hrest'] at hrealloc
  refine h.move hi rfl ⟨rest', hrealloc⟩ h.noNul (Nat.lt_of_lt_of_le h.toWrite_lt hnext)
    (.inr (.inl ⟨t, rfl⟩)) (fun j stage hj hok => ?_)
    ⟨hbefore.noNul, fun _ => hbefore.reply rfl, by simp, by simp, by simp, by simp, by simp⟩
  refine hok.frame id id (fun p hp => ?_) (fun _ _ => rfl) hnext (Nat.le_refl _)
  have hheld := hok.reply (Stage.holdsReply_of_pending hp)
  exact absurd (Option.some.inj (hheld.symm.trans (hbefore.reply rfl))) hj

/-- The message that the handler is appending fits behind the text. -/
def ReplyMemory.Fits (s : ReplyMemory σ) (i : Nat) : Prop :=
  ∀ t offset bs, s.threads[i]? = some (.appending t offset) →
    s.heap.block s.toWrite = some bs → offset + t.length + 1 ≤ bs.length

theorem InOrder.fits_iff (h : InOrder s s.toWrite text) {t rest : List UInt8} {offset : Nat}
    (hi : s.threads[i]? = some (.appending t offset))
    (hsole : s.heap.Sole s.toWrite (text ++ 0 :: rest)) :
    s.Fits i ↔ text.length + (t ++ [(0 : UInt8)]).length ≤ (text ++ 0 :: rest).length := by
  rw [List.length_append, List.length_singleton, ← Nat.add_assoc,
    ← (h.threads i _ hi).offset offset rfl]
  constructor
  · intro hall
    exact hall t offset _ hi hsole.self
  · intro hle t' offset' bs hi' hbs
    rw [hi, Option.some.injEq, Stage.appending.injEq] at hi'
    obtain ⟨rfl, rfl⟩ := hi'
    rw [hsole.self, Option.some.injEq] at hbs
    exact hbs ▸ hle

/-- `strcat` extends the text, if there is room, and leaves it otherwise. -/
theorem InOrder.appended (h : InOrder s block text) {t : List UInt8} {offset : Nat}
    (hi : s.threads[i]? = some (.appending t offset)) :
    ∃ text', InOrder ({ s with
      heap := s.heap.store (some s.toWrite) offset (t ++ [0]) }.setStage i .appended) block
        text' ∧ (s.Fits i ∧ text' = text ++ t ∨ ¬ s.Fits i ∧ text' = text) := by
  have hbefore := h.threads i _ hi
  have hblock := h.assigned_of_holds hi rfl rfl
  subst hblock
  obtain ⟨rest, hsole⟩ := h.sole
  have hfits := h.fits_iff hi hsole
  obtain rfl := hbefore.offset _ rfl
  by_cases hroom : s.Fits i
  · have hstore := hsole.store (hfits.mp hroom)
    rw [splice_text] at hstore
    have hnext : s.heap.next ≤ (s.heap.store (some s.toWrite) text.length (t ++ [0])).next := by
      rw [BlockHeap.store_live hsole.self (hfits.mp hroom)]
    have hnul : 0 ∉ text ++ t := by
      rw [List.mem_append, not_or]
      exact ⟨h.noNul, hbefore.noNul t rfl⟩
    have hle : text.length ≤ (text ++ t).length := by
      rw [List.length_append]
      exact Nat.le_add_right ..
    refine ⟨text ++ t, h.move hi rfl ⟨_, hstore⟩ hnul hstore.fresh (.inl rfl)
      (fun j stage hj hok => hok.frame id id (fun _ _ => rfl) (fun n hn => ?_) hnext hle)
      ⟨by simp, fun _ => hbefore.reply rfl, by simp, by simp, by simp, by simp, by simp⟩,
      .inl ⟨hroom, rfl⟩⟩
    -- nobody else is in `strcat`
    have hheld := hok.reply (Stage.holdsReply_of_offset hn)
    exact absurd (Option.some.inj (hheld.symm.trans (hbefore.reply rfl))) hj
  · rw [hsole.store_of_lt (Nat.lt_of_not_le (hfits.not.mp hroom))]
    exact ⟨text, h.quiet hi rfl rfl rfl rfl rfl (fun _ _ hj => hj) (fun _ _ hj => hj)
      ⟨by simp, fun _ => hbefore.reply rfl, by simp, by simp, by simp, by simp, by simp⟩,
      .inr ⟨hroom, rfl⟩⟩

/-- The call of `strlen`, and its return. -/
theorem Stage.Ok.scan {sent : List UInt8} {pointer : Option Nat}
    (h : (Stage.writing sent pointer .notCalled).Ok s block text i) (s₁ : ReplyMemory σ)
    (hfile : s₁.fileMutex = s.fileMutex) (hnext : s₁.heap.next = s.heap.next) {p : Nat}
    (hp : p < s.heap.next) : (Stage.writing sent pointer (.scanning p)).Ok s₁ block text i where
  noNul := by simp
  reply := by simp
  file _ := hfile.trans (h.file rfl)
  pending := by simp
  offset := by simp
  pointers q hq := by
    rw [hnext]
    rcases List.mem_append.mp hq with hold | hnew
    · exact h.pointers q (List.mem_append_left _ hold)
    · exact List.mem_singleton.mp hnew ▸ hp
  length := by simp

theorem Stage.Ok.measure {sent : List UInt8} {pointer : Option Nat} {p n : Nat}
    (h : (Stage.writing sent pointer (.scanning p)).Ok s block text i) (s₁ : ReplyMemory σ)
    (hfile : s₁.fileMutex = s.fileMutex) (hnext : s₁.heap.next = s.heap.next)
    (hn : n ≤ text.length) : (Stage.writing sent pointer (.returned n)).Ok s₁ block text i where
  noNul := by simp
  reply := by simp
  file _ := hfile.trans (h.file rfl)
  pending := by simp
  offset := by simp
  pointers q hq := by
    rw [hnext]
    refine h.pointers q (List.mem_append_left _ ?_)
    simpa using hq
  length n' hn' := Option.some.inj hn' ▸ hn

/-- The text after a step. -/
def TextAfter (s : ReplyMemory σ) (a : MemoryAction) (text text' : List UInt8) : Prop :=
  match a with
  | .strcat i => ∀ t offset, s.threads[i]? = some (.appending t offset) →
    s.Fits i ∧ text' = text ++ t ∨ ¬ s.Fits i ∧ text' = text
  | _ => text' = text

/-- **Every step keeps the memory in order**, also when it misuses it. -/
theorem InOrder.step (h : InOrder s block text) (hstep : memStep F s a = some s') :
    ∃ block' text', InOrder s' block' text' ∧ TextAfter s a text text' := by
  obtain ⟨i, before, after, s₁, hi, hmoves, rfl⟩ := memStep_moves hstep
  have hbefore := h.threads i before hi
  -- A step that leaves the mutexes of the others and the memory as they are.
  have hquiet : s₁.threads = s.threads → s₁.heap.block = s.heap.block →
      s₁.heap.next = s.heap.next → s₁.toWrite = s.toWrite → before.pending = none →
      (∀ j, j ≠ i → s.replyMutex = some j → s₁.replyMutex = some j) →
      (∀ j, j ≠ i → s.fileMutex = some j → s₁.fileMutex = some j) → after.Ok s₁ block text i →
      TextAfter s a text text →
      ∃ block' text', InOrder (s₁.setStage i after) block' text' ∧ TextAfter s a text text' :=
    fun hthreads hblock hnext htoWrite hpending hreply hfile hafter htext =>
      ⟨block, text, h.quiet hi hthreads hblock hnext htoWrite hpending hreply hfile hafter, htext⟩
  have hsame : ∀ {m : Option Nat}, ∀ j, j ≠ i → m = some j → m = some j := fun _ _ hj => hj
  have hfree : ∀ {m m' : Option Nat}, m = none → ∀ j, j ≠ i → m = some j → m' = some j := by
    rintro m m' rfl j - hj
    cases hj
  have hrelease : ∀ {m m' : Option Nat}, m = some i → ∀ j, j ≠ i → m = some j → m' = some j :=
    fun hheld j hne hj => absurd (Option.some.inj (hj.symm.trans hheld)) hne
  cases hmoves with
  | receivedText hrec =>
    exact hquiet rfl rfl rfl rfl rfl hsame hsame
      ⟨by simp [CString.nul_notMem_contents], by simp, by simp, by simp, by simp, by simp,
        by simp⟩ rfl
  | receivedSeek hrec =>
    exact hquiet rfl rfl rfl rfl rfl hsame hsame (by constructor <;> simp) rfl
  | locked hnone =>
    exact hquiet rfl rfl rfl rfl rfl (hfree hnone) hsame
      ⟨hbefore.noNul, fun _ => rfl, by simp, by simp, by simp, by simp, by simp⟩ rfl
  | reallocated hold hlt =>
    obtain ⟨-, rfl⟩ := h.eq_of_text hold
    exact ⟨_, _, h.reallocated hi _ _ _ (by omega), rfl⟩
  | enough hold hle =>
    exact hquiet rfl rfl rfl rfl rfl hsame hsame
      ⟨hbefore.noNul, fun _ => hbefore.reply rfl, by simp, by simp, by simp, by simp, by simp⟩ rfl
  | reserveLost hnone => exact absurd hnone (h.text_ne_none hi rfl rfl)
  | assigned =>
    obtain rfl := hbefore.pending _ rfl
    obtain ⟨rest, hsole⟩ := h.sole
    exact ⟨_, text, h.move hi rfl ⟨rest, hsole⟩ h.noNul hsole.fresh (.inl rfl)
      (fun j stage _ hok => hok.frame id id (fun _ _ => rfl) (fun _ _ => rfl) (Nat.le_refl _)
        (Nat.le_refl _))
      ⟨hbefore.noNul, fun _ => hbefore.reply rfl, by simp, by simp, by simp, by simp, by simp⟩,
      rfl⟩
  | foundEnd hold hnobody =>
    obtain ⟨-, rfl⟩ := h.eq_of_text hold
    exact hquiet rfl rfl rfl rfl rfl hsame hsame
      ⟨hbefore.noNul, fun _ => hbefore.reply rfl, by simp, by simp, by simp, by simp, by simp⟩ rfl
  | foundEndRacing hold hrace =>
    obtain ⟨-, rfl⟩ := h.eq_of_text hold
    exact hquiet rfl rfl rfl rfl rfl hsame hsame
      ⟨hbefore.noNul, fun _ => hbefore.reply rfl, by simp, by simp, by simp, by simp, by simp⟩ rfl
  | findEndLost hnone => exact absurd hnone (h.text_ne_none hi rfl rfl)
  | appended =>
    obtain ⟨text', horder, htext⟩ := h.appended hi
    refine ⟨block, text', horder, fun t offset ht => ?_⟩
    rw [hi, Option.some.injEq, Stage.appending.injEq] at ht
    exact ht.1 ▸ htext
  | sent hold =>
    exact hquiet rfl rfl rfl rfl rfl (hrelease (hbefore.reply rfl)) hsame
      (by constructor <;> simp) rfl
  | sendLost hnone => exact absurd hnone (h.text_ne_none hi rfl rfl)
  | lockedFile hnone =>
    exact hquiet rfl rfl rfl rfl rfl hsame (hfree hnone)
      ⟨by simp, by simp, fun _ => rfl, by simp, by simp, by simp, by simp⟩ rfl
  | loaded =>
    refine hquiet rfl rfl rfl rfl rfl hsame hsame
      ⟨by simp, by simp, fun _ => hbefore.file rfl, by simp, by simp, fun p hp => ?_,
        hbefore.length⟩ rfl
    rcases List.mem_append.mp hp with hnew | hold
    · obtain rfl := List.mem_singleton.mp hnew
      exact h.toWrite_lt
    · exact hbefore.pointers p hold
  | scanned hnobody =>
    exact hquiet rfl rfl rfl rfl rfl hsame hsame (hbefore.scan s rfl rfl h.toWrite_lt) rfl
  | scannedRacing hrace =>
    exact hquiet rfl rfl rfl rfl rfl hsame hsame (hbefore.scan s.misuse rfl rfl h.toWrite_lt) rfl
  | measured hold =>
    obtain ⟨-, rfl⟩ := h.eq_of_textAt hold
    exact hquiet rfl rfl rfl rfl rfl hsame hsame (hbefore.measure s rfl rfl (Nat.le_refl _)) rfl
  | measureLost hnone =>
    exact hquiet rfl rfl rfl rfl rfl hsame hsame
      (hbefore.measure s.misuse rfl rfl (Nat.zero_le _)) rfl
  | wrote hload =>
    exact hquiet rfl rfl rfl rfl rfl hsame (hrelease (hbefore.file rfl)) (by constructor <;> simp) rfl
  | writeLost hload =>
    exact hquiet rfl rfl rfl rfl rfl hsame (hrelease (hbefore.file rfl)) (by constructor <;> simp) rfl
  | sought hnone hok =>
    exact hquiet rfl rfl rfl rfl rfl hsame (hfree hnone)
      ⟨by simp, by simp, fun _ => rfl, by simp, by simp, by simp, by simp⟩ rfl
  | seekFailed hnone hok =>
    exact hquiet rfl rfl rfl rfl rfl hsame hsame (by constructor <;> simp) rfl
  | read hdata =>
    exact hquiet rfl rfl rfl rfl rfl hsame hsame
      ⟨by simp, by simp, fun _ => hbefore.file rfl, by simp, by simp, by simp, by simp⟩ rfl
  | readEnd hdata =>
    exact hquiet rfl rfl rfl rfl rfl hsame (hrelease (hbefore.file rfl)) (by constructor <;> simp) rfl

/-! ## Misuse -/

/-- No block was misused, and who has a pointer will find a block there. -/
structure Clean (s : ReplyMemory σ) : Prop where
  faults : s.heap.faults = []
  pointers : ∀ (i : Nat) (stage : Stage), s.threads[i]? = some stage →
    ∀ p ∈ stage.pointers, (s.heap.block p).isSome = true

/-- The next step of the handler calls `realloc`. -/
def ReplyMemory.Reserves (s : ReplyMemory σ) (i : Nat) : Prop :=
  ∃ t size old, s.threads[i]? = some (.locked t size) ∧ s.text = some old ∧ old.length < size

/-- No write, and no `strlen` for one, holds a pointer while the block is moved,
none looks at `to_write` between a `realloc` that moves it and the assignment,
none of these `strlen` overlaps the stores of a `strcat`, and `strcat` has
room. -/
def Undisturbed (s : ReplyMemory σ) : MemoryAction → Prop
  | .reserve i moves _ => moves = true → s.Reserves i → ∀ stage ∈ s.threads, stage.pointers = []
  | .loadPointer _ => ∀ stage ∈ s.threads, ∀ p ∈ stage.pending, p = s.toWrite
  | .scan _ => (∀ stage ∈ s.threads, ∀ p ∈ stage.pending, p = s.toWrite) ∧
    ∀ stage ∈ s.threads, stage.inStrcat = false
  | .findEnd _ => ∀ stage ∈ s.threads, stage.inStrlen = false
  | .strcat i => s.Fits i
  | _ => True

/-- Apart from thread `i`. -/
def CleanBut (s : ReplyMemory σ) (i : Nat) (heap : BlockHeap UInt8) : Prop :=
  ∀ (j : Nat) (stage : Stage), j ≠ i → s.threads[j]? = some stage →
    ∀ p ∈ stage.pointers, (heap.block p).isSome = true

theorem clean_iff (hi : s.threads[i]? = some before) :
    Clean s ↔ s.heap.faults = [] ∧ (∀ p ∈ before.pointers, (s.heap.block p).isSome = true) ∧
      CleanBut s i s.heap := by
  refine ⟨fun h => ⟨h.faults, h.pointers i before hi, fun j stage _ hj => h.pointers j stage hj⟩,
    fun ⟨hfaults, hmine, hothers⟩ => ⟨hfaults, fun j stage hj => ?_⟩⟩
  by_cases hji : j = i
  · subst hji
    rw [hi, Option.some.injEq] at hj
    exact hj ▸ hmine
  · exact hothers j stage hji hj

theorem clean_setStage_iff (hi : s.threads[i]? = some before) (hthreads : s₁.threads = s.threads) :
    Clean (s₁.setStage i after) ↔ s₁.heap.faults = [] ∧
      (∀ p ∈ after.pointers, (s₁.heap.block p).isSome = true) ∧ CleanBut s i s₁.heap := by
  have hget := getElem?_setStage hi hthreads after
  rw [clean_iff ((hget i).trans (if_pos rfl))]
  refine and_congr_right fun _ => and_congr_right fun _ => ?_
  refine forall_congr' fun j => forall_congr' fun stage => imp_congr_right fun hji => ?_
  rw [hget, if_neg (Ne.symm hji)]
  rfl

/-- A step that misuses a block leaves that on record. -/
theorem not_clean_of_fault {fault : BlockHeap.Fault} {faults : List BlockHeap.Fault}
    (h : s.heap.faults = fault :: faults) : ¬ Clean s :=
  fun hclean => List.cons_ne_nil fault faults (h.symm.trans hclean.faults)

/-- `to_write` points to the block exactly where no other one is pending. -/
theorem InOrder.pending_iff (h : InOrder s block text) :
    (∀ stage ∈ s.threads, ∀ p ∈ stage.pending, p = s.toWrite) ↔ s.toWrite = block := by
  constructor
  · intro hall
    rcases h.assigned with heq | ⟨i, t, hi⟩
    · exact heq
    · exact (hall _ (List.mem_of_getElem? hi) block rfl).symm
  · intro heq stage hstage p hp
    obtain ⟨i, hi⟩ := List.getElem?_of_mem hstage
    exact ((h.threads i stage hi).pending p hp).trans heq.symm

theorem InOrder.isSome_iff (h : InOrder s block text) {p : Nat} :
    (s.heap.block p).isSome = true ↔ p = block := by
  obtain ⟨rest, hsole⟩ := h.sole
  by_cases hp : p = block
  · simp [hp, hsole.self]
  · simp [hp, hsole.other p hp]

/-- A `realloc` is clean where it does not move the block under a pointer. -/
theorem InOrder.clean_reallocated (h : InOrder s block text) {t : List UInt8} {size : Nat}
    (hi : s.threads[i]? = some (.locked t size)) {moves : Bool} {fresh : Nat → UInt8} {n : Nat} :
    Clean ({ s with heap := (s.heap.realloc moves fresh n s.toWrite).2 }.setStage i
        (.reallocated t (s.heap.realloc moves fresh n s.toWrite).1)) ↔
      Clean s ∧ (moves = true → ∀ stage ∈ s.threads, stage.pointers = []) := by
  have hblock := h.assigned_of_holds hi rfl rfl
  subst hblock
  obtain ⟨rest, hsole⟩ := h.sole
  refine Iff.trans (clean_setStage_iff hi rfl) ?_
  rw [clean_iff hi]
  cases moves with
  | false =>
    have hlive : ∀ p, ((s.heap.realloc false fresh n s.toWrite).2.block p).isSome = true ↔
        (s.heap.block p).isSome = true := by
      intro p
      rw [hsole.realloc_stays]
      by_cases hp : p = s.toWrite
      · simp [hp, hsole.self]
      · simp [hp]
    rw [hsole.realloc_stays] at hlive ⊢
    simp [CleanBut, hlive]
  | true =>
    -- the only live block is the new one, which nobody can have a pointer to yet
    have hdead : ∀ p < s.heap.next,
        ¬ ((s.heap.realloc true fresh n s.toWrite).2.block p).isSome = true := by
      intro p hp
      rw [hsole.realloc_moves]
      by_cases hold : p = s.toWrite
      · simp [hold, Function.update_of_ne (Nat.ne_of_lt hsole.fresh)]
      · simp [Function.update_of_ne (Nat.ne_of_lt hp), hold, hsole.other p hold]
    have hfaults : (s.heap.realloc true fresh n s.toWrite).2.faults = s.heap.faults :=
      (hsole.realloc true fresh n).2.1
    rw [hfaults]
    constructor
    · rintro ⟨hclean, -, hothers⟩
      have hnone : ∀ (j : Nat) (stage : Stage), s.threads[j]? = some stage →
          ∀ p, p ∉ stage.pointers := by
        intro j stage hj p hp
        by_cases hji : j = i
        · subst hji
          rw [hi, Option.some.injEq] at hj
          subst hj
          cases hp
        · exact hdead p ((h.threads j stage hj).pointers p hp) (hothers j stage hji hj p hp)
      refine ⟨⟨hclean, by simp, fun j stage _ hj p hp => absurd hp (hnone j stage hj p)⟩,
        fun _ stage hstage => List.eq_nil_iff_forall_not_mem.mpr fun p => ?_⟩
      obtain ⟨j, hj⟩ := List.getElem?_of_mem hstage
      exact hnone j stage hj p
    · rintro ⟨⟨hclean, -, -⟩, hnone⟩
      refine ⟨hclean, by simp, fun j stage _ hj p hp => ?_⟩
      rw [hnone rfl stage (List.mem_of_getElem? hj)] at hp
      cases hp

/-- `strcat` is clean where there is room. -/
theorem InOrder.clean_appended (h : InOrder s block text) {t : List UInt8} {offset : Nat}
    (hi : s.threads[i]? = some (.appending t offset)) :
    Clean ({ s with heap := s.heap.store (some s.toWrite) offset (t ++ [0]) }.setStage i
      .appended) ↔ Clean s ∧ s.Fits i := by
  have hblock := h.assigned_of_holds hi rfl rfl
  subst hblock
  obtain ⟨rest, hsole⟩ := h.sole
  refine Iff.trans (clean_setStage_iff hi rfl) ?_
  rw [clean_iff hi, h.fits_iff hi hsole]
  obtain rfl := (h.threads i _ hi).offset _ rfl
  by_cases hroom : text.length + (t ++ [(0 : UInt8)]).length ≤ (text ++ 0 :: rest).length
  · have hlive : ∀ p, ((s.heap.store (some s.toWrite) text.length (t ++ [0])).block p).isSome = true ↔
        (s.heap.block p).isSome = true := by
      intro p
      rw [BlockHeap.store_live hsole.self hroom]
      by_cases hp : p = s.toWrite
      · simp [hp, hsole.self]
      · simp [hp]
    rw [BlockHeap.store_live hsole.self hroom] at hlive ⊢
    simp only [CleanBut, hlive, hroom, and_true]
    simp
  · rw [hsole.store_of_lt (Nat.lt_of_not_le hroom)]
    exact ⟨fun ⟨hfaults, _⟩ => (List.cons_ne_nil _ _ hfaults).elim, fun ⟨_, hle⟩ => (hroom hle).elim⟩

/-- A pointer that is taken from `to_write` is clean where that points to the
block. -/
theorem InOrder.clean_taken (h : InOrder s block text) (hi : s.threads[i]? = some before)
    (hafter : ∀ p, p ∈ after.pointers ↔ p = s.toWrite ∨ p ∈ before.pointers) :
    Clean (s.setStage i after) ↔
      Clean s ∧ ∀ stage ∈ s.threads, ∀ p ∈ stage.pending, p = s.toWrite := by
  refine Iff.trans (clean_setStage_iff hi rfl) ?_
  rw [clean_iff hi, h.pending_iff, ← h.isSome_iff]
  constructor
  · rintro ⟨hfaults, hmine, hothers⟩
    exact ⟨⟨hfaults, fun p hp => hmine p ((hafter p).mpr (.inr hp)), hothers⟩,
      hmine s.toWrite ((hafter _).mpr (.inl rfl))⟩
  · rintro ⟨⟨hfaults, hmine, hothers⟩, hlive⟩
    refine ⟨hfaults, fun p hp => ?_, hothers⟩
    rcases (hafter p).mp hp with rfl | hold
    · exact hlive
    · exact hmine p hold

/-- **A step is clean exactly where it is undisturbed**, and one that is not
leaves a misuse or a pointer to no block, for ever. -/
theorem InOrder.clean_step (h : InOrder s block text) (hstep : memStep F s a = some s') :
    Clean s' ↔ Clean s ∧ Undisturbed s a := by
  obtain ⟨i, before, after, s₁, hi, hmoves, rfl⟩ := memStep_moves hstep
  have hbefore := h.threads i before hi
  -- A step that leaves the heap and the pointers of the thread as they are.
  have hkeep : s₁.threads = s.threads → s₁.heap = s.heap → after.pointers = before.pointers →
      Undisturbed s a → (Clean (s₁.setStage i after) ↔ Clean s ∧ Undisturbed s a) :=
    fun hthreads hheap hpointers hundisturbed => by
      rw [and_iff_left hundisturbed, clean_setStage_iff hi hthreads, clean_iff hi, hheap, hpointers]
  cases hmoves with
  | receivedText hrec => exact hkeep rfl rfl rfl trivial
  | receivedSeek hrec => exact hkeep rfl rfl rfl trivial
  | locked hnone => exact hkeep rfl rfl rfl trivial
  | @reallocated i moves fresh t size old hold hlt =>
    have hreserves : s.Reserves i := ⟨t, size, old, hi, hold, hlt⟩
    rw [h.clean_reallocated hi, Undisturbed]
    simp only [hreserves, true_imp_iff]
  | @enough i moves fresh t size old hold hle =>
    refine hkeep rfl rfl rfl fun _ hreserves => ?_
    obtain ⟨t', size', old', hi', hold', hlt⟩ := hreserves
    rw [hi, Option.some.injEq, Stage.locked.injEq] at hi'
    rw [hold, Option.some.injEq] at hold'
    rw [← hold', ← hi'.2] at hlt
    exact absurd hle (Nat.not_le.mpr hlt)
  | reserveLost hnone => exact absurd hnone (h.text_ne_none hi rfl rfl)
  | assigned => exact hkeep rfl rfl rfl trivial
  | foundEnd hold hnobody => exact hkeep rfl rfl rfl hnobody
  | foundEndRacing hold hrace =>
    exact iff_of_false (not_clean_of_fault rfl) fun hclean => hrace hclean.2
  | findEndLost hnone => exact absurd hnone (h.text_ne_none hi rfl rfl)
  | appended => exact h.clean_appended hi
  | sent hold => exact hkeep rfl rfl rfl trivial
  | sendLost hnone => exact absurd hnone (h.text_ne_none hi rfl rfl)
  | lockedFile hnone => exact hkeep rfl rfl rfl trivial
  | loaded => exact h.clean_taken hi (by simp)
  | scanned hnobody =>
    rw [Undisturbed, and_iff_left hnobody]
    exact h.clean_taken hi (by simp [or_comm])
  | scannedRacing hrace =>
    exact iff_of_false (not_clean_of_fault rfl) fun hclean => hrace hclean.2.2
  | @measured i sent pointer p text' hold =>
    refine Iff.trans (clean_setStage_iff hi rfl) ?_
    rw [clean_iff hi, and_iff_left (show Undisturbed s (.measure i) from trivial)]
    have hlive : (s.heap.block p).isSome = true := h.isSome_iff.mpr (h.eq_of_textAt hold).1
    simp [hlive, or_imp, forall_and]
  | @measureLost i sent pointer p hnone =>
    refine iff_of_false (not_clean_of_fault rfl) fun hclean => ?_
    obtain rfl := h.isSome_iff.mp (hclean.1.pointers i _ hi p (by simp))
    cases hnone.symm.trans h.textAt_eq
  | @wrote i sent pointer length bytes hload =>
    refine Iff.trans (clean_setStage_iff hi rfl) ?_
    rw [clean_iff hi, and_iff_left (show Undisturbed s (.write i) from trivial)]
    have hlive : (s.heap.block pointer).isSome = true := by
      unfold BlockHeap.load at hload
      cases hb : s.heap.block pointer with
      | none => simp [hb] at hload
      | some bs => rfl
    simp [hlive]
  | @writeLost i sent pointer length hload =>
    refine iff_of_false (not_clean_of_fault rfl) fun hclean => ?_
    obtain ⟨rest, hsole⟩ := h.sole
    obtain rfl := h.isSome_iff.mp (hclean.1.pointers i _ hi pointer (by simp))
    have hlen : 0 + length ≤ (text ++ 0 :: rest).length := by
      rw [List.length_append, Nat.zero_add]
      exact Nat.le_trans (hbefore.length length rfl) (Nat.le_add_right ..)
    cases (BlockHeap.load_live hsole.self hlen).symm.trans hload
  | sought hnone hok => exact hkeep rfl rfl rfl trivial
  | seekFailed hnone hok => exact hkeep rfl rfl rfl trivial
  | read hdata => exact hkeep rfl rfl rfl trivial
  | readEnd hdata => exact hkeep rfl rfl rfl trivial

theorem inOrder_step : ∀ (s : ReplyMemory σ) (a : MemoryAction) (s' : ReplyMemory σ),
    (∃ block text, InOrder s block text) → memStep F s a = some s' →
      ∃ block text, InOrder s' block text := by
  rintro s a s' ⟨block, text, h⟩ hstep
  obtain ⟨block', text', h', -⟩ := h.step hstep
  exact ⟨block', text', h'⟩

theorem clean_start (file : σ) (conns : List (List (List UInt8))) : Clean (.start file conns) where
  faults := rfl
  pointers i stage hi := by
    simp only [ReplyMemory.start, List.getElem?_map, Option.map_eq_some_iff] at hi
    obtain ⟨reads, -, rfl⟩ := hi
    simp

theorem clean_run {file : σ} {conns : List (List (List UInt8))} {schedule : List MemoryAction}
    (hrun : run (memStep F) (.start file conns) schedule = some s) :
    Clean s ↔ Along (memStep F) Undisturbed (.start file conns) schedule := by
  have hstep : ∀ s a s', (∃ block text, InOrder s block text) → memStep F s a = some s' →
      (Clean s' ↔ Clean s ∧ Undisturbed s a) := fun s a s' ⟨_, _, h⟩ hs => h.clean_step hs
  rw [along_iff_of_step inOrder_step hstep ⟨0, [], inOrder_start file conns⟩ hrun,
    and_iff_right (clean_start file conns)]

theorem clean_iff_of_quiet (hquiet : ∀ stage ∈ s.threads, stage.pointers = []) :
    Clean s ↔ s.heap.faults = [] := by
  refine ⟨fun h => h.faults, fun h => ⟨h, fun i stage hi p hp => ?_⟩⟩
  rw [hquiet stage (List.mem_of_getElem? hi)] at hp
  cases hp

/-- **When the reply buffer is not misused.** In every run of the handlers at
the end of which no write, and no `strlen` for one, holds a pointer, no string
function and no write has touched a block that is not there, reached over its
end or overlapped a change of the text, exactly if every step of the run was
undisturbed. -/
theorem reply_memory_safe_iff (F : TempFile σ) (file : σ) (conns : List (List (List UInt8)))
    {schedule : List MemoryAction} {s : ReplyMemory σ}
    (hrun : run (memStep F) (.start file conns) schedule = some s)
    (hquiet : ∀ stage ∈ s.threads, stage.pointers = []) :
    s.heap.faults = [] ↔ Along (memStep F) Undisturbed (.start file conns) schedule := by
  rw [← clean_iff_of_quiet hquiet, clean_run hrun]

/-- The `realloc` of handler 1 moves the block while handler 0 holds the
pointer for its `write`. -/
def movedUnderWrite : List MemoryAction :=
  [.receive 0 (fun _ => 0) ⟨0, 0⟩, .lockReply 0, .reserve 0 false (fun _ => 0), .assign 0,
    .findEnd 0, .strcat 0, .send 0, .lockFile 0, .scan 0, .measure 0, .loadPointer 0,
    .receive 1 (fun _ => 0) ⟨0, 0⟩, .lockReply 1, .reserve 1 true (fun _ => 0), .assign 1, .write 0]

/-- Handler 0 is in `strlen` for its `write` while handler 1 stores its
message. The block stays where it is, and there is room. -/
def measuredInStrcat : List MemoryAction :=
  [.receive 0 (fun _ => 0) ⟨0, 0⟩, .lockReply 0, .reserve 0 false (fun _ => 0), .assign 0,
    .findEnd 0, .strcat 0, .send 0, .receive 1 (fun _ => 0) ⟨0, 0⟩, .lockReply 1,
    .reserve 1 false (fun _ => 0), .assign 1, .findEnd 1, .lockFile 0, .scan 0, .measure 0,
    .strcat 1, .loadPointer 0, .write 0]

theorem misusing_runs_disturbed :
    ¬ Along (memStep regularFile) Undisturbed (.start ([], 0) [[messageA], [messageB]])
        movedUnderWrite ∧
      ¬ Along (memStep regularFile) Undisturbed (.start ([], 0) [[messageA], [messageB]])
        measuredInStrcat := by
  have hend : [movedUnderWrite, measuredInStrcat].all (fun schedule =>
      (run (memStep regularFile) (.start ([], 0) [[messageA], [messageB]]) schedule).map
        (fun s => (s.heap.faults, s.threads.map Stage.pointers))
        = some ([.outOfBounds], [[], []])) = true := by decide +kernel
  have hdisturbed : ∀ schedule ∈ [movedUnderWrite, measuredInStrcat],
      ¬ Along (memStep regularFile) Undisturbed (.start ([], 0) [[messageA], [messageB]])
        schedule := by
    intro schedule hschedule
    obtain ⟨s, hrun, hs⟩ := Option.map_eq_some_iff.mp
      (of_decide_eq_true (List.all_eq_true.mp hend schedule hschedule))
    obtain ⟨hfaults, hpointers⟩ := Prod.mk.inj hs
    have hnone : ∀ ps ∈ s.threads.map Stage.pointers, ps = [] := by simp [hpointers]
    have hquiet : ∀ stage ∈ s.threads, stage.pointers = [] := List.forall_mem_map.mp hnone
    rw [← reply_memory_safe_iff regularFile _ _ hrun hquiet, hfaults]
    exact List.cons_ne_nil _ _
  exact ⟨hdisturbed _ List.mem_cons_self, hdisturbed _ (by simp)⟩

end Aesd.Server

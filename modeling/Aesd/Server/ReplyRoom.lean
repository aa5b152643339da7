/-
Aesd.Server.ReplyRoom — the size of the block behind `to_write`, from step to
step.

`ReplyBuffer` follows the allocated size from one append to the next. In
`ReplyMemory` an append is five steps among those of the other handlers. Since
they are taken under `reply_mutex` the size comes to the same (`RoomInv`), so
whether the messages fit is a matter of their lengths and of the order of the
appends, and of nothing else in the schedule. With that the condition of
`ReplyMemory` splits in two: where the block is moved and the text changed, and
how long the messages are (`reply_memory_safe_iff_slack`).
-/
import Aesd.Server.LocalString
import Aesd.Server.ReplyBuffer
import Aesd.Server.ReplySafety

namespace Aesd.Server

open StepSystem

/-! ## Sizes -/

/-- The append that is made by a step, where the message of client `i` is a C
string of so many bytes: they are received, and appended. -/
def MemoryAction.addition (lengths : Nat → Nat) : MemoryAction → Option Append
  | .strcat i => some (.connection (lengths i) (lengths i))
  | _ => none

/-- A message comes out of the receive loop as a C string of the length
given. -/
def MemoryAction.Receives (conns : List (List (List UInt8))) (lengths : Nat → Nat) :
    MemoryAction → Prop
  | .receive i fresh _ => ∀ reads st rest, conns[i]? = some reads →
    Server.receive fresh reads .init = .message st rest →
      ∃ received, received.length = lengths i ∧ st.Terminated received
  | _ => True

/-- The buffer it comes in has the size that goes with that. -/
theorem size_of_terminated {fresh : Nat → UInt8} {reads rest : List (List UInt8)}
    {st : ReceiveState} {received : List UInt8} (hle : ∀ r ∈ reads, r.length ≤ bufferSize)
    (hrec : receive fresh reads .init = .message st rest) (hterm : st.Terminated received) :
    st.size = localSize received.length := by
  obtain ⟨taken, -, hcoll, -⟩ :=
    receive_message fresh reads .init [] collected_init (unwritten_init fresh) hle hrec
  rw [hcoll.size, ← hcoll.count, hterm.count]

/-- So does a short message in one read. -/
theorem IsShortMessage.terminated {fresh : Nat → UInt8} {m : List UInt8} (hm : IsShortMessage m)
    {st : ReceiveState} {rest : List (List UInt8)}
    (hrec : receive fresh [m] .init = .message st rest) : st.Terminated m := by
  obtain ⟨st', hrec', -⟩ := receive_short fresh hm.toIsMessage hm.length_lt
  rw [hrec', Received.message.injEq] at hrec
  obtain ⟨rfl, rfl⟩ := hrec
  have hle : ∀ r ∈ [m], r.length ≤ bufferSize := by
    intro r hr
    obtain rfl := List.mem_singleton.mp hr
    exact Nat.le_of_lt hm.length_lt
  obtain ⟨taken, htaken, hcoll, hu⟩ :=
    receive_message fresh [m] .init [] collected_init (unwritten_init fresh) hle hrec'
  rw [List.append_nil] at htaken
  rw [← htaken, List.flatten_singleton, List.nil_append] at hcoll
  exact (hcoll.terminated_iff hu hm.noNul).mpr
    ((initialByte_eq_zero_iff fresh m.length).mpr (.inl hm.length_lt))

variable {σ : Type}

/-- Undisturbed, but for the room that `strcat` needs. -/
def Placed (s : ReplyMemory σ) : MemoryAction → Prop
  | .strcat _ => True
  | a => Undisturbed s a

/-- The message whose room is there, or on its way. -/
@[simp] def Stage.reserved : Stage → Option (List UInt8)
  | .reallocated text _ | .roomy text | .appending text _ => some text
  | _ => none

/-- The stage of a handler whose client sends `reads`, and in them a message of
`n` bytes. -/
@[simp] def Stage.Holds (reads : List (List UInt8)) (n : Nat) : Stage → Prop
  | .connected reads' => reads' = reads
  | .received text size | .locked text size => text.length = n ∧ size = localSize n
  | .reallocated text _ | .roomy text | .appending text _ => text.length = n
  | _ => True

/-- The block is as large as `b` says; where room was made for the next append
already, as large as `b` says after that. -/
structure RoomInv (conns : List (List (List UInt8))) (lengths : Nat → Nat) (s : ReplyMemory σ)
    (b : ReplyBuffer) : Prop where
  order : ∃ block text, InOrder s block text ∧ text.length = b.length
  room : ∃ p bs, s.heap.block p = some bs ∧
    (∀ (i : Nat) (stage : Stage), s.threads[i]? = some stage → ∀ t ∈ stage.reserved,
      bs.length = (b.makeRoom (.connection t.length t.length)).capacity) ∧
    ((∀ stage ∈ s.threads, stage.reserved = none) → bs.length = b.capacity)
  holds : ∀ (i : Nat) (stage : Stage), s.threads[i]? = some stage →
    ∃ reads, conns[i]? = some reads ∧ stage.Holds reads (lengths i)

theorem roomInv_start (file : σ) (conns : List (List (List UInt8))) (lengths : Nat → Nat) :
    RoomInv conns lengths (.start file conns) .init where
  order := ⟨0, [], inOrder_start file conns, rfl⟩
  room := by
    refine ⟨0, List.replicate bufferSize 0, by simp only [ReplyMemory.start, Function.update_self],
      fun i stage hi t ht => ?_, fun _ => List.length_replicate⟩
    simp only [ReplyMemory.start, List.getElem?_map, Option.map_eq_some_iff] at hi
    obtain ⟨reads, -, rfl⟩ := hi
    cases ht
  holds i stage hi := by
    simp only [ReplyMemory.start, List.getElem?_map, Option.map_eq_some_iff] at hi
    obtain ⟨reads, hreads, rfl⟩ := hi
    exact ⟨reads, hreads, rfl⟩

/-! ## Steps -/

variable {F : TempFile σ} {conns : List (List (List UInt8))} {lengths : Nat → Nat}
  {s s₁ s' : ReplyMemory σ} {b b' : ReplyBuffer} {block : Nat} {text text' : List UInt8} {i : Nat}
  {before after : Stage} {a : MemoryAction}

theorem TextAfter.eq (h : TextAfter s a text text') (ha : a.addition lengths = none) :
    text' = text := by
  cases a with
  | strcat i => cases ha
  | _ => exact h

theorem Stage.holdsReply_of_reserved {stage : Stage} {t : List UInt8} (h : t ∈ stage.reserved) :
    stage.holdsReply = true := by
  cases stage <;> simp_all

/-- Room is made by nobody but the holder of `reply_mutex`. -/
theorem InOrder.reserved_none (h : InOrder s block text) (hi : s.threads[i]? = some before)
    (hholds : before.holdsReply = true) :
    ∀ (j : Nat) (stage : Stage), j ≠ i → s.threads[j]? = some stage → stage.reserved = none := by
  intro j stage hji hj
  refine Option.eq_none_iff_forall_not_mem.mpr fun t ht => ?_
  have hheld := (h.threads j stage hj).reply (Stage.holdsReply_of_reserved ht)
  exact hji (Option.some.inj (hheld.symm.trans ((h.threads i before hi).reply hholds)))

theorem RoomInv.holds_setStage (h : RoomInv conns lengths s b) (hi : s.threads[i]? = some before)
    (hthreads : s₁.threads = s.threads)
    (hafter : ∀ reads, before.Holds reads (lengths i) → conns[i]? = some reads →
      after.Holds reads (lengths i)) :
    ∀ (j : Nat) (stage : Stage), (s₁.setStage i after).threads[j]? = some stage →
      ∃ reads, conns[j]? = some reads ∧ stage.Holds reads (lengths j) := by
  intro j stage hj
  rw [ReplyMemory.setStage, hthreads] at hj
  rcases getElem?_set_cases hi hj with ⟨rfl, rfl⟩ | ⟨-, hj⟩
  · obtain ⟨reads, hreads, hbefore⟩ := h.holds j before hi
    exact ⟨reads, hreads, hafter reads hbefore hreads⟩
  · exact h.holds j stage hj

/-- A step that leaves the block as it is, and the reservation. -/
theorem RoomInv.quiet (h : RoomInv conns lengths s b) (hi : s.threads[i]? = some before)
    (hthreads : s₁.threads = s.threads) (hblock : s₁.heap.block = s.heap.block)
    (hreserved : after.reserved = before.reserved)
    (hafter : ∀ reads, before.Holds reads (lengths i) → conns[i]? = some reads →
      after.Holds reads (lengths i))
    (horder : ∃ block text, InOrder (s₁.setStage i after) block text ∧ text.length = b.length) :
    RoomInv conns lengths (s₁.setStage i after) b where
  order := horder
  room := by
    obtain ⟨p, bs, hbs, hmade, hnot⟩ := h.room
    have hget := getElem?_set_eq_ite hi after
    refine ⟨p, bs, (congrFun hblock p).trans hbs, fun j stage hj t ht => ?_, fun hnone => ?_⟩
    · rw [ReplyMemory.setStage, hthreads] at hj
      rcases getElem?_set_cases hi hj with ⟨rfl, rfl⟩ | ⟨-, hj⟩
      · exact hmade j before hi t (hreserved ▸ ht)
      · exact hmade j stage hj t ht
    · refine hnot fun stage hstage => ?_
      obtain ⟨j, hj⟩ := List.getElem?_of_mem hstage
      have hj' := hget j
      rw [ReplyMemory.setStage, hthreads] at hnone
      by_cases hij : i = j
      · subst hij
        rw [hi, Option.some.injEq] at hj
        rw [if_pos rfl] at hj'
        rw [← hj, ← hreserved]
        exact hnone after (List.mem_of_getElem? hj')
      · rw [if_neg hij, hj] at hj'
        exact hnone stage (List.mem_of_getElem? hj')
  holds := h.holds_setStage hi hthreads hafter

/-- A step of the holder of `reply_mutex`, on the block. -/
theorem RoomInv.own (h : RoomInv conns lengths s b) (hinv : InOrder s block text)
    (hi : s.threads[i]? = some before) (hholds : before.holdsReply = true)
    (hthreads : s₁.threads = s.threads) {p : Nat} {bs : List UInt8}
    (hbs : s₁.heap.block p = some bs)
    (hmade : ∀ t ∈ after.reserved, bs.length = (b'.makeRoom (.connection t.length t.length)).capacity)
    (hnot : after.reserved = none → bs.length = b'.capacity)
    (hafter : ∀ reads, before.Holds reads (lengths i) → conns[i]? = some reads →
      after.Holds reads (lengths i))
    (horder : ∃ block text, InOrder (s₁.setStage i after) block text ∧ text.length = b'.length) :
    RoomInv conns lengths (s₁.setStage i after) b' where
  order := horder
  room := by
    refine ⟨p, bs, hbs, fun j stage hj t ht => ?_, fun hnone => hnot (hnone after ?_)⟩
    · rw [ReplyMemory.setStage, hthreads] at hj
      rcases getElem?_set_cases hi hj with ⟨rfl, rfl⟩ | ⟨hji, hj⟩
      · exact hmade t ht
      · rw [hinv.reserved_none hi hholds j stage hji hj] at ht
        cases ht
    · rw [ReplyMemory.setStage, hthreads]
      exact List.mem_of_getElem? ((getElem?_set_eq_ite hi after i).trans (if_pos rfl))
  holds := h.holds_setStage hi hthreads hafter

/-- **A step that appends nothing** leaves the size of the buffer. -/
theorem RoomInv.step (h : RoomInv conns lengths s b)
    (hle : ∀ reads ∈ conns, ∀ r ∈ reads, r.length ≤ bufferSize)
    (hstep : memStep F s a = some s') (hreceives : a.Receives conns lengths)
    (ha : a.addition lengths = none) : RoomInv conns lengths s' b := by
  obtain ⟨block, text, hinv, hlen⟩ := h.order
  have horder : ∃ block text, InOrder s' block text ∧ text.length = b.length := by
    obtain ⟨block', text', hinv', htext⟩ := hinv.step hstep
    exact ⟨block', text', hinv', (congrArg List.length (htext.eq ha)).trans hlen⟩
  obtain ⟨i, before, after, s₁, hi, hmoves, rfl⟩ := memStep_moves hstep
  cases hmoves with
  | receivedText hrec =>
    refine h.quiet hi rfl rfl rfl (fun reads hheld hreads => ?_) horder
    obtain rfl := hheld
    obtain ⟨received, hlength, hterm⟩ := hreceives _ _ _ hreads hrec
    rw [← hlength]
    exact ⟨congrArg List.length hterm.string,
      size_of_terminated (hle _ (List.mem_of_getElem? hreads)) hrec hterm⟩
  | receivedSeek hrec => exact h.quiet hi rfl rfl rfl (fun _ _ _ => trivial) horder
  | locked hnone => exact h.quiet hi rfl rfl rfl (fun _ hheld _ => hheld) horder
  | @reallocated i moves fresh t size old hold hlt =>
    obtain ⟨rfl, rfl⟩ := hinv.eq_of_text hold
    obtain ⟨rest, hsole⟩ := hinv.sole
    obtain ⟨reads, -, htlen, rfl⟩ := h.holds i _ hi
    refine h.own hinv hi rfl rfl (hsole.realloc moves fresh _).1.self (fun t' ht' => ?_)
      (fun hnone => by cases hnone) (fun _ hheld _ => hheld.1) horder
    obtain rfl := Option.some.inj ht'
    rw [BlockHeap.length_resize, ReplyBuffer.makeRoom, htlen, if_pos (hlen ▸ hlt), hlen]
  | @enough i moves fresh t size old hold hle =>
    obtain ⟨rfl, rfl⟩ := hinv.eq_of_text hold
    obtain ⟨p, bs, hbs, -, hnot⟩ := h.room
    obtain ⟨reads, -, htlen, rfl⟩ := h.holds i _ hi
    have hcapacity : bs.length = b.capacity := by
      refine hnot fun stage hstage => ?_
      obtain ⟨j, hj⟩ := List.getElem?_of_mem hstage
      by_cases hji : j = i
      · subst hji
        rw [hi, Option.some.injEq] at hj
        exact hj ▸ rfl
      · exact hinv.reserved_none hi rfl j stage hji hj
    refine h.own hinv hi rfl rfl hbs (fun t' ht' => ?_) (fun hnone => by cases hnone)
      (fun _ hheld _ => hheld.1) horder
    obtain rfl := Option.some.inj ht'
    rw [ReplyBuffer.makeRoom_quiet, hcapacity]
    exact Nat.not_lt.mpr (htlen ▸ hlen ▸ hle)
  | reserveLost hnone => exact absurd hnone (hinv.text_ne_none hi rfl rfl)
  | assigned => exact h.quiet hi rfl rfl rfl (fun _ hheld _ => hheld) horder
  | foundEnd hold hnobody => exact h.quiet hi rfl rfl rfl (fun _ hheld _ => hheld) horder
  | foundEndRacing hold hrace => exact h.quiet hi rfl rfl rfl (fun _ hheld _ => hheld) horder
  | findEndLost hnone => exact absurd hnone (hinv.text_ne_none hi rfl rfl)
  | appended => cases ha
  | sent hold => exact h.quiet hi rfl rfl rfl (fun _ _ _ => trivial) horder
  | sendLost hnone => exact absurd hnone (hinv.text_ne_none hi rfl rfl)
  | lockedFile hnone => exact h.quiet hi rfl rfl rfl (fun _ _ _ => trivial) horder
  | loaded => exact h.quiet hi rfl rfl rfl (fun _ _ _ => trivial) horder
  | scanned hnobody => exact h.quiet hi rfl rfl rfl (fun _ _ _ => trivial) horder
  | scannedRacing hrace => exact h.quiet hi rfl rfl rfl (fun _ _ _ => trivial) horder
  | measured hold => exact h.quiet hi rfl rfl rfl (fun _ _ _ => trivial) horder
  | measureLost hnone => exact h.quiet hi rfl rfl rfl (fun _ _ _ => trivial) horder
  | wrote hload => exact h.quiet hi rfl rfl rfl (fun _ _ _ => trivial) horder
  | writeLost hload => exact h.quiet hi rfl rfl rfl (fun _ _ _ => trivial) horder
  | sought hfree hok => exact h.quiet hi rfl rfl rfl (fun _ _ _ => trivial) horder
  | seekFailed hfree hok => exact h.quiet hi rfl rfl rfl (fun _ _ _ => trivial) horder
  | read hdata => exact h.quiet hi rfl rfl rfl (fun _ _ _ => trivial) horder
  | readEnd hdata => exact h.quiet hi rfl rfl rfl (fun _ _ _ => trivial) horder

/-- In `strcat`, the block has the size that `ReplyBuffer` has made room
for. -/
theorem RoomInv.appending (h : RoomInv conns lengths s b) {t : List UInt8} {offset : Nat}
    (hi : s.threads[i]? = some (.appending t offset)) :
    ∃ text rest, InOrder s s.toWrite text ∧ s.heap.Sole s.toWrite (text ++ 0 :: rest) ∧
      text.length = b.length ∧ t.length = lengths i ∧
      (text ++ 0 :: rest).length
        = (b.makeRoom (.connection (lengths i) (lengths i))).capacity := by
  obtain ⟨block, text, hinv, hlen⟩ := h.order
  have hblock := hinv.assigned_of_holds hi rfl rfl
  subst hblock
  obtain ⟨rest, hsole⟩ := hinv.sole
  obtain ⟨p, bs, hbs, hmade, -⟩ := h.room
  obtain ⟨reads, -, htlen⟩ := h.holds i _ hi
  obtain rfl : p = s.toWrite := hinv.isSome_iff.mp (hbs ▸ rfl)
  obtain rfl := Option.some.inj (hbs.symm.trans hsole.self)
  have htlen : t.length = lengths i := htlen
  exact ⟨text, rest, hinv, hsole, hlen, htlen, htlen ▸ hmade i _ hi t rfl⟩

/-- The message fits behind the text if it fits into the buffer. -/
theorem RoomInv.fits_iff (h : RoomInv conns lengths s b) {t : List UInt8} {offset : Nat}
    (hi : s.threads[i]? = some (.appending t offset)) :
    s.Fits i ↔ b.Fits (.connection (lengths i) (lengths i)) := by
  obtain ⟨text, rest, hinv, hsole, hlen, htlen, hcapacity⟩ := h.appending hi
  rw [hinv.fits_iff hi hsole, hcapacity, ReplyBuffer.Fits, List.length_append,
    List.length_singleton, htlen, hlen]
  exact Iff.rfl

/-- **A `strcat` that fits** is the append of `ReplyBuffer`. -/
theorem RoomInv.strcat (h : RoomInv conns lengths s b) (hfits : s.Fits i)
    (hstep : memStep F s (.strcat i) = some s') :
    RoomInv conns lengths s' (b.strcat (.connection (lengths i) (lengths i))) := by
  obtain ⟨i, before, after, s₁, hi, hmoves, rfl⟩ := memStep_moves hstep
  cases hmoves with
  | @appended i t offset =>
    obtain ⟨text, rest, hinv, hsole, hlen, htlen, hcapacity⟩ := h.appending hi
    have hroom := (hinv.fits_iff hi hsole).mp hfits
    obtain ⟨text', hinv', htext⟩ := hinv.appended hi
    obtain rfl := (hinv.threads i _ hi).offset _ rfl
    have htext' : text' = text ++ t := by
      rcases htext with ⟨-, heq⟩ | ⟨hnot, -⟩
      · exact heq
      · exact absurd hfits hnot
    refine h.own hinv hi rfl rfl (hsole.store hroom).self (fun t' ht' => by cases ht')
      (fun _ => ?_) (fun _ _ _ => trivial) ⟨_, text', hinv', ?_⟩
    · rw [BlockHeap.length_splice hroom, hcapacity]
      rfl
    · rw [htext', List.length_append, htlen, hlen]
      rfl

/-- Only one who is in it returns from `strcat`. -/
theorem appending_of_strcat (hstep : memStep F s (.strcat i) = some s') :
    ∃ t offset, s.threads[i]? = some (.appending t offset) := by
  obtain ⟨i, before, after, s₁, hi, hmoves, rfl⟩ := memStep_moves hstep
  cases hmoves with
  | appended => exact ⟨_, _, hi⟩

theorem undisturbed_iff_of_addition_none (ha : a.addition lengths = none) :
    Undisturbed s a ↔ Placed s a := by
  cases a with
  | strcat i => cases ha
  | _ => exact Iff.rfl

/-! ## Runs -/

/-- **The steps are undisturbed where they are placed and the appends fit.** -/
theorem RoomInv.undisturbed_iff {schedule : List MemoryAction} (h : RoomInv conns lengths s b)
    (hle : ∀ reads ∈ conns, ∀ r ∈ reads, r.length ≤ bufferSize)
    (hreceives : ∀ a ∈ schedule, a.Receives conns lengths)
    (hrun : run (memStep F) s schedule = some s') :
    Along (memStep F) Undisturbed s schedule ↔
      Along (memStep F) Placed s schedule ∧
        NeverOverflows b (schedule.filterMap (MemoryAction.addition lengths)) := by
  induction schedule generalizing s b with
  | nil => exact ⟨fun _ => ⟨trivial, trivial⟩, fun _ => trivial⟩
  | cons a schedule ih =>
    obtain ⟨s₁, hs₁, hrest⟩ := run_cons hrun
    have hrestReceives := fun a' ha' => hreceives a' (List.mem_cons_of_mem a ha')
    have hsplit : ∀ {cond : ReplyMemory σ → MemoryAction → Prop},
        Along (memStep F) cond s (a :: schedule) ↔
          cond s a ∧ Along (memStep F) cond s₁ schedule :=
      ⟨fun h => ⟨h.1, h.2 s₁ hs₁⟩, fun h => h.2.cons h.1 hs₁⟩
    rw [hsplit, hsplit]
    cases ha : a.addition lengths with
    | none =>
      rw [List.filterMap_cons_none ha, undisturbed_iff_of_addition_none ha,
        ih (h.step hle hs₁ (hreceives a List.mem_cons_self) ha) hrestReceives hrest, and_assoc]
    | some x =>
      rw [List.filterMap_cons_some ha, NeverOverflows]
      cases a with
      | strcat i =>
        obtain rfl := Option.some.inj ha
        obtain ⟨t, offset, hi⟩ := appending_of_strcat hs₁
        rw [← h.fits_iff hi]
        by_cases hfits : s.Fits i
        · rw [ih (h.strcat hfits hs₁) hrestReceives hrest]
          simp only [Undisturbed, Placed, hfits, true_and]
        · simp only [Undisturbed, hfits, false_and, and_false]
      | _ => cases ha

/-- **When the reply buffer is not misused**, by the schedule and by the sizes.
Where each message comes out of its receive loop as a C string, no block is
misused exactly if the steps are placed right (`Placed`: no block moved under a
pointer or looked at before it is assigned, no `strlen` for a write in the
stores of a `strcat`) and the messages appended from one `realloc` up to the
next stay within the slack of the first. How the steps are interleaved says
nothing about the second condition. -/
theorem reply_memory_safe_iff_slack (F : TempFile σ) (file : σ) {conns : List (List (List UInt8))}
    {lengths : Nat → Nat} (hle : ∀ reads ∈ conns, ∀ r ∈ reads, r.length ≤ bufferSize)
    {schedule : List MemoryAction} {s : ReplyMemory σ}
    (hreceives : ∀ a ∈ schedule, a.Receives conns lengths)
    (hrun : run (memStep F) (.start file conns) schedule = some s)
    (hquiet : ∀ stage ∈ s.threads, stage.pointers = []) :
    s.heap.faults = [] ↔ Along (memStep F) Placed (.start file conns) schedule ∧
      EnoughSlack bufferSize 0 (schedule.filterMap (MemoryAction.addition lengths)) := by
  have hstart : RoomInv conns lengths (.start file conns) .init := roomInv_start file conns lengths
  rw [← clean_iff_of_quiet hquiet, clean_run hrun, hstart.undisturbed_iff hle hreceives hrun,
    neverOverflows_from]
  exact Iff.rfl

/-- One handler, from its message to its `write`. -/
def oneReply : List MemoryAction :=
  [.receive 0 (fun _ => 0) ⟨0, 0⟩, .lockReply 0, .reserve 0 true (fun _ => 0), .assign 0,
    .findEnd 0, .strcat 0, .send 0, .lockFile 0, .loadPointer 0, .scan 0, .measure 0, .write 0]

theorem oneReply_slack :
    Along (memStep regularFile) Placed (.start ([], 0) [[messageA]]) oneReply ∧
      EnoughSlack bufferSize 0 [.connection messageA.length messageA.length] := by
  have hend : (run (memStep regularFile) (.start ([], 0) [[messageA]]) oneReply).map
      (fun s => (s.heap.faults, s.threads.map Stage.pointers)) = some ([], [[]]) := by
    decide +kernel
  obtain ⟨s, hrun, hs⟩ := Option.map_eq_some_iff.mp hend
  obtain ⟨hfaults, hpointers⟩ := Prod.mk.inj hs
  have hnone : ∀ ps ∈ s.threads.map Stage.pointers, ps = [] := by simp [hpointers]
  have hquiet : ∀ stage ∈ s.threads, stage.pointers = [] := List.forall_mem_map.mp hnone
  have hreceives : ∀ a ∈ oneReply, a.Receives [[messageA]] fun _ => messageA.length := by
    rw [oneReply, List.forall_mem_cons]
    refine ⟨fun reads st rest hreads hrec => ⟨messageA, rfl, ?_⟩, by simp [MemoryAction.Receives]⟩
    obtain rfl := Option.some.inj hreads
    exact isShortMessage_a.terminated hrec
  exact (reply_memory_safe_iff_slack regularFile ([], 0) (by decide) hreceives hrun hquiet).mp hfaults

end Aesd.Server

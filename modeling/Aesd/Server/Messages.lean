/-
Aesd.Server.Messages — what message handlers leave in `to_write` and in the
file, over every interleaving of whole appends and writes.

A handler appends its message to `to_write` and then writes all of
`to_write` to the file, where the timer thread writes only what it appended.
So the file holds what `to_write` holds as long as one message is all there
is: `messages_written_iff`. `MessageInv` is the invariant of the runs. Its
`latest` and `written_ge` count the bytes: each finished handler has written
at least what it replied, and the last one to append replied all there is.
-/
import Mathlib.Algebra.Order.BigOperators.Group.List
import Mathlib.Data.List.Perm.Basic
import Aesd.Server.Handlers

namespace Aesd.Server

variable {σ : Type} {F : TempFile σ}

/-! ## The invariant -/

/-- A message that one `read()` delivers. -/
structure IsShortMessage (m : List UInt8) : Prop extends IsMessage m where
  length_lt : m.length < bufferSize

/-- The message a handler has still to append. -/
def Handler.pending : Handler → Option (List UInt8)
  | .connected [m] => some m
  | .received m => some m
  | _ => none

/-- What a handler that has appended its message replied. -/
def Handler.replied : Handler → Option (List UInt8)
  | .appended sent => some sent
  | .finished sent => some sent
  | _ => none

def Handler.isFinished : Handler → Bool
  | .finished _ => true
  | _ => false

/-- The length of the reply of a handler that is done. -/
def Handler.finishedLength : Handler → Nat
  | .finished sent => sent.length
  | _ => 0

/-- A handler that is given a short message. -/
inductive Handler.OfMessage : Handler → Prop where
  | connected {m} : IsShortMessage m → OfMessage (.connected [m])
  | received {m} : IsShortMessage m → OfMessage (.received m)
  | appended {sent} : sent ≠ [] → OfMessage (.appended sent)
  | finished {sent} : sent ≠ [] → OfMessage (.finished sent)

structure MessageInv (ms : List (List UInt8)) (s : ServerState σ) : Prop where
  kinds : ∀ h ∈ s.handlers, h.OfMessage
  /-- `to_write` is the messages appended so far, in some order. -/
  stored : ∃ order, s.toWrite = order.flatten ∧
    (order ++ s.handlers.filterMap Handler.pending).Perm ms
  latest : s.toWrite = [] ∨ ∃ h ∈ s.handlers, h.replied = some s.toWrite
  replied_le : ∀ h ∈ s.handlers, ∀ sent, h.replied = some sent →
    sent.length ≤ s.toWrite.length
  written_ge : (s.handlers.map Handler.finishedLength).sum ≤ s.written.length
  /-- A single handler writes once, and then all of `to_write`. -/
  alone : s.handlers.length ≤ 1 →
    s.written = s.handlers.flatMap fun h => if h.isFinished then s.toWrite else []
  count : s.handlers.length = ms.length

theorem messageInv_start (file : σ) {ms : List (List UInt8)}
    (hms : ∀ m ∈ ms, IsShortMessage m) :
    MessageInv ms (.start file (ms.map fun m => [m])) := by
  have hconn : ∀ h ∈ (ServerState.start file (ms.map fun m => [m])).handlers,
      ∃ m ∈ ms, h = .connected [m] := by
    intro h hh
    simp only [ServerState.start, List.map_map, List.mem_map, Function.comp_apply] at hh
    obtain ⟨m, hm, rfl⟩ := hh
    exact ⟨m, hm, rfl⟩
  constructor
  · intro h hh
    obtain ⟨m, hm, rfl⟩ := hconn h hh
    exact .connected (hms m hm)
  · refine ⟨[], rfl, ?_⟩
    simp [ServerState.start, List.filterMap_map, Function.comp_def, Handler.pending]
  · exact Or.inl rfl
  · intro h hh sent hrep
    obtain ⟨m, hm, rfl⟩ := hconn h hh
    cases hrep
  · simp [ServerState.start, Function.comp_def, Handler.finishedLength]
  · intro _
    refine (List.flatMap_eq_nil_iff.mpr fun h hh => ?_).symm
    obtain ⟨m, hm, rfl⟩ := hconn h hh
    rfl
  · simp [ServerState.start]

/-! ## Steps -/

/-- What is pending before a handler appends `more`. -/
theorem perm_pending {pre post : List Handler} {before after : Handler}
    {more : List (List UInt8)} (hmore : before.pending.toList = more ++ after.pending.toList) :
    (more ++ (pre ++ after :: post).filterMap Handler.pending).Perm
      ((pre ++ before :: post).filterMap Handler.pending) := by
  have hcons : ∀ x : Handler, (x :: post).filterMap Handler.pending
      = x.pending.toList ++ post.filterMap Handler.pending := by
    intro x
    cases hx : x.pending <;> simp [hx]
  rw [List.filterMap_append, List.filterMap_append, hcons, hcons, hmore, List.append_assoc]
  exact List.perm_append_comm_assoc ..

/-- The handler of the newest reply is still there after another has moved on,
or is the one that has and kept its reply. -/
theorem exists_replied_move {pre post : List Handler} {before after : Handler}
    (hsame : after.replied = before.replied) {sent : List UInt8}
    (hold : ∃ h ∈ pre ++ before :: post, h.replied = some sent) :
    ∃ h ∈ pre ++ after :: post, h.replied = some sent := by
  obtain ⟨h, hh, hlast⟩ := hold
  rcases List.mem_append.mp hh with hh | hh
  · exact ⟨h, List.mem_append_left _ hh, hlast⟩
  · rcases List.mem_cons.mp hh with rfl | hh
    · exact ⟨after, by simp, hsame.trans hlast⟩
    · exact ⟨h, by simp [hh], hlast⟩

/-- One handler moves on: `more` is what it appends to `to_write`, and if it
is done then it has written all of that. -/
theorem MessageInv.move {ms : List (List UInt8)} {s s' : ServerState σ}
    (h : MessageInv ms s) (more : List (List UInt8))
    {pre post : List Handler} {before after : Handler}
    (hsplit : s.handlers = pre ++ before :: post)
    (hnew : s'.handlers = pre ++ after :: post) (hkind : after.OfMessage)
    (hmore : before.pending.toList = more ++ after.pending.toList)
    (htext : s'.toWrite = s.toWrite ++ more.flatten)
    (hrep : after.replied = some s'.toWrite ∨ more = [] ∧ after.replied = before.replied)
    (hbefore : before.isFinished = false)
    (hwritten : s'.written = s.written ++ if after.isFinished then s'.toWrite else []) :
    MessageInv ms s' := by
  have hmem : ∀ h' ∈ s'.handlers, h' = after ∨ h' ∈ s.handlers := by
    intro h' hh
    rw [hnew] at hh
    rw [hsplit]
    simp only [List.mem_append, List.mem_cons] at hh ⊢
    tauto
  have hgrow : s.toWrite.length ≤ s'.toWrite.length := by
    rw [htext, List.length_append]
    exact Nat.le_add_right _ _
  have hafter : ∀ sent, after.replied = some sent → sent.length ≤ s'.toWrite.length := by
    intro sent hsent
    rcases hrep with hall | ⟨-, hsame⟩
    · rw [hall, Option.some.injEq] at hsent
      rw [hsent]
    · rw [hsame] at hsent
      have := h.replied_le before (by rw [hsplit]; simp) sent hsent
      omega
  constructor
  · intro h' hh
    rcases hmem h' hh with rfl | hh
    · exact hkind
    · exact h.kinds h' hh
  · obtain ⟨order, hflat, hperm⟩ := h.stored
    refine ⟨order ++ more, by rw [htext, hflat, List.flatten_append], ?_⟩
    refine List.Perm.trans ?_ hperm
    rw [hsplit, hnew, List.append_assoc]
    exact (perm_pending hmore).append_left order
  · rcases hrep with hall | ⟨hnil, hsame⟩
    · exact Or.inr ⟨after, by rw [hnew]; simp, hall⟩
    · have hto : s'.toWrite = s.toWrite := by rw [htext, hnil, List.flatten_nil, List.append_nil]
      rw [hto]
      rcases h.latest with hempty | ⟨h', hh, hlast⟩
      · exact Or.inl hempty
      · exact Or.inr (hnew ▸ exists_replied_move hsame ⟨h', hsplit ▸ hh, hlast⟩)
  · intro h' hh sent hsent
    rcases hmem h' hh with rfl | hh
    · exact hafter sent hsent
    · exact Nat.le_trans (h.replied_le h' hh sent hsent) hgrow
  · have hge := h.written_ge
    have hone : after.finishedLength
        ≤ (if after.isFinished then s'.toWrite else ([] : List UInt8)).length := by
      cases after with
      | finished sent => exact hafter sent rfl
      | _ => exact Nat.zero_le _
    rw [hsplit] at hge
    rw [hnew, hwritten]
    simp only [List.map_append, List.map_cons, List.sum_append, List.sum_cons,
               List.length_append] at hge ⊢
    omega
  · intro hlen
    rw [hnew, List.length_append, List.length_cons] at hlen
    have hpre : pre = [] := List.eq_nil_of_length_eq_zero (by omega)
    have hpost : post = [] := List.eq_nil_of_length_eq_zero (by omega)
    subst hpre hpost
    have hold := h.alone (by rw [hsplit]; exact Nat.le_refl 1)
    rw [hsplit] at hold
    simp only [List.nil_append, List.flatMap_cons, List.flatMap_nil, List.append_nil, hbefore,
               Bool.false_eq_true, if_false] at hold
    rw [hwritten, hold, hnew]
    simp
  · rw [← h.count, hnew, hsplit]
    simp

/-- Every step of message handlers keeps the invariant. -/
theorem messageInv_step {ms : List (List UInt8)} (s : ServerState σ) (a : Action)
    (s' : ServerState σ) (h : MessageInv ms s) (hstep : step F s a = some s') :
    MessageInv ms s' := by
  obtain ⟨i, before, after, s₁, hi, hmoves, rfl⟩ := step_moves hstep
  obtain ⟨pre, post, hsplit, -, hset⟩ := StepSystem.exists_split_of_getElem? hi
  have hkind := h.kinds before (List.mem_of_getElem? hi)
  cases hmoves with
  | receivedText hrec =>
    cases hkind with
    | connected hm =>
      obtain ⟨st', hrec', htext⟩ := receive_short _ hm.toIsMessage hm.length_lt
      rw [hrec'] at hrec
      cases hrec
      rw [htext]
      exact h.move [] hsplit (hset _) (.received hm) rfl (List.append_nil _).symm
        (Or.inr ⟨rfl, rfl⟩) rfl (List.append_nil _).symm
  | receivedSeek hrec =>
    cases hkind with
    | connected hm =>
      obtain ⟨st', hrec', -⟩ := receive_short _ hm.toIsMessage hm.length_lt
      rw [hrec'] at hrec
      cases hrec
  | @append i text =>
    cases hkind with
    | received hm =>
      have hne : s.toWrite ++ text ≠ [] := List.append_ne_nil_of_right_ne_nil _ hm.ne_nil
      exact h.move [text] hsplit (hset _) (.appended hne) rfl (by simp [ServerState.setHandler])
        (Or.inl rfl) rfl (List.append_nil _).symm
  | write _ =>
    cases hkind with
    | appended hne =>
      exact h.move [] hsplit (hset _) (.finished hne) rfl (List.append_nil _).symm
        (Or.inr ⟨rfl, rfl⟩) rfl rfl
  | sought | seekFailed | read | readEnd => cases hkind

/-! ## Completed runs -/

/-- Every handler is done. -/
def ServerState.Completed (s : ServerState σ) : Prop := ∀ h ∈ s.handlers, h.isFinished = true

/-- The file was given each message once, and holds what `to_write` holds. -/
def ServerState.Consistent (ms : List (List UInt8)) (s : ServerState σ) : Prop :=
  s.written = s.toWrite ∧ ∃ order : List (List UInt8), order.Perm ms ∧ s.written = order.flatten

/-- Finished handlers have written what they replied. With two of them, that
is more than the last of them replied. -/
theorem MessageInv.written_gt {ms : List (List UInt8)} {s : ServerState σ}
    (h : MessageInv ms s) (hdone : s.Completed) (htwo : 2 ≤ ms.length) :
    s.toWrite.length < s.written.length := by
  have hone : ∀ l : List Handler, (∀ h' ∈ l, h' ∈ s.handlers) →
      l.length ≤ (l.map Handler.finishedLength).sum := by
    intro l hl
    induction l with
    | nil => exact Nat.le_refl 0
    | cons h' l ih =>
      have hin := hl h' (List.mem_cons_self ..)
      have hpos : 1 ≤ h'.finishedLength := by
        have hfin := hdone h' hin
        cases h.kinds h' hin with
        | finished hne => exact List.length_pos_of_ne_nil hne
        | _ => cases hfin
      have := ih fun x hx => hl x (List.mem_cons_of_mem _ hx)
      rw [List.map_cons, List.sum_cons, List.length_cons]
      omega
  have hge := h.written_ge
  have hcount := h.count
  rcases h.latest with hempty | ⟨last, hlast, hrep⟩
  · have := hone s.handlers fun _ hh => hh
    rw [hempty, List.length_nil]
    omega
  · obtain ⟨pre, post, hsplit⟩ := List.append_of_mem hlast
    have hlen : last.finishedLength = s.toWrite.length := by
      have hfin := hdone last hlast
      cases last with
      | finished sent =>
        cases hrep
        rfl
      | _ => cases hfin
    have hpre := hone pre fun x hx => by rw [hsplit]; exact List.mem_append_left _ hx
    have hpost := hone post fun x hx => by
      rw [hsplit]
      exact List.mem_append_right _ (List.mem_cons_of_mem _ hx)
    rw [hsplit] at hge hcount
    simp only [List.map_append, List.map_cons, List.sum_append, List.sum_cons,
               List.length_append, List.length_cons] at hge hcount
    omega

/-- **One message at most.** Once every handler is done, the file has got
what it should exactly when there was no second connection. -/
theorem messages_written_iff (F : TempFile σ) (file : σ) {ms : List (List UInt8)}
    (hms : ∀ m ∈ ms, IsShortMessage m) {schedule : List Action} {s : ServerState σ}
    (hrun : StepSystem.run (step F) (.start file (ms.map fun m => [m])) schedule = some s)
    (hdone : s.Completed) :
    s.Consistent ms ↔ ms.length ≤ 1 := by
  have h : MessageInv ms s :=
    StepSystem.run_invariant messageInv_step (messageInv_start file hms) hrun
  constructor
  · intro hcon
    by_contra htwo
    have hgt := h.written_gt hdone (by omega)
    rw [hcon.1] at hgt
    exact Nat.lt_irrefl _ hgt
  · intro hone
    obtain ⟨order, hflat, hperm⟩ := h.stored
    have hpending : s.handlers.filterMap Handler.pending = [] := by
      rw [List.filterMap_eq_nil_iff]
      intro h' hh
      have hfin := hdone h' hh
      cases h' with
      | finished sent => rfl
      | _ => cases hfin
    have hwritten : s.written = s.toWrite := by
      have halone := h.alone (by rw [h.count]; exact hone)
      have hcount := h.count
      cases hl : s.handlers with
      | nil =>
        rw [hl, List.filterMap_nil, List.append_nil] at hperm
        rw [hl, List.length_nil] at hcount
        have hnil : ms = [] := List.eq_nil_of_length_eq_zero hcount.symm
        rw [hnil] at hperm
        rw [halone, hl, hflat, hperm.eq_nil]
        rfl
      | cons h' rest =>
        have hrest : rest = [] := by
          rw [hl, List.length_cons] at hcount
          exact List.eq_nil_of_length_eq_zero (by omega)
        have hfin := hdone h' (by rw [hl]; exact List.mem_cons_self ..)
        rw [halone, hl, hrest]
        simp [hfin]
    rw [hpending, List.append_nil] at hperm
    exact ⟨hwritten, order, hperm, hwritten.trans hflat⟩

/-! ## One client after the other -/

/-- One handler runs from the first step to the last. -/
def alone (i : Nat) : List Action :=
  [.receive i (fun _ => 0) ⟨0, 0⟩, .append i, .write i]

theorem run_alone {s : ServerState σ} {i : Nat} {m : List UInt8}
    (hi : s.handlers[i]? = some (.connected [m])) (hm : IsShortMessage m)
    (hfree : s.fileMutex = none) :
    StepSystem.run (step F) s (alone i)
      = some { s with
          toWrite := s.toWrite ++ m
          file := F.write (s.toWrite ++ m) s.file
          written := s.written ++ (s.toWrite ++ m)
          handlers := s.handlers.set i (.finished (s.toWrite ++ m)) } := by
  obtain ⟨st, hrec, htext⟩ := receive_short (fun _ => 0) hm.toIsMessage hm.length_lt
  obtain ⟨hlt, -⟩ := List.getElem?_eq_some_iff.mp hi
  have hset : ∀ h : Handler, (s.handlers.set i h)[i]? = some h := fun h =>
    List.getElem?_set_self hlt
  simp only [alone, StepSystem.run, step, stepReceive, hi, hrec, htext, Option.bind_some,
             stepAppend, ServerState.setHandler, hset, stepWrite, hfree, List.set_set]

/-- `"a\n"` -/
def messageA : List UInt8 := [97, endChar]

/-- `"b\n"` -/
def messageB : List UInt8 := [98, endChar]

theorem isShortMessage_a : IsShortMessage messageA :=
  ⟨⟨⟨[97], rfl⟩, by decide, by decide⟩, by decide⟩

theorem isShortMessage_b : IsShortMessage messageB :=
  ⟨⟨⟨[98], rfl⟩, by decide, by decide⟩, by decide⟩

/-- Of two clients, the second one writes the first message again. -/
theorem run_two_clients (F : TempFile σ) (file : σ) :
    StepSystem.run (step F) (.start file [[messageA], [messageB]]) (alone 0 ++ alone 1)
      = some {
          toWrite := messageA ++ messageB
          file := F.write (messageA ++ messageB) (F.write messageA file)
          fileMutex := none
          written := messageA ++ (messageA ++ messageB)
          handlers := [.finished messageA, .finished (messageA ++ messageB)] } := by
  rw [StepSystem.run_append, run_alone rfl isShortMessage_a rfl, Option.bind_some,
      run_alone rfl isShortMessage_b rfl]
  rfl

theorem messages_written_again :
    ¬ ∀ (σ : Type) (F : TempFile σ) (file : σ) (ms : List (List UInt8)),
      (∀ m ∈ ms, IsShortMessage m) → ∀ (schedule : List Action) (s : ServerState σ),
      StepSystem.run (step F) (.start file (ms.map fun m => [m])) schedule = some s →
      s.Completed → s.Consistent ms := by
  intro hall
  have hms : ∀ m ∈ [messageA, messageB], IsShortMessage m := by
    intro m hm
    simp only [List.mem_cons, List.not_mem_nil, or_false] at hm
    rcases hm with rfl | rfl
    · exact isShortMessage_a
    · exact isShortMessage_b
  have hcon := hall _ regularFile ([], 0) _ hms _ _ (run_two_clients regularFile ([], 0)) (by
    intro h hh
    simp only [List.mem_cons, List.not_mem_nil, or_false] at hh
    rcases hh with rfl | rfl <;> rfl)
  exact absurd hcon.1 (by decide)

/-- A single client. -/
theorem messages_written_one_client :
    ∃ s : ServerState (List UInt8 × Nat),
      StepSystem.run (step regularFile) (.start ([], 0) [[messageA]]) (alone 0) = some s ∧
      s.Completed ∧ (s.Consistent [messageA] ↔ [messageA].length ≤ 1) := by
  have hms : ∀ m ∈ [messageA], IsShortMessage m := by
    intro m hm
    rw [List.mem_singleton.mp hm]
    exact isShortMessage_a
  have hrun : StepSystem.run (step regularFile) (.start ([], 0) ([messageA].map fun m => [m]))
      (alone 0) = _ := run_alone rfl isShortMessage_a rfl
  have hdone : ∀ s : ServerState (List UInt8 × Nat), s.handlers = [.finished messageA] →
      s.Completed := by
    intro s hs h hh
    rw [hs, List.mem_singleton] at hh
    rw [hh]
    rfl
  exact ⟨_, hrun, hdone _ rfl,
    messages_written_iff regularFile ([], 0) hms hrun (hdone _ rfl)⟩

end Aesd.Server

/-
Aesd.Server.Connections — the accept loop of `socket_listen` and its handlers.

All connections share the table of descriptors of the process, and the
kernel gives the number of a closed descriptor away again at once. The loop
accepts, and starts a thread for each connection; the handlers do their
effects one at a time, in any order. `descriptors_not_mixed_up` says that no
handler ever touches a descriptor that is not its own, and which descriptors
are open: those of the handlers that have not closed theirs yet, and of the
connections for which `pthread_create` failed. Those are never closed.

The steps are possible in more orders than the mutexes allow.
-/
import Aesd.Server.ConnectionHandler

namespace Aesd.Server

open StepSystem

/-! ## The process -/

/-- A connection: its descriptor, whether a thread was created for it, and
what its handler has done and is going to do. -/
structure Connection where
  fd : Nat
  created : Bool
  past : List Effect
  future : List Effect

structure Process where
  /-- The connection that a descriptor is open for. -/
  table : Nat → Option Nat
  connections : List Connection
  /-- Descriptors that were used when they were not the user's own. -/
  misused : List Nat

def Process.init : Process := ⟨fun _ => none, [], []⟩

def Effect.usesSocket : Effect → Bool
  | .readSocket | .sendReply | .sendToWrite | .close => true
  | _ => false

inductive ProcessAction where
  /-- `accept` returns `fd`, a handler with these answers is to come, and
  `pthread_create` may fail. -/
  | accept (fd : Nat) (inp : HandlerInput) (created : Bool)
  | handler (i : Nat)

/-- The effect of connection number `i` on the table. -/
def Process.perform (s : Process) (i fd : Nat) (e : Effect) : Process :=
  { s with
    table := if e = .close then Function.update s.table fd none else s.table
    misused := if e.usesSocket ∧ s.table fd ≠ some i then fd :: s.misused else s.misused }

def Process.step (s : Process) : ProcessAction → Option Process
  | .accept fd inp created =>
    if s.table fd = none then
      some { s with
        table := Function.update s.table fd (some s.connections.length)
        connections := s.connections ++
          [⟨fd, created, [], if created then handlerEffects inp else []⟩] }
    else none
  | .handler i =>
    match s.connections[i]? with
    | none => none
    | some c =>
      match c.future with
      | [] => none
      | e :: future =>
        let s := s.perform i c.fd e
        some { s with
          connections := s.connections.set i { c with past := c.past ++ [e], future } }

/-! ## The invariant -/

/-- A connection in the middle of a run of its handler. -/
structure Connection.Sound (c : Connection) : Prop where
  effects : c.created = true → ∃ inp, c.past ++ c.future = handlerEffects inp
  idle : c.created = false → c.past = [] ∧ c.future = []

/-- Its descriptor is not closed. -/
def Connection.Open (c : Connection) : Prop := .close ∉ c.past

structure TableInv (s : Process) : Prop where
  sound : ∀ c ∈ s.connections, c.Sound
  table_iff : ∀ fd i, s.table fd = some i ↔
    ∃ c, s.connections[i]? = some c ∧ c.fd = fd ∧ c.Open
  misused : s.misused = []

/-- The discipline counts the descriptor as open until it is closed, and lets
nobody use it later. -/
theorem Holding.step_socket {h h' : Holding} {e : Effect} (hstep : h.step e = some h') :
    (h'.socket = true ↔ h.socket = true ∧ e ≠ .close) ∧
      (e.usesSocket = true → h.socket = true) := by
  unfold Holding.step at hstep
  split at hstep
  · cases hstep
  · cases e <;> grind [Effect.usesSocket]

theorem socket_iff {effects : List Effect} {h : Holding}
    (hrun : run Holding.step .start effects = some h) : h.socket = true ↔ .close ∉ effects := by
  induction effects using List.reverseRecOn generalizing h with
  | nil =>
    cases hrun
    simp [Holding.start]
  | append_singleton effects e ih =>
    rw [run_append] at hrun
    obtain ⟨h₀, hh₀, hlast⟩ := Option.bind_eq_some_iff.mp hrun
    obtain ⟨h₁, hstep, hnil⟩ := run_cons hlast
    cases hnil
    rw [(Holding.step_socket hstep).1, ih hh₀, List.mem_append, List.mem_singleton, not_or]
    exact and_congr_right fun _ => ⟨Ne.symm, Ne.symm⟩

/-- A handler that is about to use its descriptor has it open. -/
theorem Connection.Sound.open_of_use {c : Connection} (h : c.Sound) {e : Effect}
    {future : List Effect} (hfuture : c.future = e :: future) (he : e.usesSocket = true) :
    c.Open := by
  cases hcreated : c.created with
  | false => simp [(h.idle hcreated).2] at hfuture
  | true =>
    obtain ⟨inp, hinp⟩ := h.effects hcreated
    have hrun := handlerEffects_keep inp
    rw [← hinp, run_append] at hrun
    obtain ⟨h₀, hpast, hrest⟩ := Option.bind_eq_some_iff.mp hrun
    rw [hfuture] at hrest
    obtain ⟨h₁, hstep, -⟩ := run_cons hrest
    exact (socket_iff hpast).mp ((Holding.step_socket hstep).2 he)

/-- A handler that has returned has closed its descriptor. -/
theorem Connection.closed_of_returned {c : Connection} {inp : HandlerInput}
    (hpast : c.past = handlerEffects inp) (hreturns : inp.returns = true) : ¬ c.Open := by
  have hrun := handlerEffects_keep inp
  rw [hreturns, ← hpast] at hrun
  rw [Connection.Open, ← socket_iff hrun]
  decide

theorem TableInv.accept {s : Process} {fd : Nat} (h : TableInv s) (hfree : s.table fd = none)
    (inp : HandlerInput) (created : Bool) :
    TableInv { s with
      table := Function.update s.table fd (some s.connections.length)
      connections := s.connections ++
        [⟨fd, created, [], if created then handlerEffects inp else []⟩] } where
  sound := by
    intro c hc
    rcases List.mem_append.mp hc with hc | hc
    · exact h.sound c hc
    · rw [List.mem_singleton.mp hc]
      exact ⟨fun hcreated => ⟨inp, by simp_all⟩, fun hcreated => by simp_all⟩
  table_iff := by
    intro fd' i
    dsimp only
    by_cases hfd : fd' = fd
    · subst hfd
      rw [Function.update_self, Option.some.injEq]
      constructor
      · rintro rfl
        exact ⟨_, List.getElem?_concat_length, rfl, List.not_mem_nil⟩
      · rintro ⟨c, hc, hcfd, hopen⟩
        rcases getElem?_concat_cases hc with hold | ⟨hi, -⟩
        · exact nomatch hfree.symm.trans ((h.table_iff fd' i).mpr ⟨c, hold, hcfd, hopen⟩)
        · exact hi.symm
    · rw [Function.update_of_ne hfd, h.table_iff fd' i]
      constructor
      · rintro ⟨c, hc, hcfd⟩
        exact ⟨c, by rw [List.getElem?_append_left (List.getElem?_eq_some_iff.mp hc).1, hc], hcfd⟩
      · rintro ⟨c, hc, hcfd, hopen⟩
        rcases getElem?_concat_cases hc with hold | ⟨-, rfl⟩
        · exact ⟨c, hold, hcfd, hopen⟩
        · exact absurd hcfd.symm hfd
  misused := h.misused

/-- A handler does its next effect. -/
theorem TableInv.perform {s : Process} {i : Nat} {c : Connection} {e : Effect}
    {future : List Effect} (h : TableInv s) (hi : s.connections[i]? = some c)
    (hfuture : c.future = e :: future) :
    TableInv { s.perform i c.fd e with
      connections := s.connections.set i { c with past := c.past ++ [e], future } } := by
  have hsound := h.sound c (List.mem_of_getElem? hi)
  have hset := getElem?_set_eq_ite hi { c with past := c.past ++ [e], future }
  have huse : e.usesSocket = true → s.table c.fd = some i := fun he =>
    (h.table_iff c.fd i).mpr ⟨c, hi, rfl, hsound.open_of_use hfuture he⟩
  refine ⟨fun c' hc' => ?_, fun fd j => ?_, ?_⟩
  · rcases List.mem_or_eq_of_mem_set hc' with hc' | rfl
    · exact h.sound c' hc'
    · refine ⟨fun hcreated => ?_, fun hcreated => ?_⟩
      · obtain ⟨inp, hinp⟩ := hsound.effects hcreated
        exact ⟨inp, by rw [← hinp, hfuture]; simp⟩
      · exact nomatch (hsound.idle hcreated).2.symm.trans hfuture
  · have hopen : Connection.Open { c with past := c.past ++ [e], future } ↔
        c.Open ∧ e ≠ .close := by
      simp [Connection.Open, ne_comm]
    have hown : s.table fd = some i ↔ c.fd = fd ∧ c.Open := by simp [h.table_iff, hi]
    show (if e = .close then Function.update s.table c.fd none else s.table) fd = some j ↔ _
    by_cases hij : i = j
    · subst hij
      simp only [hset, if_true, Option.some.injEq, exists_eq_left', hopen]
      split
      · rename_i hclose
        by_cases hfd : fd = c.fd
        · simp [hfd, hclose]
        · simp [hown, Function.update_of_ne hfd, Ne.symm hfd]
      · rename_i hclose
        simp [hown, hclose]
    · simp only [hset, if_neg hij, ← h.table_iff]
      split
      · rename_i hclose
        by_cases hfd : fd = c.fd
        · have hmine : s.table c.fd = some i := huse (by rw [hclose]; rfl)
          simp [hfd, hmine, hij]
        · rw [Function.update_of_ne hfd]
      · rfl
  · show (if e.usesSocket ∧ s.table c.fd ≠ some i then c.fd :: s.misused else s.misused) = []
    rw [if_neg fun hbad => hbad.2 (huse hbad.1)]
    exact h.misused

theorem TableInv.step {s s' : Process} {a : ProcessAction} (h : TableInv s)
    (hstep : s.step a = some s') : TableInv s' := by
  cases a with
  | accept fd inp created =>
    simp only [Process.step] at hstep
    split at hstep
    · rename_i hfree
      cases hstep
      exact h.accept hfree inp created
    · cases hstep
  | handler i =>
    simp only [Process.step] at hstep
    split at hstep
    · cases hstep
    · rename_i c hi
      split at hstep
      · cases hstep
      · rename_i e future hfuture
        cases hstep
        exact h.perform hi hfuture

/-- **No handler touches a descriptor that is not its own**, although numbers
are given away again; and open are those that the handlers have not closed
yet and those that no thread was created for. Once all handlers have
returned, the latter are left, and nobody will close them. -/
theorem descriptors_not_mixed_up {schedule : List ProcessAction} {s : Process}
    (hrun : run Process.step .init schedule = some s) :
    s.misused = [] ∧
      (∀ fd i, s.table fd = some i ↔ ∃ c, s.connections[i]? = some c ∧ c.fd = fd ∧ c.Open) ∧
      ((∀ c ∈ s.connections, c.created = true →
          ∃ inp, c.past = handlerEffects inp ∧ inp.returns = true) →
        ∀ fd i, s.table fd = some i ↔
          ∃ c, s.connections[i]? = some c ∧ c.fd = fd ∧ c.created = false) := by
  have hinit : TableInv .init := ⟨by simp [Process.init], by simp [Process.init], rfl⟩
  have h : TableInv s := run_invariant (fun _ _ _ => TableInv.step) hinit hrun
  refine ⟨h.misused, h.table_iff, fun hdone fd i => ?_⟩
  rw [h.table_iff]
  refine exists_congr fun c => and_congr_right fun hi => and_congr_right fun _ => ?_
  have hmem := List.mem_of_getElem? hi
  constructor
  · intro hopen
    by_contra hcreated
    obtain ⟨inp, hpast, hreturns⟩ := hdone c hmem (by simpa using hcreated)
    exact Connection.closed_of_returned hpast hreturns hopen
  · intro hcreated
    rw [Connection.Open, ((h.sound c hmem).idle hcreated).1]
    exact List.not_mem_nil

/-- A client that closes its connection at once. -/
def hangUp : HandlerInput := ⟨[[]], fun _ => 0, true, [], 0⟩

/-- Its descriptor number goes to a connection that gets no thread. -/
theorem descriptor_left_open : ∃ s,
    run Process.step .init (.accept 4 hangUp true ::
      (List.replicate 27 (.handler 0) ++ [.accept 4 hangUp false])) = some s ∧
    s.misused = [] ∧ (∀ fd i, s.table fd = some i ↔
      ∃ c, s.connections[i]? = some c ∧ c.fd = fd ∧ c.created = false) := by
  have hrun : ∃ s, run Process.step .init (.accept 4 hangUp true ::
      (List.replicate 27 (.handler 0) ++ [.accept 4 hangUp false])) = some s ∧
      s.connections = [⟨4, true, handlerEffects hangUp, []⟩, ⟨4, false, [], []⟩] := ⟨_, rfl, rfl⟩
  obtain ⟨s, hs, hconns⟩ := hrun
  obtain ⟨hmisused, -, hleft⟩ := descriptors_not_mixed_up hs
  refine ⟨s, hs, hmisused, hleft fun c hc hcreated => ⟨hangUp, ?_, rfl⟩⟩
  rw [hconns] at hc
  rcases List.mem_cons.mp hc with rfl | hc
  · rfl
  · rw [List.mem_singleton.mp hc] at hcreated
    cases hcreated

end Aesd.Server

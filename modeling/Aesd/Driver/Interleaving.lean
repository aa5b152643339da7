/-
Aesd.Driver.Interleaving — calls on the device that overlap.

Any number of tasks call the driver at the same time, each on its own open
file, and their steps come in any order. As the mutex brackets the steps of
each call, tasks get from every interleaving what they get from calls that
follow each other (`Serial`), and what holds of such runs holds of all.
-/
import Aesd.Driver.CallSteps

namespace Aesd.Driver

open Mutexes StepSystem

/-! ## Tasks -/

variable {α : Type} {ι : Type*} [DecidableEq ι] {llseek : Nat → Int → Int → Nat → SeekResult}

/-- A task calls the driver, and goes on with what it is told. -/
abbrev Task (α : Type) := Client Call CallResult α

/-- The steps of a task. -/
abbrev Task.op (llseek : Nat → Int → Int → Nat → SeekResult) (task : Task α) : Op α :=
  task.prog (Call.op llseek)

/-- The tasks at their start, on a freshly loaded module. -/
def loaded (llseek : Nat → Int → Int → Nat → SeekResult) (tasks : ι → Task α) :
    State Unit (fun _ => Kernel) α ι :=
  .start (fun _ => aesdInitModule) fun i => (tasks i).op llseek

/-- A call that has returned. -/
structure Done (ι : Type*) where
  task : ι
  call : Call
  result : CallResult

/-- The kernel state after calls that follow each other. -/
abbrev kernelAfter (llseek : Nat → Int → Int → Nat → SeekResult) (history : List (Done ι)) :
    Kernel := runCalls llseek (history.map Done.call)

/-- The tasks where calls follow each other: `left` is what they have still
to do after `history`. -/
inductive Serial (llseek : Nat → Int → Int → Nat → SeekResult) (tasks : ι → Task α) :
    List (Done ι) → (ι → Task α) → Prop where
  | nil : Serial llseek tasks [] tasks
  | call {history : List (Done ι)} {left : ι → Task α} {i : ι} {c : Call}
      {next : CallResult → Task α} {r : CallResult} (h : Serial llseek tasks history left)
      (hi : left i = .call c next) (hr : r = c.result llseek (kernelAfter llseek history)) :
      Serial llseek tasks (history ++ [⟨i, c, r⟩]) (Function.update left i (next r))

/-- What can be seen of the tasks at a moment when `history` is done. -/
structure Shows (llseek : Nat → Int → Int → Nat → SeekResult)
    (s : State Unit (fun _ => Kernel) α ι) (history : List (Done ι)) (left : ι → Task α) :
    Prop where
  /-- Between two calls the kernel state is that of the history. -/
  kernel : s.owner () = none → s.shared () = kernelAfter llseek history
  /-- A task that does not hold the mutex has gone on with what the calls of
  the history told it. -/
  threads : ∀ i, s.owner () ≠ some i → s.threads i = (left i).op llseek
  /-- A task that holds the mutex is in the call that is the next in line. -/
  inside : ∀ i, s.owner () = some i → ∃ c next, left i = .call c next
  /-- No block is misused, in the middle of a call either. -/
  faults : (s.shared ()).heap.faults = []

/-- A sequential run is one of whole calls. -/
theorem serial_of_run {tasks : ι → Task α} {history : List (Done ι)} {left : ι → Task α}
    (h : Serial llseek tasks history left) {order : List ι}
    {t : Sequential (fun _ : Unit => Kernel) Call CallResult α ι}
    (hrun : run (Sequential.step (Call.op llseek))
      ⟨fun _ => kernelAfter llseek history, left⟩ order = some t) :
    ∃ more, Serial llseek tasks (history ++ more) t.clients ∧
      t.shared = fun _ => kernelAfter llseek (history ++ more) := by
  induction order generalizing history left with
  | nil =>
    cases hrun
    exact ⟨[], by simpa using h, by simp⟩
  | cons i order ih =>
    obtain ⟨t₁, hstep, hrest⟩ := run_cons hrun
    cases hi : left i with
    | done a => simp [Sequential.step, hi] at hstep
    | call c next =>
      rw [Sequential.step_call hi, exec_eq, Call.run_op, Option.some.injEq] at hstep
      subst hstep
      have hnext : kernelAfter llseek
          (history ++ [⟨i, c, c.result llseek (kernelAfter llseek history)⟩])
          = c.run llseek (kernelAfter llseek history) := by
        simp [kernelAfter, runCalls]
      rw [← hnext] at hrest
      obtain ⟨more, hserial, hshared⟩ := ih (h.call hi rfl) hrest
      exact ⟨_ :: more, by simpa using hserial, by simpa using hshared⟩

omit [DecidableEq ι] in
theorem all_op (tasks : ι → Task α) (i : ι) :
    ((loaded llseek tasks).threads i).All fun _ => KeepsFaults :=
  Client.all (fun c => (Call.bracketed_op llseek c).keeps) (tasks i)

omit [DecidableEq ι] in
/-- What the tasks show while they follow a sequential run. -/
theorem Shows.of_follows {s : State Unit (fun _ => Kernel) α ι}
    {t : Sequential (fun _ : Unit => Kernel) Call CallResult α ι} {history : List (Done ι)}
    (h : Follows (Call.op llseek) s t)
    (hshared : t.shared = fun _ => kernelAfter llseek history)
    (hall : ∀ i, (s.threads i).All fun _ => KeepsFaults) : Shows llseek s history t.clients where
  kernel hfree := by rw [h.free () hfree, hshared]
  threads i hi := by
    cases h.tracks i with
    | between _ hthread => exact hthread
    | inside hown => exact absurd ((hown ()).mpr rfl) hi
  inside i hi := by
    cases h.tracks i with
    | between hown _ => exact absurd hi (hown ())
    | inside _ hclient => exact ⟨_, _, hclient⟩
  faults := by
    cases hown : s.owner () with
    | none =>
      rw [h.free () hown, hshared]
      exact (idle_runCalls llseek _).owned.owns.faults
    | some i =>
      cases h.tracks i with
      | between hnone _ => exact absurd hown (hnone ())
      | @inside m c next p q _ _ hc _ hthread _ _ hleft =>
        -- What is left of the call ends where the whole call does, without a fault.
        have hq : q.All fun _ => KeepsFaults := (hthread ▸ hall i).of_bind
        have hend : (exec q s.shared).2 () = c.run llseek (kernelAfter llseek history) := by
          have hcall := exec_eq (c.op llseek) t.shared
          rw [Call.run_op, hc, hshared] at hcall
          rw [hleft, hshared]
          exact congrFun (congrArg Prod.snd hcall) ()
        have hgrow := hq.exec (R := fun _ k k' => k.heap.faults <:+ k'.heap.faults)
          (fun _ _ => List.suffix_rfl) (fun _ => List.IsSuffix.trans) s.shared ()
        rw [hend, ((idle_runCalls llseek _).call llseek c).owned.owns.faults] at hgrow
        exact List.suffix_nil.mp hgrow

/-- Behind a moment of a run there is a history, and the run goes on from it. -/
theorem exists_history {tasks : ι → Task α} {order : List ι}
    {s : State Unit (fun _ => Kernel) α ι} (hrun : run step (loaded llseek tasks) order = some s) :
    ∃ history left, Serial llseek tasks history left ∧ Shows llseek s history left ∧
      ∀ {later s'}, run step s later = some s' → ∃ more left',
        Serial llseek tasks (history ++ more) left' ∧ Shows llseek s' (history ++ more) left' := by
  have hcalls := fun c => (Call.bracketed_op llseek c).isCall
  have hall : ∀ {s s' : State Unit (fun _ => Kernel) α ι} {order : List ι},
      (∀ i, (s.threads i).All fun _ => KeepsFaults) → run step s order = some s' →
      ∀ i, (s'.threads i).All fun _ => KeepsFaults :=
    fun h hrun => run_invariant (fun _ _ _ => all_step) h hrun
  obtain ⟨order', ⟨shared, left⟩, horder, hfollows⟩ :=
    (follows_start (Call.op llseek) (fun _ => aesdInitModule) tasks).run hcalls hrun
  have hstart : Serial llseek tasks [] tasks := .nil
  obtain ⟨history, hserial, hshared⟩ := serial_of_run hstart horder
  cases hshared
  refine ⟨history, left, hserial, .of_follows hfollows rfl (hall (all_op tasks) hrun), ?_⟩
  intro later s' hlater
  obtain ⟨order₂, t', horder₂, hfollows'⟩ := hfollows.run hcalls hlater
  obtain ⟨more, hserial', hshared'⟩ := serial_of_run hserial horder₂
  exact ⟨more, t'.clients, hserial',
    .of_follows hfollows' hshared' (hall (hall (all_op tasks) hrun) hlater)⟩

/-- **Calls that overlap are calls that follow each other.** Whatever the
tasks do and in whatever order their steps come, there is a history of whole
calls behind what they have seen and left, and it only grows: a call that has
returned comes before any that starts later. -/
theorem overlapping_calls_serial (llseek : Nat → Int → Int → Nat → SeekResult)
    (tasks : ι → Task α) {first later : List ι} {s s' : State Unit (fun _ => Kernel) α ι}
    (hfirst : run step (loaded llseek tasks) first = some s) (hlater : run step s later = some s') :
    ∃ history left more left', Serial llseek tasks history left ∧ Shows llseek s history left ∧
      Serial llseek tasks (history ++ more) left' ∧ Shows llseek s' (history ++ more) left' := by
  obtain ⟨history, left, hserial, hshows, hgo⟩ := exists_history hfirst
  obtain ⟨more, left', hserial', hshows'⟩ := hgo hlater
  exact ⟨history, left, more, left', hserial, hshows, hserial', hshows'⟩

/-- One task writes `"a\n"` and `"b\n"`, the other reads two bytes. -/
def writerAndReader : Bool → Task Unit
  | false => .call (.write ⟨fun _ _ => some fun _ => 0, .ok, [97, 10]⟩) fun _ =>
    .call (.write ⟨fun _ _ => some fun _ => 0, .ok, [98, 10]⟩) fun _ => .done ()
  | true => .call (.read .ok 2 0) fun _ => .done ()

/-- The read comes between the two writes, the second of which goes on for `n`
steps. -/
def readBetween (n : Nat) : List Bool :=
  List.replicate 17 false ++ List.replicate 16 true ++ List.replicate n false

/-- The writer is stopped in its second call, and goes on to its end. -/
theorem writer_and_reader_serial : ∃ s s' history left more left',
    run step (loaded (fun p _ _ _ => ⟨0, p⟩) writerAndReader) (readBetween 9) = some s ∧
      run step s (List.replicate 8 false) = some s' ∧
      Serial (fun p _ _ _ => ⟨0, p⟩) writerAndReader history left ∧
      Shows (fun p _ _ _ => ⟨0, p⟩) s history left ∧
      Serial (fun p _ _ _ => ⟨0, p⟩) writerAndReader (history ++ more) left' ∧
      Shows (fun p _ _ _ => ⟨0, p⟩) s' (history ++ more) left' := by
  have hfirst : ∃ s, run step (loaded (fun p _ _ _ => ⟨0, p⟩) writerAndReader)
      (readBetween 9) = some s ∧ (run step s (List.replicate 8 false)).isSome :=
    ⟨_, rfl, rfl⟩
  obtain ⟨s, hs, hlater⟩ := hfirst
  obtain ⟨s', hs'⟩ := Option.isSome_iff_exists.mp hlater
  obtain ⟨history, left, more, left', hshows⟩ :=
    overlapping_calls_serial (fun p _ _ _ => ⟨0, p⟩) writerAndReader hs hs'
  exact ⟨s, s', history, left, more, left', hs, hs', hshows⟩

/-- **Overlapping calls end.** No task is stuck: one that has not returned
can go on, or waits for a holder of the mutex that can. Finitely many tasks
cannot go on for ever either, so at the end all have returned. -/
theorem overlapping_calls_end [Finite ι] (llseek : Nat → Int → Int → Nat → SeekResult)
    (tasks : ι → Task α) :
    (∀ order : Nat → ι, ∃ n, run step (loaded llseek tasks) ((List.range n).map order) = none) ∧
    ∀ (order : List ι) (s : State Unit (fun _ => Kernel) α ι),
      run step (loaded llseek tasks) order = some s →
      (∀ i, (∃ a, s.threads i = .ret a) ∨ (∃ s', step s i = some s') ∨
        ∃ j, j ≠ i ∧ s.owner () = some j ∧ ∃ s', step s j = some s') ∧
      ((∀ i, step s i = none) → ∀ i, ∃ a, s.threads i = .ret a) := by
  refine ⟨fun order => exists_run_eq_none _ order, fun order s hrun => ?_⟩
  have hbrackets : ∀ i, Brackets none ((tasks i).op llseek) := fun i =>
    Client.brackets (fun c => (Call.bracketed_op llseek c).isCall) (tasks i)
  have hprogress := progress hbrackets hrun
  refine ⟨fun i => ?_, fun hstuck i => ?_⟩
  · rcases hprogress i with hret | hgo | ⟨m, next, j, -, hown, hgo⟩
    · exact .inl hret
    · exact .inr (.inl hgo)
    · by_cases hj : j = i
      · exact .inr (.inl (hj ▸ hgo))
      · exact .inr (.inr ⟨j, hj, hown, hgo⟩)
  · rcases hprogress i with hret | ⟨s', hgo⟩ | ⟨m, next, j, -, -, s', hgo⟩
    · exact hret
    · exact nomatch (hstuck i).symm.trans hgo
    · exact nomatch (hstuck j).symm.trans hgo

theorem writer_and_reader_end : ∃ n, run step (loaded (fun p _ _ _ => ⟨0, p⟩) writerAndReader)
    ((List.range n).map fun n => n % 2 == 0) = none :=
  (overlapping_calls_end (fun p _ _ _ => ⟨0, p⟩) writerAndReader).1 fun n => n % 2 == 0

end Aesd.Driver

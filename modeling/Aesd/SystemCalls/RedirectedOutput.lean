/-
Aesd.SystemCalls.RedirectedOutput — what a run of `do_exec_redirect` leaves in
the output file.

The parent opens the file as well, and so empties it, at any moment between
`fork` and `waitpid`. The descriptor of the child keeps its offset: what the
command has written before is lost, and zeros stand in its place once it goes
on writing.
-/
import Aesd.SystemCalls.Launch

namespace Aesd.SystemCalls

open RegularFile StepSystem WaitStatus

/-! ## What the command has written -/

def Action.written : Action → List UInt8
  | .write data => data
  | _ => []

def written (as : List Action) : List UInt8 := as.flatMap Action.written

variable {s s' : Launch} {a : Action}

theorem CommandMoves.output (hmove : CommandMoves s a s') : s'.output = s.output ++ a.written := by
  cases hmove with
  | wrote data hpc => exact s.writeOutput_output data
  | _ => simp [Action.written, Launch.returnParent]

theorem DoExecRedirectMoves.output (hmove : DoExecRedirectMoves s a s') :
    s'.output = s.output ++ a.written := by
  cases hmove with
  | command hmove => exact hmove.output
  | _ => simp [Action.written, Launch.returnParent, Launch.returnChild]

theorem output_of_run {as : List Action} (hrun : run doExecRedirectStep s as = some s') :
    s'.output = s.output ++ written as := by
  induction as generalizing s with
  | nil =>
    cases hrun
    simp [written]
  | cons a as ih =>
    obtain ⟨s₁, hs₁, hrest⟩ := run_cons hrun
    rw [ih hrest, (doExecRedirectStep_moves hs₁).output]
    simp [written]

/-! ## The descriptor -/

/-- The child has a descriptor where it runs the command, and its offset is
what the command has written. -/
structure Redirected (s : Launch) : Prop where
  offset : s.offset = s.output.length
  forking : s.parent = .forking → s.child = .notCreated
  fresh : s.child = .notCreated ∨ s.child = .opening → s.fd = false
  running : s.child = .executing ∨ s.child = .running → s.redirected = true ∧ s.fd = true
  unopened : s.fd = false → s.output = []

theorem Redirected.init (file : Option (List UInt8)) : Redirected (.init file) where
  offset := rfl
  forking _ := rfl
  fresh _ := rfl
  running := nofun
  unopened _ := rfl

/-- The parent goes on. -/
theorem Redirected.parent (h : Redirected s) {pc : ParentPc} {waited : Option Int}
    {returns : List (Process × Bool)} {file : Option (List UInt8)} (hpc : pc ≠ .forking) :
    Redirected { s with parent := pc, waited, returns, file } :=
  ⟨h.offset, fun hs => absurd hs hpc, h.fresh, h.running, h.unopened⟩

/-- The child goes on behind its `open`, with a standard output where the
command needs it. -/
theorem Redirected.child (h : Redirected s) {pc : ChildPc} {redirected started : Bool}
    {returns : List (Process × Bool)} (hcreated : s.child ≠ .notCreated)
    (hpc : pc ≠ .notCreated ∧ pc ≠ .opening)
    (hrunning : pc = .executing ∨ pc = .running → redirected = true ∧ s.fd = true) :
    Redirected { s with child := pc, redirected, started, returns } where
  offset := h.offset
  forking hs := absurd (h.forking hs) hcreated
  fresh hs := absurd hs (not_or.mpr hpc)
  running := hrunning
  unopened := h.unopened

theorem CommandMoves.redirected (hmove : CommandMoves s a s') (h : Redirected s) :
    Redirected s' := by
  cases hmove with
  | started hpc => exact h.child (by simp [hpc]) (by simp) (fun _ => h.running (.inl hpc))
  | notStarted hpc => exact h.child (by simp [hpc]) (by simp) (by simp)
  | wrote data hpc =>
    obtain ⟨hredirected, hfd⟩ := h.running (.inr hpc)
    rw [Launch.writeOutput, if_pos hredirected]
    refine ⟨?_, h.forking, h.fresh, h.running, fun hs => ?_⟩
    · simp [h.offset]
    · simp [hfd] at hs
  | exited hpc => exact h.child (by simp [hpc]) (by simp) (by simp)
  | ended t hend =>
    refine h.child (fun hpc => ?_) (by simp) (by simp)
    rw [hpc] at hend
    cases hend
  | waitFailed hpc => exact h.parent nofun
  | waited t hpc hchild => exact h.parent nofun

theorem DoExecRedirectMoves.redirected (hmove : DoExecRedirectMoves s a s') (h : Redirected s) :
    Redirected s' := by
  cases hmove with
  | forked hpc =>
    have hfd := h.fresh (.inl (h.forking hpc))
    exact ⟨h.offset, nofun, fun _ => hfd, nofun, h.unopened⟩
  | forkFailed hpc => exact h.parent nofun
  | parentOpened ok hpc => cases ok <;> exact h.parent nofun
  | callerOpened ok hpc => cases ok <;> exact h.parent nofun
  | childOpened ok hpc =>
    have hcreated : s.parent ≠ .forking := fun hs => by simpa [hpc] using h.forking hs
    have houtput := h.unopened (h.fresh (.inr hpc))
    cases ok <;> exact ⟨h.offset, (absurd · hcreated), nofun, nofun, fun _ => houtput⟩
  | duplicated hpc hfd => exact h.child (by simp [hpc]) (by simp) (fun _ => ⟨rfl, hfd⟩)
  | notDuplicated hpc => exact h.child (by simp [hpc]) (by simp) (by simp)
  | command hmove => exact hmove.redirected h

/-! ## The file -/

/-- The file has what was written since it was emptied, behind a gap in place
of `before`. -/
def Covers (before : List UInt8) (s : Launch) : Prop :=
  ∃ data, s.output = before ++ data ∧ s.file = some (behind 0 before.length data)

theorem CommandMoves.covers (hmove : CommandMoves s a s') (hs : Redirected s)
    {before : List UInt8} (h : Covers before s) : Covers before s' := by
  cases hmove with
  | wrote data hpc =>
    obtain ⟨old, houtput, hfile⟩ := h
    refine ⟨old ++ data, by simp [houtput], ?_⟩
    rw [Launch.writeOutput, if_pos (hs.running (.inr hpc)).1]
    simp only [hfile, Option.map_some, hs.offset, houtput, List.length_append, writeAt_behind]
  | _ => exact h

/-- Only the parent can take away what the command has written. -/
theorem DoExecRedirectMoves.covers (hmove : DoExecRedirectMoves s a s') (hs : Redirected s)
    (ha : a ≠ .openFile .parent true) {before : List UInt8} (h : Covers before s) :
    Covers before s' := by
  cases hmove with
  | parentOpened ok hpc =>
    cases ok with
    | false => exact h
    | true => exact absurd rfl ha
  | callerOpened ok hpc =>
    cases ok with
    | false => exact h
    | true => exact absurd rfl ha
  | childOpened ok hpc =>
    cases ok with
    | false => exact h
    | true =>
      obtain ⟨data, houtput, -⟩ := h
      have hnil : s.output = [] := hs.unopened (hs.fresh (.inr hpc))
      obtain ⟨rfl, rfl⟩ := List.append_eq_nil_iff.mp (houtput.symm.trans hnil)
      exact ⟨[], hnil, rfl⟩
  | command hmove => exact hmove.covers hs h
  | _ => exact h

/-- The `open` of the parent takes what there is. -/
theorem DoExecRedirectMoves.covers_of_parent
    (hmove : DoExecRedirectMoves s (.openFile .parent true) s') : Covers s.output s' := by
  cases hmove with
  | parentOpened ok hpc => exact ⟨[], (List.append_nil _).symm, rfl⟩
  | callerOpened ok hpc => exact ⟨[], (List.append_nil _).symm, rfl⟩
  | command hmove => cases hmove

/-- The `open` of the child comes before the command. -/
theorem DoExecRedirectMoves.covers_of_child
    (hmove : DoExecRedirectMoves s (.openFile .child true) s') (hs : Redirected s) :
    Covers [] s' := by
  cases hmove with
  | childOpened ok hpc => exact ⟨[], hs.unopened (hs.fresh (.inr hpc)), rfl⟩
  | command hmove => cases hmove

theorem CommandMoves.unopened (hmove : CommandMoves s a s') (hs : Redirected s)
    (hfd : s.fd = false) : s'.file = s.file ∧ s'.fd = false := by
  cases hmove with
  | wrote data hpc => simp [(hs.running (.inr hpc)).2] at hfd
  | _ => exact ⟨rfl, hfd⟩

theorem DoExecRedirectMoves.unopened (hmove : DoExecRedirectMoves s a s') (hs : Redirected s)
    (ha : ∀ process, a ≠ .openFile process true) (hfd : s.fd = false) :
    s'.file = s.file ∧ s'.fd = false := by
  cases hmove with
  | parentOpened ok hpc =>
    cases ok with
    | false => exact ⟨rfl, hfd⟩
    | true => exact absurd rfl (ha .parent)
  | callerOpened ok hpc =>
    cases ok with
    | false => exact ⟨rfl, hfd⟩
    | true => exact absurd rfl (ha .parent)
  | childOpened ok hpc =>
    cases ok with
    | false => exact ⟨rfl, rfl⟩
    | true => exact absurd rfl (ha .child)
  | command hmove => exact hmove.unopened hs hfd
  | _ => exact ⟨rfl, hfd⟩

/-- The parent is behind its `open`. -/
def ParentOpened (s : Launch) : Prop := s.parent ≠ .forking ∧ ∀ forked, s.parent ≠ .opening forked

theorem CommandMoves.keeps_opened (hmove : CommandMoves s a s') (h : ParentOpened s) :
    ParentOpened s' := by
  cases hmove with
  | wrote data hpc => simpa [ParentOpened] using h
  | waitFailed hpc => exact ⟨nofun, nofun⟩
  | waited t hpc hchild => exact ⟨nofun, nofun⟩
  | _ => exact h

theorem DoExecRedirectMoves.keeps_opened (hmove : DoExecRedirectMoves s a s')
    (h : ParentOpened s) : a ≠ .openFile .parent true ∧ ParentOpened s' := by
  cases hmove with
  | forked hpc => exact absurd hpc h.1
  | forkFailed hpc => exact absurd hpc h.1
  | parentOpened ok hpc => exact absurd hpc (h.2 true)
  | callerOpened ok hpc => exact absurd hpc (h.2 false)
  | childOpened ok hpc => exact ⟨nofun, by simpa [ParentOpened] using h⟩
  | command hmove =>
    refine ⟨?_, hmove.keeps_opened h⟩
    rintro rfl
    cases hmove
  | _ => exact ⟨nofun, h⟩

theorem DoExecRedirectMoves.opens_parent {ok : Bool}
    (hmove : DoExecRedirectMoves s (.openFile .parent ok) s') : ParentOpened s' := by
  cases hmove with
  | parentOpened ok hpc => exact ⟨nofun, nofun⟩
  | callerOpened ok hpc => exact ⟨nofun, nofun⟩
  | command hmove => cases hmove

/-! ## Runs -/

variable {file : Option (List UInt8)} {as : List Action}

theorem redirected_of_run (hrun : run doExecRedirectStep (.init file) as = some s) :
    Redirected s :=
  run_invariant (fun _ _ _ h hs => (doExecRedirectStep_moves hs).redirected h) (.init file) hrun

theorem output_of_run_init (hrun : run doExecRedirectStep (.init file) as = some s) :
    s.output = written as := by
  simpa [Launch.init] using output_of_run hrun

/-- From the `open` of the parent on, which is its only one. -/
theorem covers_of_run_opened {before : List UInt8}
    (hs : ParentOpened s ∧ Redirected s ∧ Covers before s)
    (hrun : run doExecRedirectStep s as = some s') : Covers before s' := by
  have hstep : ∀ t a t', ParentOpened t ∧ Redirected t ∧ Covers before t →
      doExecRedirectStep t a = some t' → ParentOpened t' ∧ Redirected t' ∧ Covers before t' := by
    rintro t a t' ⟨hopened, hredirected, hcovers⟩ ht
    have hmove := doExecRedirectStep_moves ht
    obtain ⟨ha, hopened'⟩ := hmove.keeps_opened hopened
    exact ⟨hopened', hmove.redirected hredirected, hmove.covers hredirected ha hcovers⟩
  exact (run_invariant hstep hs hrun).2.2

/-- From the `open` of the child on, where the parent gets no descriptor. -/
theorem covers_of_run_unopened {before : List UInt8} (hs : Redirected s ∧ Covers before s)
    (hrun : run doExecRedirectStep s as = some s') (hparent : .openFile .parent true ∉ as) :
    Covers before s' := by
  have hstep : ∀ t a t', Redirected t ∧ Covers before t → a ≠ .openFile .parent true →
      doExecRedirectStep t a = some t' → Redirected t' ∧ Covers before t' := by
    rintro t a t' ⟨hredirected, hcovers⟩ ha ht
    have hmove := doExecRedirectStep_moves ht
    exact ⟨hmove.redirected hredirected, hmove.covers hredirected ha hcovers⟩
  have halong : Along doExecRedirectStep (fun _ a => a ≠ .openFile .parent true) s as :=
    (along_iff_forall_mem hrun).mpr (List.forall_mem_ne'.mpr hparent)
  exact (run_invariant_along hstep hs halong hrun).2

/-- A file that neither of the two has opened. -/
theorem file_of_run_unopened (hrun : run doExecRedirectStep (.init file) as = some s)
    (hopen : ∀ process, .openFile process true ∉ as) : s.file = file ∧ s.output = [] := by
  have hstep : ∀ t a t', (t.file = file ∧ t.fd = false) ∧ Redirected t →
      (∀ process, a ≠ .openFile process true) → doExecRedirectStep t a = some t' →
      (t'.file = file ∧ t'.fd = false) ∧ Redirected t' := by
    rintro t a t' ⟨⟨hfile, hfd⟩, hredirected⟩ ha ht
    have hmove := doExecRedirectStep_moves ht
    obtain ⟨hfile', hfd'⟩ := hmove.unopened hredirected ha hfd
    exact ⟨⟨hfile'.trans hfile, hfd'⟩, hmove.redirected hredirected⟩
  have halong : Along doExecRedirectStep (fun _ a => ∀ process, a ≠ .openFile process true)
      (.init file) as :=
    (along_iff_forall_mem hrun).mpr fun a ha process heq => hopen process (heq ▸ ha)
  obtain ⟨⟨hfile, hfd⟩, hredirected⟩ :=
    run_invariant_along hstep ⟨⟨rfl, rfl⟩, .init file⟩ halong hrun
  exact ⟨hfile, hredirected.unopened hfd⟩

/-- When the file has kept all that the command has written: one of the two
processes must have opened it, unless it was empty, and where the parent has,
the command had written nothing before, or zeros that more bytes then followed. -/
structure Undisturbed (file : Option (List UInt8)) (as : List Action) : Prop where
  opened : file = some [] ∨ ∃ process, .openFile process true ∈ as
  truncated : .openFile .parent true ∈ as →
    let before := written (as.takeWhile (· ≠ .openFile .parent true))
    (∀ b ∈ before, b = 0) ∧ (before = [] ∨ before ≠ written as)

theorem takeWhile_append_of_notMem {before after : List Action} (ha : a ∉ before) :
    (before ++ a :: after).takeWhile (· ≠ a) = before := by
  rw [List.takeWhile_append_of_pos, List.takeWhile_cons_of_neg (by simp), List.append_nil]
  intro b hb
  simpa using ne_of_mem_of_not_mem hb ha

/-- The three kinds of runs: the parent has opened the file, or the child
alone, or neither. -/
theorem file_eq_output_iff (hrun : run doExecRedirectStep (.init file) as = some s) :
    s.file = some s.output ↔ Undisturbed file as := by
  by_cases hparent : .openFile .parent true ∈ as
  · obtain ⟨before, after, t, t', rfl, hbefore, ht, hopen, hafter⟩ := run_split_of_mem hparent hrun
    have hmove := doExecRedirectStep_moves hopen
    obtain ⟨data, houtput, hfile⟩ := covers_of_run_opened
      ⟨hmove.opens_parent, hmove.redirected (redirected_of_run ht), hmove.covers_of_parent⟩ hafter
    have hall := output_of_run_init hrun
    rw [output_of_run_init ht] at houtput hfile
    have hmore : data ≠ [] ↔ written before ≠ s.output := by simp [houtput]
    rw [hfile, houtput, Option.some.injEq, behind_eq_append_iff, hmore, hall]
    constructor
    · intro h
      refine ⟨.inr ⟨.parent, hparent⟩, fun _ => ?_⟩
      rwa [takeWhile_append_of_notMem hbefore]
    · intro h
      have htruncated := h.truncated hparent
      rwa [takeWhile_append_of_notMem hbefore] at htruncated
  · by_cases hchild : .openFile .child true ∈ as
    · obtain ⟨before, after, t, t', rfl, -, ht, hopen, hafter⟩ := run_split_of_mem hchild hrun
      have hmove := doExecRedirectStep_moves hopen
      have hs := redirected_of_run ht
      have hafterParent : .openFile .parent true ∉ after := fun h =>
        hparent (List.mem_append_right _ (List.mem_cons_of_mem _ h))
      obtain ⟨data, houtput, hfile⟩ := covers_of_run_unopened
        ⟨hmove.redirected hs, hmove.covers_of_child hs⟩ hafter hafterParent
      rw [List.nil_append] at houtput
      rw [hfile, houtput, List.length_nil, behind_zero]
      exact iff_of_true rfl ⟨.inr ⟨.child, hchild⟩, fun h => absurd h hparent⟩
    · have hopen : ∀ process, .openFile process true ∉ as := by
        rintro (_ | _)
        · exact hparent
        · exact hchild
      obtain ⟨hfile, houtput⟩ := file_of_run_unopened hrun hopen
      rw [hfile, houtput]
      constructor
      · intro h
        exact ⟨.inl h, fun h => absurd h hparent⟩
      · rintro ⟨hfile | ⟨process, hmem⟩, -⟩
        · exact hfile
        · exact absurd hmem (hopen process)

/-- **When `do_exec_redirect` returns true on a file with the output of the
command**, in every order of the steps of the two processes. -/
theorem redirected_output_kept_iff (hrun : run doExecRedirectStep (.init file) as = some s) :
    s.parent = .returned true → (s.file = some s.output ↔ Undisturbed file as) :=
  fun _ => file_eq_output_iff hrun

/-- The parent is first. -/
theorem redirected_output_kept_parent_first :
    let as : List Action := [.fork true, .openFile .parent true, .openFile .child true, .dup2 true,
      .execv true, .write [104, 105, 10], .finish (.exited 0), .waitpid true]
    let s : Launch := { Launch.init none with
      parent := .returned true, child := .terminated (.exited 0), fd := true, redirected := true,
      file := some [104, 105, 10], offset := 3, output := [104, 105, 10], started := true,
      waited := some 0, returns := [(.parent, true)] }
    run doExecRedirectStep (.init none) as = some s ∧ s.file = some s.output ∧
      Undisturbed none as := by
  intro as s
  have hrun : run doExecRedirectStep (.init none) as = some s := by decide +kernel
  exact ⟨hrun, rfl, (redirected_output_kept_iff hrun rfl).mp rfl⟩

/-- The command has written before the parent opens the file. -/
theorem redirected_output_lost :
    (run doExecRedirectStep (.init none)
      [.fork true, .openFile .child true, .dup2 true, .execv true, .write [104, 105, 10],
        .openFile .parent true, .finish (.exited 0), .waitpid true]).map
        (fun s => (s.parent, s.output, s.file)) =
      some (.returned true, [104, 105, 10], some []) := by
  decide

end Aesd.SystemCalls

/-
Aesd.Library.Mutexes — threads that share state under mutexes, one at a time.

A program is the tree of what a thread does: it takes and gives back mutexes,
and acts on the part of the state that a mutex guards; what it sees there
decides how it goes on. Threads run their programs in any order, one node of a
tree a step. A mutex that is held stops the thread that wants it.

Finitely many threads cannot go on for ever (`wellFounded_step`). Where each
holds one mutex at a time, none of them is stuck (`progress`): it can go on, or
waits for one that can. And where each call of a thread is one section under
one mutex, which acts on nothing else (`IsCall`), every run is one in which
whole calls follow each other (`Follows.run`), in the order in which they have
given the mutex back.
-/
import Mathlib.Algebra.BigOperators.Group.Finset.Basic
import Mathlib.Algebra.Order.Group.Multiset
import Mathlib.Logic.Hydra
import Mathlib.Tactic.Abel
import Aesd.Library.StepSystem

namespace Mutexes

open StepSystem

universe u v w

/-! ## Programs -/

inductive Prog (μ : Type u) (σ : μ → Type v) (ρ : Type w) where
  | ret (r : ρ)
  | lock (m : μ) (next : Prog μ σ ρ)
  | unlock (m : μ) (next : Prog μ σ ρ)
  /-- A change of what `m` guards; the program goes on with what it was. -/
  | act (m : μ) (f : σ m → σ m) (next : σ m → Prog μ σ ρ)

variable {μ : Type u} {σ : μ → Type v} {ρ ρ' : Type w}

def Prog.bind : Prog μ σ ρ → (ρ → Prog μ σ ρ') → Prog μ σ ρ'
  | .ret r, g => g r
  | .lock m next, g => .lock m (next.bind g)
  | .unlock m next, g => .unlock m (next.bind g)
  | .act m f next, g => .act m f fun x => (next x).bind g

/-- The mutexes are given back before others are taken; a thread that is at
`p` holds `held`. -/
def Brackets : Option μ → Prog μ σ ρ → Prop
  | held, .ret _ => held = none
  | held, .lock m next => held = none ∧ Brackets (some m) next
  | held, .unlock m next => held = some m ∧ Brackets none next
  | held, .act _ _ next => ∀ x, Brackets held (next x)

/-- What a thread holds shows in what it still does. -/
theorem Brackets.unique [∀ m, Nonempty (σ m)] {p : Prog μ σ ρ} {held held' : Option μ}
    (h : Brackets held p) (h' : Brackets held' p) : held = held' := by
  induction p generalizing held held' with
  | ret r => exact h.trans h'.symm
  | lock m next _ => exact h.1.trans h'.1.symm
  | unlock m next _ => exact h.1.trans h'.1.symm
  | act m f next ih =>
    obtain ⟨x⟩ := ‹∀ m, Nonempty (σ m)› m
    exact ih x (h x) (h' x)

/-- What is left of a call in its section: it acts on what `m` guards, gives
`m` back and returns. -/
def IsSection (m : μ) : Prog μ σ ρ → Prop
  | .ret _ => False
  | .lock _ _ => False
  | .unlock m' next => m' = m ∧ ∃ r, next = .ret r
  | .act m' _ next => m' = m ∧ ∀ x, IsSection m (next x)

/-- A call that is one section, or takes no mutex at all. -/
inductive IsCall : Prog μ σ ρ → Prop where
  | ret (r : ρ) : IsCall (.ret r)
  | locked (m : μ) {p : Prog μ σ ρ} (h : IsSection m p) : IsCall (.lock m p)

/-- Every act of the program is one that `P` allows. -/
def Prog.All (P : ∀ m, (σ m → σ m) → Prop) : Prog μ σ ρ → Prop
  | .ret _ => True
  | .lock _ next => next.All P
  | .unlock _ next => next.All P
  | .act m f next => P m f ∧ ∀ x, (next x).All P

/-- A node of a program and the ones right below it. -/
inductive Prog.Below : Prog μ σ ρ → Prog μ σ ρ → Prop where
  | lock (m : μ) (next : Prog μ σ ρ) : Below next (.lock m next)
  | unlock (m : μ) (next : Prog μ σ ρ) : Below next (.unlock m next)
  | act (m : μ) (f : σ m → σ m) (next : σ m → Prog μ σ ρ) (x : σ m) : Below (next x) (.act m f next)

theorem Prog.wellFounded_below :
    WellFounded (Below : Prog μ σ ρ → Prog μ σ ρ → Prop) := by
  refine ⟨fun p => ?_⟩
  induction p with
  | ret r => exact ⟨_, fun _ h => nomatch h⟩
  | lock m next ih => exact ⟨_, fun _ h => by cases h; exact ih⟩
  | unlock m next ih => exact ⟨_, fun _ h => by cases h; exact ih⟩
  | act m f next ih => exact ⟨_, fun _ h => by cases h; exact ih _⟩

variable {P : ∀ m, (σ m → σ m) → Prop}

theorem Prog.All.bind {p : Prog μ σ ρ} {g : ρ → Prog μ σ ρ'} (h : p.All P)
    (hg : ∀ r, (g r).All P) : (p.bind g).All P := by
  induction p with
  | ret r => exact hg r
  | lock m next ih => exact ih h
  | unlock m next ih => exact ih h
  | act m f next ih => exact ⟨h.1, fun x => ih x (h.2 x)⟩

theorem Prog.All.of_bind {p : Prog μ σ ρ} {g : ρ → Prog μ σ ρ'} (h : (p.bind g).All P) :
    p.All P := by
  induction p with
  | ret r => trivial
  | lock m next ih => exact ih h
  | unlock m next ih => exact ih h
  | act m f next ih => exact ⟨h.1, fun x => ih x (h.2 x)⟩

/-- A call may end in its own way: the section stays one. -/
theorem IsSection.map {m : μ} {p : Prog μ σ ρ} (h : IsSection m p) (f : ρ → ρ') :
    IsSection m (p.bind fun r => .ret (f r)) := by
  induction p with
  | ret r => exact h.elim
  | lock _ next _ => exact h.elim
  | unlock _ next _ =>
    obtain ⟨rfl, r, rfl⟩ := h
    exact ⟨rfl, f r, rfl⟩
  | act _ g next ih => exact ⟨h.1, fun x => ih x (h.2 x)⟩

theorem IsCall.map {p : Prog μ σ ρ} (h : IsCall p) (f : ρ → ρ') :
    IsCall (p.bind fun r => .ret (f r)) := by
  cases h with
  | ret r => exact .ret (f r)
  | locked m h => exact .locked m (h.map f)

theorem IsSection.brackets_bind {m : μ} {p : Prog μ σ ρ} {g : ρ → Prog μ σ ρ'} (h : IsSection m p)
    (hg : ∀ r, Brackets none (g r)) : Brackets (some m) (p.bind g) := by
  induction p with
  | ret r => exact h.elim
  | lock _ next _ => exact h.elim
  | unlock _ next _ =>
    obtain ⟨rfl, r, rfl⟩ := h
    exact ⟨rfl, hg r⟩
  | act _ f next ih => exact fun x => ih x (h.2 x)

/-! ## Threads -/

variable {ι : Type*}

structure State (μ : Type u) (σ : μ → Type v) (ρ : Type w) (ι : Type*) where
  shared : ∀ m, σ m
  owner : μ → Option ι
  threads : ι → Prog μ σ ρ

/-- All mutexes are free. -/
def State.start (shared : ∀ m, σ m) (threads : ι → Prog μ σ ρ) : State μ σ ρ ι :=
  ⟨shared, fun _ => none, threads⟩

/-- Each thread is in its brackets, and owns what it holds there. -/
def Orderly (s : State μ σ ρ ι) : Prop :=
  ∀ i, ∃ held : Option μ, (∀ m, s.owner m = some i ↔ held = some m) ∧ Brackets held (s.threads i)

theorem orderly_start (shared : ∀ m, σ m) {threads : ι → Prog μ σ ρ}
    (h : ∀ i, Brackets none (threads i)) : Orderly (State.start shared threads) :=
  fun i => ⟨none, fun m => by simp [State.start], h i⟩

section Threads

variable [DecidableEq μ] [DecidableEq ι]

/-- The program in one go, where nobody else runs. -/
def exec : Prog μ σ ρ → (∀ m, σ m) → ρ × ∀ m, σ m
  | .ret r, shared => (r, shared)
  | .lock _ next, shared => exec next shared
  | .unlock _ next, shared => exec next shared
  | .act m f next, shared =>
    exec (next (shared m)) (Function.update shared m (f (shared m)))

theorem exec_bind (p : Prog μ σ ρ) (g : ρ → Prog μ σ ρ') :
    ∀ shared, exec (p.bind g) shared = exec (g (exec p shared).1) (exec p shared).2 := by
  induction p with
  | ret r => intro shared; rfl
  | lock m next ih => exact ih
  | unlock m next ih => exact ih
  | act m f next ih => intro shared; exact ih _ _

/-- What each act keeps, the program keeps. -/
theorem Prog.All.exec {R : ∀ m, σ m → σ m → Prop} (hrefl : ∀ m x, R m x x)
    (htrans : ∀ m {x y z}, R m x y → R m y z → R m x z) {p : Prog μ σ ρ}
    (h : p.All fun m f => ∀ x, R m x (f x)) :
    ∀ (shared : ∀ m, σ m) (m : μ), R m (shared m) ((Mutexes.exec p shared).2 m) := by
  induction p with
  | ret r => exact fun shared m => hrefl m _
  | lock m next ih => exact ih h
  | unlock m next ih => exact ih h
  | act m' f next ih =>
    intro shared m
    refine htrans m ?_ (ih _ (h.2 _) _ m)
    by_cases hm : m = m'
    · subst hm
      simpa using h.1 (shared m)
    · simpa [hm] using hrefl m (shared m)

/-- One step of thread `i`. -/
def step (s : State μ σ ρ ι) (i : ι) : Option (State μ σ ρ ι) :=
  match s.threads i with
  | .ret _ => none
  | .lock m next =>
    if s.owner m = none then
      some { s with
        owner := Function.update s.owner m (some i)
        threads := Function.update s.threads i next }
    else none
  | .unlock m next =>
    if s.owner m = some i then
      some { s with
        owner := Function.update s.owner m none
        threads := Function.update s.threads i next }
    else none
  | .act m f next =>
    some { s with
      shared := Function.update s.shared m (f (s.shared m))
      threads := Function.update s.threads i (next (s.shared m)) }

/-- What a step can do. -/
inductive Moves (s : State μ σ ρ ι) (i : ι) : State μ σ ρ ι → Prop where
  | lock {m : μ} {next : Prog μ σ ρ} (h : s.threads i = .lock m next) (hfree : s.owner m = none) :
      Moves s i { s with
        owner := Function.update s.owner m (some i)
        threads := Function.update s.threads i next }
  | unlock {m : μ} {next : Prog μ σ ρ} (h : s.threads i = .unlock m next)
      (hown : s.owner m = some i) :
      Moves s i { s with
        owner := Function.update s.owner m none
        threads := Function.update s.threads i next }
  | act {m : μ} {f : σ m → σ m} {next : σ m → Prog μ σ ρ} (h : s.threads i = .act m f next) :
      Moves s i { s with
        shared := Function.update s.shared m (f (s.shared m))
        threads := Function.update s.threads i (next (s.shared m)) }

variable {s s' : State μ σ ρ ι} {i : ι}

theorem step_moves (h : step s i = some s') : Moves s i s' := by
  cases hi : s.threads i with
  | ret r => simp [step, hi] at h
  | lock m next =>
    simp only [step, hi] at h
    split at h
    · rename_i hfree
      cases h
      exact .lock hi hfree
    · cases h
  | unlock m next =>
    simp only [step, hi] at h
    split at h
    · rename_i hown
      cases h
      exact .unlock hi hown
    · cases h
  | act m f next =>
    simp only [step, hi] at h
    cases h
    exact .act hi

theorem all_step (h : ∀ j, (s.threads j).All P) (hstep : step s i = some s') :
    ∀ j, (s'.threads j).All P := by
  intro j
  by_cases hj : j = i
  · subst hj
    have hthread := h j
    cases step_moves hstep with
    | lock hi _ =>
      rw [hi] at hthread
      simpa [Prog.All] using hthread
    | unlock hi _ =>
      rw [hi] at hthread
      simpa [Prog.All] using hthread
    | act hi =>
      rw [hi] at hthread
      simpa using hthread.2 _
  · cases step_moves hstep <;> simpa [hj] using h j

/-! ## One mutex at a time -/

omit [DecidableEq ι] in
/-- The mutexes of the other threads, after `m` was given to `o`. -/
theorem owner_update_iff {owner : μ → Option ι} {m : μ} {o : Option ι} {i j : ι}
    (ho : o = some i ∨ o = none) (hm : owner m = some i ∨ owner m = none) (hij : j ≠ i) (m' : μ) :
    Function.update owner m o m' = some j ↔ owner m' = some j := by
  by_cases hmm : m' = m
  · subst hmm
    rw [Function.update_self]
    have hne : ∀ {x : Option ι}, x = some i ∨ x = none → x ≠ some j := by
      rintro x (rfl | rfl)
      · exact fun h => hij (Option.some.inj h).symm
      · nofun
    exact iff_of_false (hne ho) (hne hm)
  · rw [Function.update_of_ne hmm]

theorem Orderly.step (h : Orderly s) (hstep : step s i = some s') : Orderly s' := by
  obtain ⟨held, hown, hp⟩ := h i
  intro j
  by_cases hij : j = i
  · subst hij
    cases step_moves hstep with
    | @lock m next hi hfree =>
      rw [hi] at hp
      obtain ⟨rfl, hnext⟩ := hp
      refine ⟨some m, fun m' => ?_, by simpa using hnext⟩
      by_cases hm : m' = m
      · simp [hm]
      · simp [hm, hown m', Ne.symm hm]
    | @unlock m next hi hmine =>
      rw [hi] at hp
      obtain ⟨rfl, hnext⟩ := hp
      refine ⟨none, fun m' => ?_, by simpa using hnext⟩
      by_cases hm : m' = m
      · simp [hm]
      · simp [hm, hown m', Ne.symm hm]
    | @act m f next hi =>
      rw [hi] at hp
      exact ⟨held, hown, by simpa using hp (s.shared m)⟩
  · obtain ⟨heldj, hownj, hpj⟩ := h j
    cases step_moves hstep with
    | lock hi hfree =>
      refine ⟨heldj, fun m' => ?_, by simpa [hij] using hpj⟩
      rw [← hownj m', owner_update_iff (.inl rfl) (.inr hfree) hij]
    | unlock hi hmine =>
      refine ⟨heldj, fun m' => ?_, by simpa [hij] using hpj⟩
      rw [← hownj m', owner_update_iff (.inr rfl) (.inl hmine) hij]
    | act hi => exact ⟨heldj, hownj, by simpa [hij] using hpj⟩

/-- A thread that holds a mutex can go on. -/
theorem Orderly.step_of_owner (h : Orderly s) {m : μ} (hown : s.owner m = some i) :
    ∃ s', Mutexes.step s i = some s' := by
  obtain ⟨held, hiff, hp⟩ := h i
  have hheld : held = some m := (hiff m).mp hown
  cases hi : s.threads i with
  | ret r =>
    rw [hi] at hp
    exact absurd (hheld.symm.trans hp) nofun
  | lock m' next =>
    rw [hi] at hp
    exact absurd (hheld.symm.trans hp.1) nofun
  | unlock m' next =>
    rw [hi] at hp
    have hmine : s.owner m' = some i := (hiff m').mpr hp.1
    simp [Mutexes.step, hi, hmine]
  | act m' f next => simp [Mutexes.step, hi]

/-- **No deadlock.** A thread that has not returned can go on, or waits for a
mutex whose owner can. -/
theorem Orderly.progress (h : Orderly s) (i : ι) :
    (∃ r, s.threads i = .ret r) ∨ (∃ s', Mutexes.step s i = some s') ∨
      ∃ m next j, s.threads i = .lock m next ∧ s.owner m = some j ∧
        ∃ s', Mutexes.step s j = some s' := by
  cases hi : s.threads i with
  | ret r => exact .inl ⟨r, rfl⟩
  | lock m next =>
    right
    cases hm : s.owner m with
    | none => exact .inl ⟨_, by simp only [Mutexes.step, hi, if_pos hm]; rfl⟩
    | some j => exact .inr ⟨m, next, j, rfl, hm, h.step_of_owner hm⟩
  | unlock m next =>
    obtain ⟨held, hiff, hp⟩ := h i
    rw [hi] at hp
    exact .inr (.inl (h.step_of_owner ((hiff m).mpr hp.1)))
  | act m f next => exact .inr (.inl ⟨_, by simp only [Mutexes.step, hi]; rfl⟩)

/-- In every run. -/
theorem progress {shared : ∀ m, σ m} {threads : ι → Prog μ σ ρ}
    (hthreads : ∀ i, Brackets none (threads i)) {schedule : List ι}
    (hrun : run step (State.start shared threads) schedule = some s) (i : ι) :
    (∃ r, s.threads i = .ret r) ∨ (∃ s', Mutexes.step s i = some s') ∨
      ∃ m next j, s.threads i = .lock m next ∧ s.owner m = some j ∧
        ∃ s', Mutexes.step s j = some s' := by
  have horderly : Orderly s :=
    run_invariant (fun _ _ _ h hs => h.step hs) (orderly_start shared hthreads) hrun
  exact horderly.progress i

/-! ## Every run ends -/

/-- A thread moves on in its program. -/
theorem step_below (h : step s i = some s') :
    ∃ p, p.Below (s.threads i) ∧ s'.threads = Function.update s.threads i p := by
  cases step_moves h with
  | lock hi _ => exact ⟨_, hi ▸ .lock _ _, rfl⟩
  | unlock hi _ => exact ⟨_, hi ▸ .unlock _ _, rfl⟩
  | act hi => exact ⟨_, hi ▸ .act _ _ _ _, rfl⟩

/-- Finitely many threads cannot go on for ever. -/
theorem wellFounded_step [Finite ι] :
    WellFounded fun s' s : State μ σ ρ ι => ∃ i, step s i = some s' := by
  obtain ⟨hfintype⟩ := nonempty_fintype ι
  have hexpand := (Prog.wellFounded_below (μ := μ) (σ := σ) (ρ := ρ)).cutExpand
  refine (InvImage.wf (fun s : State μ σ ρ ι => ∑ i, {s.threads i}) hexpand).mono ?_
  rintro s' s ⟨i, hstep⟩
  obtain ⟨p, hp, hthreads⟩ := step_below hstep
  refine ⟨{p}, s.threads i, by simpa using hp, ?_⟩
  have hrest : ∀ j ∈ Finset.univ.erase i, s'.threads j = s.threads j := by
    intro j hj
    rw [hthreads, Function.update_of_ne (Finset.ne_of_mem_erase hj)]
  dsimp only
  have hi := Finset.mem_univ i
  rw [← Finset.add_sum_erase _ _ hi, ← Finset.add_sum_erase _ _ hi,
      Finset.sum_congr rfl fun j hj => congrArg _ (hrest j hj), hthreads, Function.update_self]
  abel

/-- No schedule goes on for ever. -/
theorem exists_run_eq_none [Finite ι] (s : State μ σ ρ ι) (order : Nat → ι) :
    ∃ n, run step s ((List.range n).map order) = none := by
  have hwf := wellFounded_step (μ := μ) (σ := σ) (ρ := ρ) (ι := ι)
  induction s using hwf.induction generalizing order with
  | _ s ih =>
    cases hs : step s (order 0) with
    | none => exact ⟨1, by simp [run, hs]⟩
    | some s₁ =>
      obtain ⟨n, hn⟩ := ih s₁ ⟨_, hs⟩ fun k => order (k + 1)
      refine ⟨n + 1, ?_⟩
      rw [List.range_succ_eq_map, List.map_cons, List.map_map, run, hs]
      exact hn

/-- From wherever they are, the threads can be brought to their ends. -/
theorem Orderly.exists_run_ret [Finite ι] (h : Orderly s) :
    ∃ schedule s', run Mutexes.step s schedule = some s' ∧ ∀ i, ∃ r, s'.threads i = .ret r := by
  have hwf := wellFounded_step (μ := μ) (σ := σ) (ρ := ρ) (ι := ι)
  induction s using hwf.induction with
  | _ s ih =>
    by_cases hend : ∀ i, ∃ r, s.threads i = .ret r
    · exact ⟨[], s, rfl, hend⟩
    · obtain ⟨i, hi⟩ := not_forall.mp hend
      have hgo : ∃ j s', Mutexes.step s j = some s' := by
        rcases h.progress i with hret | hgo | ⟨_, _, j, _, _, hgo⟩
        · exact absurd hret hi
        · exact ⟨i, hgo⟩
        · exact ⟨j, hgo⟩
      obtain ⟨j, s₁, hstep⟩ := hgo
      obtain ⟨schedule, s', hrun, hret⟩ := ih s₁ ⟨j, hstep⟩ (h.step hstep)
      exact ⟨j :: schedule, s', by rw [run, hstep]; exact hrun, hret⟩

/-! ## Calls -/

section Calls

variable {κ : Type*} {α : Type w}

/-- What a thread does with the answers to its calls, until it is done. -/
inductive Client (κ : Type*) (ρ : Type*) (α : Type*) where
  | done (a : α)
  | call (c : κ) (next : ρ → Client κ ρ α)

def Client.prog (prog : κ → Prog μ σ ρ) : Client κ ρ α → Prog μ σ α
  | .done a => .ret a
  | .call c next => (prog c).bind fun r => (next r).prog prog

/-- The clients, where a call is one step. -/
structure Sequential (σ : μ → Type v) (κ : Type*) (ρ : Type*) (α : Type*) (ι : Type*) where
  shared : ∀ m, σ m
  clients : ι → Client κ ρ α

def Sequential.step (prog : κ → Prog μ σ ρ) (t : Sequential σ κ ρ α ι) (i : ι) :
    Option (Sequential σ κ ρ α ι) :=
  match t.clients i with
  | .done _ => none
  | .call c next =>
    let (r, shared) := exec (prog c) t.shared
    some ⟨shared, Function.update t.clients i (next r)⟩

variable {prog : κ → Prog μ σ ρ}

theorem Sequential.step_call {t : Sequential σ κ ρ α ι} {i : ι} {c : κ} {next : ρ → Client κ ρ α}
    (h : t.clients i = .call c next) :
    t.step prog i = some ⟨(exec (prog c) t.shared).2,
      Function.update t.clients i (next (exec (prog c) t.shared).1)⟩ := by
  simp [Sequential.step, h]

/-! ### Sections -/

/-- What a section does rests on what its mutex guards. -/
theorem IsSection.exec_congr {m : μ} {p : Prog μ σ ρ} (h : IsSection m p) :
    ∀ {a b : ∀ m, σ m}, a m = b m →
      (exec p a).1 = (exec p b).1 ∧ (exec p a).2 m = (exec p b).2 m := by
  induction p with
  | ret r => exact h.elim
  | lock m' next _ => exact h.elim
  | unlock m' next _ =>
    obtain ⟨rfl, r, rfl⟩ := h
    exact fun hab => ⟨rfl, hab⟩
  | act m' f next ih =>
    obtain ⟨rfl, hnext⟩ := h
    intro a b hab
    simp only [exec, hab]
    exact ih _ (hnext _) (by simp)

/-- And it changes nothing else. -/
theorem IsSection.exec_other {m m' : μ} (hne : m' ≠ m) {p : Prog μ σ ρ} (h : IsSection m p) :
    ∀ a : ∀ m, σ m, (exec p a).2 m' = a m' := by
  induction p with
  | ret r => exact h.elim
  | lock _ next _ => exact h.elim
  | unlock _ next _ =>
    obtain ⟨rfl, r, rfl⟩ := h
    exact fun a => rfl
  | act m'' f next ih =>
    obtain ⟨rfl, hnext⟩ := h
    intro a
    rw [exec, ih _ (hnext _), Function.update_of_ne hne]

omit [DecidableEq μ] in
theorem Client.brackets (hprog : ∀ c, IsCall (prog c)) (cl : Client κ ρ α) :
    Brackets none (cl.prog prog) := by
  induction cl with
  | done a => rfl
  | call c next ih =>
    have hcall := hprog c
    rw [Client.prog]
    generalize prog c = p at hcall
    cases hcall with
    | ret r => exact ih r
    | locked m h => exact ⟨rfl, h.brackets_bind ih⟩

omit [DecidableEq μ] in
theorem Client.all (hprog : ∀ c, (prog c).All P) (cl : Client κ ρ α) : (cl.prog prog).All P := by
  induction cl with
  | done a => trivial
  | call c next ih => exact (hprog c).bind ih

/-! ### The sequential run -/

/-- Where thread `i` is while the clients are at `t`: between two calls, or in
the section of its next one, which ends as that call would. -/
inductive Tracks (prog : κ → Prog μ σ ρ) (s : State μ σ α ι) (t : Sequential σ κ ρ α ι) (i : ι) :
    Prop where
  | between (hown : ∀ m, s.owner m ≠ some i) (hthread : s.threads i = (t.clients i).prog prog)
  | inside {m : μ} {c : κ} {next : ρ → Client κ ρ α} {p q : Prog μ σ ρ}
      (hown : ∀ m', s.owner m' = some i ↔ m' = m) (hclient : t.clients i = .call c next)
      (hc : prog c = .lock m p) (hp : IsSection m p)
      (hthread : s.threads i = q.bind fun r => (next r).prog prog) (hq : IsSection m q)
      (hret : (exec q s.shared).1 = (exec p t.shared).1)
      (hleft : (exec q s.shared).2 m = (exec p t.shared).2 m)

structure Follows (prog : κ → Prog μ σ ρ) (s : State μ σ α ι) (t : Sequential σ κ ρ α ι) :
    Prop where
  free : ∀ m, s.owner m = none → s.shared m = t.shared m
  tracks : ∀ i, Tracks prog s t i

/-- The next call of client `i` that takes a mutex; those before it change
nothing. -/
theorem settle (hprog : ∀ c, IsCall (prog c)) (t : Sequential σ κ ρ α ι) (i : ι) :
    ∃ order t', run (Sequential.step prog) t order = some t' ∧ t'.shared = t.shared ∧
      (∀ j, j ≠ i → t'.clients j = t.clients j) ∧
      (t'.clients i).prog prog = (t.clients i).prog prog ∧
      ((∃ a, t'.clients i = .done a) ∨
        ∃ c next m p, t'.clients i = .call c next ∧ prog c = .lock m p ∧ IsSection m p) := by
  generalize hcl : t.clients i = cl
  induction cl generalizing t with
  | done a => exact ⟨[], t, rfl, rfl, fun _ _ => rfl, by rw [hcl], .inl ⟨a, hcl⟩⟩
  | call c next ih =>
    have hcall := hprog c
    generalize hc : prog c = p at hcall
    cases hcall with
    | locked m h =>
      exact ⟨[], t, rfl, rfl, fun _ _ => rfl, by rw [hcl], .inr ⟨c, next, m, _, hcl, hc, h⟩⟩
    | ret r =>
      obtain ⟨order, t', hrun, hshared, hothers, hthread, hnext⟩ :=
        ih r ⟨t.shared, Function.update t.clients i (next r)⟩ (by simp)
      refine ⟨i :: order, t', ?_, hshared, fun j hj => ?_, ?_, hnext⟩
      · simpa [run, Sequential.step_call hcl, hc, exec] using hrun
      · rw [hothers j hj]
        exact Function.update_of_ne hj _ _
      · rw [hthread, Client.prog, hc]
        rfl

omit [DecidableEq ι] in
/-- The others stay where they are when thread `i` moves without the mutexes
they hold. -/
theorem Tracks.frame {s s' : State μ σ α ι} {t t' : Sequential σ κ ρ α ι} {j : ι}
    (h : Tracks prog s t j) (hown : ∀ m, s'.owner m = some j ↔ s.owner m = some j)
    (hthread : s'.threads j = s.threads j) (hclient : t'.clients j = t.clients j)
    (hs : ∀ m, s.owner m = some j → s'.shared m = s.shared m)
    (ht : ∀ m, s.owner m = some j → t'.shared m = t.shared m) : Tracks prog s' t' j := by
  cases h with
  | between hnone hprog =>
    exact .between (fun m hm => hnone m ((hown m).mp hm)) (by rw [hthread, hclient, hprog])
  | @inside m c next p q hmine hcl hc hp hq hsec hret hleft =>
    have hm : s.owner m = some j := (hmine m).mpr rfl
    have hqs := hsec.exec_congr (hs m hm)
    have hpt := hp.exec_congr (ht m hm)
    exact .inside (fun m' => (hown m').trans (hmine m')) (hclient.trans hcl) hc hp
      (hthread.trans hq) hsec (by rw [hqs.1, hret, hpt.1]) (by rw [hqs.2, hleft, hpt.2])

omit [DecidableEq ι] in
theorem follows_start (prog : κ → Prog μ σ ρ) (shared : ∀ m, σ m) (clients : ι → Client κ ρ α) :
    Follows prog (State.start shared fun i => (clients i).prog prog) ⟨shared, clients⟩ :=
  ⟨fun _ _ => rfl, fun _ => .between (fun _ => nofun) rfl⟩

/-- Thread `i` takes the mutex of its next call. -/
theorem Follows.enter {s : State μ σ α ι} {t t' : Sequential σ κ ρ α ι} {i : ι} {m : μ} {c : κ}
    {next : ρ → Client κ ρ α} {p : Prog μ σ ρ} (h : Follows prog s t)
    (hown : ∀ m, s.owner m ≠ some i) (hfree : s.owner m = none) (hshared : t'.shared = t.shared)
    (hothers : ∀ j, j ≠ i → t'.clients j = t.clients j) (hclient : t'.clients i = .call c next)
    (hc : prog c = .lock m p) (hp : IsSection m p) :
    Follows prog { s with
      owner := Function.update s.owner m (some i)
      threads := Function.update s.threads i (p.bind fun r => (next r).prog prog) } t' where
  free m' hm' := by
    have hne : m' ≠ m := by
      rintro rfl
      simp at hm'
    rw [hshared]
    exact h.free m' (by simpa [hne] using hm')
  tracks j := by
    by_cases hj : j = i
    · subst hj
      have hsame := hp.exec_congr ((h.free m hfree).trans (congrFun hshared m).symm)
      refine .inside (fun m' => ?_) hclient hc hp (by simp) hp hsame.1 hsame.2
      by_cases hm : m' = m
      · simp [hm]
      · simpa [hm] using hown m'
    · exact (h.tracks j).frame (owner_update_iff (.inl rfl) (.inr hfree) hj) (by simp [hj])
        (hothers j hj) (fun _ _ => rfl) (fun m' _ => congrFun hshared m')

/-- Thread `i` gives the mutex back: now the call counts. -/
theorem Follows.leave {s : State μ σ α ι} {t : Sequential σ κ ρ α ι} {i : ι} {m : μ}
    {next : ρ → Client κ ρ α} {p : Prog μ σ ρ} {r : ρ} (h : Follows prog s t)
    (hown : ∀ m', s.owner m' = some i ↔ m' = m) (hp : IsSection m p)
    (hleft : s.shared m = (exec p t.shared).2 m) :
    Follows prog { s with
      owner := Function.update s.owner m none
      threads := Function.update s.threads i ((next r).prog prog) }
      ⟨(exec p t.shared).2, Function.update t.clients i (next r)⟩ where
  free m' hm' := by
    by_cases hm : m' = m
    · rw [hm]
      exact hleft
    · have hsame := h.free m' (by simpa [hm] using hm')
      exact hsame.trans (hp.exec_other hm t.shared).symm
  tracks j := by
    by_cases hj : j = i
    · subst hj
      refine .between (fun m' => ?_) (by simp)
      by_cases hm : m' = m
      · simp [hm]
      · simpa [hm] using (hown m').not.mpr hm
    · have hmine : s.owner m = some i := (hown m).mpr rfl
      refine (h.tracks j).frame (owner_update_iff (.inr rfl) (.inl hmine) hj) (by simp [hj])
        (by simp [hj]) (fun _ _ => rfl) fun m' hm' => hp.exec_other ?_ t.shared
      rintro rfl
      exact hj (Option.some.inj (hm'.symm.trans hmine))

/-- Thread `i` acts in its section, out of sight of the others. -/
theorem Follows.act {s : State μ σ α ι} {t : Sequential σ κ ρ α ι} {i : ι} {m : μ} {c : κ}
    {next : ρ → Client κ ρ α} {p : Prog μ σ ρ} {f : σ m → σ m} {q : σ m → Prog μ σ ρ}
    (h : Follows prog s t) (hown : ∀ m', s.owner m' = some i ↔ m' = m)
    (hclient : t.clients i = .call c next) (hc : prog c = .lock m p) (hp : IsSection m p)
    (hq : ∀ x, IsSection m (q x)) (hret : (exec (.act m f q) s.shared).1 = (exec p t.shared).1)
    (hleft : (exec (.act m f q) s.shared).2 m = (exec p t.shared).2 m) :
    Follows prog { s with
      shared := Function.update s.shared m (f (s.shared m))
      threads := Function.update s.threads i
        ((q (s.shared m)).bind fun r => (next r).prog prog) } t where
  free m' hm' := by
    have hne : m' ≠ m := by
      rintro rfl
      exact nomatch hm'.symm.trans ((hown m').mpr rfl)
    simpa [hne] using h.free m' hm'
  tracks j := by
    by_cases hj : j = i
    · subst hj
      exact .inside hown hclient hc hp (by simp) (hq _) hret hleft
    · refine (h.tracks j).frame (fun _ => Iff.rfl) (by simp [hj]) rfl (fun m' hm' => ?_)
        fun _ _ => rfl
      refine Function.update_of_ne ?_ _ _
      rintro rfl
      exact hj (Option.some.inj (hm'.symm.trans ((hown m').mpr rfl)))

/-- **One step.** The sequential run catches up when a mutex is given back. -/
theorem Follows.step {s s' : State μ σ α ι} {t : Sequential σ κ ρ α ι} {i : ι}
    (hprog : ∀ c, IsCall (prog c)) (h : Follows prog s t) (hstep : Mutexes.step s i = some s') :
    ∃ order t', run (Sequential.step prog) t order = some t' ∧ Follows prog s' t' := by
  cases h.tracks i with
  | between hown hthread =>
    obtain ⟨order, t', hrun, hshared, hothers, hsame, hnext⟩ := settle hprog t i
    rw [← hsame] at hthread
    rcases hnext with ⟨a, ha⟩ | ⟨c, next, m, p, hcl, hc, hp⟩
    · rw [ha, Client.prog] at hthread
      simp [Mutexes.step, hthread] at hstep
    · rw [hcl, Client.prog, hc, Prog.bind] at hthread
      cases step_moves hstep with
      | unlock hi _ => cases hthread.symm.trans hi
      | act hi => cases hthread.symm.trans hi
      | lock hi hfree =>
        cases hthread.symm.trans hi
        exact ⟨order, t', hrun, h.enter hown hfree hshared hothers hcl hc hp⟩
  | @inside m c next p q hown hcl hc hp hthread hq hret hleft =>
    cases q with
    | ret r => exact hq.elim
    | lock m' q => exact hq.elim
    | unlock m' q =>
      obtain ⟨rfl, r, rfl⟩ := hq
      cases step_moves hstep with
      | lock hi _ => cases hthread.symm.trans hi
      | act hi => cases hthread.symm.trans hi
      | unlock hi _ =>
        cases hthread.symm.trans hi
        have hcall : t.step prog i = _ := Sequential.step_call hcl
        simp only [hc, exec] at hret hleft hcall
        rw [← hret] at hcall
        exact ⟨[i], _, by rw [run, hcall]; rfl, h.leave hown hp hleft⟩
    | act m' f q =>
      obtain ⟨rfl, hq⟩ := hq
      cases step_moves hstep with
      | lock hi _ => cases hthread.symm.trans hi
      | unlock hi _ => cases hthread.symm.trans hi
      | act hi =>
        cases hthread.symm.trans hi
        exact ⟨[], t, rfl, h.act hown hcl hc hp hq hret hleft⟩

/-- **Whole calls follow each other.** Behind every run there is one of the
clients in which each call is one step; it goes on as the run does. -/
theorem Follows.run (hprog : ∀ c, IsCall (prog c)) {s s' : State μ σ α ι}
    {t : Sequential σ κ ρ α ι} {schedule : List ι} (h : Follows prog s t)
    (hrun : StepSystem.run Mutexes.step s schedule = some s') :
    ∃ order t', StepSystem.run (Sequential.step prog) t order = some t' ∧ Follows prog s' t' := by
  induction schedule generalizing s t with
  | nil =>
    cases hrun
    exact ⟨[], t, rfl, h⟩
  | cons i schedule ih =>
    obtain ⟨s₁, hstep, hrest⟩ := run_cons hrun
    obtain ⟨order₁, t₁, horder₁, h₁⟩ := h.step hprog hstep
    obtain ⟨order₂, t₂, horder₂, h₂⟩ := ih h₁ hrest
    exact ⟨order₁ ++ order₂, t₂, by rw [run_append, horder₁]; exact horder₂, h₂⟩

end Calls

end Threads

end Mutexes

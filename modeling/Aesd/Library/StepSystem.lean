/-
Aesd.Library.StepSystem — runs of a system that takes one step at a time.

A system is a partial step function: `step s a` is the state after the
action `a`, or `none` where the action is not possible. A run takes the
actions of a schedule in order, so that a statement about every schedule is
one about every interleaving. An invariant of the steps is one of the runs
(`run_invariant`), also when the steps keep it only under a condition that
the run meets throughout (`Along`).

To go back from a run to its steps there are four rules: a measure that the
run does not raise (`along_of_measure_le`), a trap that it does not end in
(`along_of_trap`), a property that all its states have (`along_of_good`), and
one that a step keeps exactly under the condition (`along_iff_of_step`).
`run_simulates` goes from the runs of one system to those of another.

Systems of threads keep the threads in a list and change one at a time:
`exists_split_of_getElem?` takes that one out, and the lemmas after it say
what setting it does to the others and to a total.
-/
import Mathlib.Algebra.BigOperators.Group.List.Basic
import Mathlib.Algebra.GroupWithZero.Nat
import Mathlib.Data.List.Basic
import Mathlib.Order.Basic

namespace StepSystem

variable {σ α : Type*}

/-! ## Runs -/

/-- The state after the actions of a schedule. -/
def run (step : σ → α → Option σ) : σ → List α → Option σ
  | s, [] => some s
  | s, a :: as => (step s a).bind (fun s' => run step s' as)

/-- Each action of the schedule meets `cond` in the state it is taken in. -/
def Along (step : σ → α → Option σ) (cond : σ → α → Prop) : σ → List α → Prop
  | _, [] => True
  | s, a :: as => cond s a ∧ ∀ s', step s a = some s' → Along step cond s' as

variable {step : σ → α → Option σ} {cond : σ → α → Prop}

theorem run_cons {s s' : σ} {a : α} {as : List α} (h : run step s (a :: as) = some s') :
    ∃ s₁, step s a = some s₁ ∧ run step s₁ as = some s' := Option.bind_eq_some_iff.mp h

theorem Along.imp {cond' : σ → α → Prop} (hcond : ∀ s a, cond s a → cond' s a) :
    ∀ {s : σ} {as : List α}, Along step cond s as → Along step cond' s as := by
  intro s as
  induction as generalizing s with
  | nil => intro _; trivial
  | cons a as ih =>
    rintro ⟨ha, hrest⟩
    exact ⟨hcond s a ha, fun s' hs' => ih (hrest s' hs')⟩

theorem Along.and {cond' : σ → α → Prop} : ∀ {s : σ} {as : List α}, Along step cond s as →
    Along step cond' s as → Along step (fun s a => cond s a ∧ cond' s a) s as := by
  intro s as
  induction as generalizing s with
  | nil => intro _ _; trivial
  | cons a as ih =>
    rintro ⟨ha, hrest⟩ ⟨ha', hrest'⟩
    exact ⟨⟨ha, ha'⟩, fun s' hs' => ih (hrest s' hs') (hrest' s' hs')⟩

theorem Along.cons {s s₁ : σ} {a : α} {as : List α} (ha : cond s a) (hs₁ : step s a = some s₁)
    (h : Along step cond s₁ as) : Along step cond s (a :: as) := by
  refine ⟨ha, fun s₂ hs₂ => ?_⟩
  rw [hs₁, Option.some.injEq] at hs₂
  exact hs₂ ▸ h

theorem Along.of_append : ∀ {s : σ} {as bs : List α}, Along step cond s (as ++ bs) →
    Along step cond s as := by
  intro s as bs
  induction as generalizing s with
  | nil => intro _; trivial
  | cons a as ih =>
    rintro ⟨ha, hrest⟩
    exact ⟨ha, fun s' hs' => ih (hrest s' hs')⟩

theorem run_append (s : σ) (as bs : List α) :
    run step s (as ++ bs) = (run step s as).bind (fun s' => run step s' bs) := by
  induction as generalizing s with
  | nil => rfl
  | cons a as ih =>
    rw [List.cons_append, run, run, Option.bind_assoc]
    exact congrArg _ (funext ih)

/-- Actions that all leave a state as it is. -/
theorem run_eq_self {s : σ} {as : List α} (h : ∀ a ∈ as, step s a = some s) :
    run step s as = some s := by
  induction as with
  | nil => rfl
  | cons a as ih =>
    rw [run, h a List.mem_cons_self, Option.bind_some]
    exact ih fun b hb => h b (List.mem_cons_of_mem a hb)

/-- A round that ends where it starts can be gone any number of times. -/
theorem run_flatten_replicate {s : σ} {round : List α} (hround : run step s round = some s)
    (rounds : Nat) : run step s (List.replicate rounds round).flatten = some s := by
  induction rounds with
  | zero => rfl
  | succ rounds ih =>
    rw [List.replicate_succ, List.flatten_cons, run_append, hround]
    exact ih

/-- A run, taken apart at the first time of an action. -/
theorem run_split_of_mem {s s' : σ} {a : α} {as : List α} (ha : a ∈ as)
    (h : run step s as = some s') :
    ∃ before after t t', as = before ++ a :: after ∧ a ∉ before ∧ run step s before = some t ∧
      step t a = some t' ∧ run step t' after = some s' := by
  obtain ⟨before, after, rfl, hbefore⟩ := List.eq_append_cons_of_mem ha
  rw [run_append] at h
  obtain ⟨t, ht, hrest⟩ := Option.bind_eq_some_iff.mp h
  obtain ⟨t', ht', hafter⟩ := run_cons hrest
  exact ⟨before, after, t, t', rfl, hbefore, ht, ht', hafter⟩

/-- A condition on the actions alone. -/
theorem along_iff_forall_mem {p : α → Prop} : ∀ {s s' : σ} {as : List α},
    run step s as = some s' → (Along step (fun _ a => p a) s as ↔ ∀ a ∈ as, p a) := by
  intro s s' as
  induction as generalizing s with
  | nil => intro _; simp [Along]
  | cons a as ih =>
    intro hrun
    obtain ⟨s₁, hs₁, hrest⟩ := run_cons hrun
    rw [List.forall_mem_cons, ← ih hrest]
    constructor
    · rintro ⟨ha, halong⟩
      exact ⟨ha, halong s₁ hs₁⟩
    · rintro ⟨ha, halong⟩
      exact .cons ha hs₁ halong

/-- **What every step keeps, every run keeps**, as long as its steps meet
the condition. -/
theorem run_invariant_along {inv : σ → Prop}
    (hstep : ∀ s a s', inv s → cond s a → step s a = some s' → inv s') :
    ∀ {s s' : σ} {as : List α}, inv s → Along step cond s as → run step s as = some s' →
      inv s' := by
  intro s s' as
  induction as generalizing s with
  | nil =>
    intro hs _ hrun
    cases hrun
    exact hs
  | cons a as ih =>
    intro hs halong hrun
    obtain ⟨s₁, hs₁, hrun⟩ := run_cons hrun
    exact ih (hstep s a s₁ hs halong.1 hs₁) (halong.2 s₁ hs₁) hrun

/-- The same without a condition. -/
theorem run_invariant {inv : σ → Prop}
    (hstep : ∀ s a s', inv s → step s a = some s' → inv s') {s s' : σ} {as : List α}
    (hs : inv s) (hrun : run step s as = some s') : inv s' := by
  have halong : ∀ (as : List α) (s : σ), Along step (fun _ _ => True) s as := by
    intro as
    induction as with
    | nil => intro s; trivial
    | cons a as ih => intro s; exact ⟨trivial, fun s' _ => ih s'⟩
  exact run_invariant_along (fun s a s' h _ => hstep s a s' h) hs (halong as s) hrun

/-- **A run that does not raise a measure meets the condition**, where no
step lowers the measure and every step against the condition raises it. -/
theorem along_of_measure_le {β : Type*} [Preorder β] {m : σ → β}
    (hle : ∀ s a s', step s a = some s' → m s ≤ m s')
    (hlt : ∀ s a s', step s a = some s' → ¬ cond s a → m s < m s') :
    ∀ {s s' : σ} {as : List α}, run step s as = some s' → m s' ≤ m s → Along step cond s as := by
  have hmono : ∀ {s s' : σ} {as : List α}, run step s as = some s' → m s ≤ m s' := by
    intro s s' as hrun
    have hstep : ∀ t a t', m s ≤ m t → step t a = some t' → m s ≤ m t' :=
      fun t a t' h ht => h.trans (hle t a t' ht)
    exact run_invariant hstep le_rfl hrun
  intro s s' as
  induction as generalizing s with
  | nil => intro _ _; trivial
  | cons a as ih =>
    intro hrun hm
    obtain ⟨s₁, hs₁, hrest⟩ := run_cons hrun
    have hback : m s' ≤ m s₁ := hm.trans (hle s a s₁ hs₁)
    refine ⟨?_, fun s₂ hs₂ => ?_⟩
    · by_contra hcond
      exact absurd ((hlt s a s₁ hs₁ hcond).trans_le (hmono hrest)) (not_lt_of_ge hm)
    · rw [hs₁, Option.some.injEq] at hs₂
      exact hs₂ ▸ ih hrest hback

/-- **Simulation.** Where each step that meets a condition is matched by one
step of another system or by none, so is a run of such steps. -/
theorem run_simulates {τ β : Type*} {step' : τ → β → Option τ} {rel : σ → τ → Prop}
    {abs : α → Option β}
    (hstep : ∀ s a s' t, rel s t → cond s a → step s a = some s' →
      ∃ t', run step' t (abs a).toList = some t' ∧ rel s' t') :
    ∀ {s s' : σ} {as : List α} {t : τ}, rel s t → Along step cond s as → run step s as = some s' →
      ∃ t', run step' t (as.filterMap abs) = some t' ∧ rel s' t' := by
  intro s s' as
  induction as generalizing s with
  | nil =>
    intro t hrel _ hrun
    cases hrun
    exact ⟨t, rfl, hrel⟩
  | cons a as ih =>
    intro t hrel halong hrun
    obtain ⟨s₁, hs₁, hrest⟩ := run_cons hrun
    obtain ⟨t₁, ht₁, hrel₁⟩ := hstep s a s₁ t hrel halong.1 hs₁
    obtain ⟨t', ht', hrel'⟩ := ih hrel₁ (halong.2 s₁ hs₁) hrest
    refine ⟨t', ?_, hrel'⟩
    have hsplit : (a :: as).filterMap abs = (abs a).toList ++ as.filterMap abs := by
      cases habs : abs a <;> simp [habs]
    rw [hsplit, run_append, ht₁]
    exact ht'

/-- Where every step keeps what is good exactly under a condition, a run does
exactly where each of its actions meets the condition. -/
theorem along_iff_of_step {inv good : σ → Prop}
    (hinv : ∀ s a s', inv s → step s a = some s' → inv s')
    (hgood : ∀ s a s', inv s → step s a = some s' → (good s' ↔ good s ∧ cond s a)) :
    ∀ {s s' : σ} {as : List α}, inv s → run step s as = some s' →
      (good s' ↔ good s ∧ Along step cond s as) := by
  intro s s' as
  induction as generalizing s with
  | nil =>
    intro _ hrun
    cases hrun
    exact (and_iff_left trivial).symm
  | cons a as ih =>
    intro hs hrun
    obtain ⟨s₁, hs₁, hrest⟩ := run_cons hrun
    have hall : Along step cond s (a :: as) ↔ cond s a ∧ Along step cond s₁ as :=
      ⟨fun h => ⟨h.1, h.2 s₁ hs₁⟩, fun h => h.2.cons h.1 hs₁⟩
    rw [ih (hinv s a s₁ hs hs₁) hrest, hgood s a s₁ hs hs₁, hall, and_assoc]

/-- **A run that does not end in a trap meets the condition**, where every
step against the condition falls into the trap and no step leaves it. -/
theorem along_of_trap {inv bad : σ → Prop}
    (hinv : ∀ s a s', inv s → step s a = some s' → inv s')
    (hkeep : ∀ s a s', inv s → bad s → step s a = some s' → bad s')
    (hfall : ∀ s a s', inv s → step s a = some s' → ¬ cond s a → bad s') :
    ∀ {s s' : σ} {as : List α}, inv s → run step s as = some s' → ¬ bad s' →
      Along step cond s as := by
  have hstay : ∀ s a s', inv s ∧ bad s → step s a = some s' → inv s' ∧ bad s' :=
    fun s a s' h hs => ⟨hinv s a s' h.1 hs, hkeep s a s' h.1 h.2 hs⟩
  intro s s' as
  induction as generalizing s with
  | nil => intro _ _ _; trivial
  | cons a as ih =>
    intro hs hrun hgood
    obtain ⟨s₁, hs₁, hrest⟩ := run_cons hrun
    have hi := hinv s a s₁ hs hs₁
    refine ⟨?_, fun s₂ hs₂ => ?_⟩
    · by_contra hcond
      exact hgood (run_invariant hstay ⟨hi, hfall s a s₁ hs hs₁ hcond⟩ hrest).2
    · rw [hs₁, Option.some.injEq] at hs₂
      exact hs₂ ▸ ih hi hrest hgood

/-- **A run that is good all along meets the condition**, where the first step
against it is never good. -/
theorem along_of_good {inv good : σ → Prop}
    (hinv : ∀ s a s', inv s → cond s a → step s a = some s' → inv s')
    (hbad : ∀ s a s', inv s → step s a = some s' → ¬ cond s a → ¬ good s') :
    ∀ {s s' : σ} {as : List α}, inv s → run step s as = some s' →
      (∀ bs t, bs <+: as → run step s bs = some t → good t) → Along step cond s as := by
  intro s s' as
  induction as generalizing s with
  | nil => intro _ _ _; trivial
  | cons a as ih =>
    intro hs hrun hgood
    obtain ⟨s₁, hs₁, hrest⟩ := run_cons hrun
    have hfirst : good s₁ := hgood [a] s₁ (List.prefix_append [a] as) (by simp [run, hs₁])
    have hcond : cond s a := by
      by_contra hcond
      exact hbad s a s₁ hs hs₁ hcond hfirst
    refine .cons hcond hs₁ (ih (hinv s a s₁ hs hcond hs₁) hrest fun bs t hbs ht => ?_)
    exact hgood (a :: bs) t (List.cons_prefix_cons.mpr ⟨rfl, hbs⟩) (by simp [run, hs₁, ht])

/-! ## One thread of many -/

/-- The list around the thread number `i`, and what setting it does. -/
theorem exists_split_of_getElem? {l : List α} {i : Nat} {x : α} (h : l[i]? = some x) :
    ∃ before after, l = before ++ x :: after ∧ before.length = i ∧
      ∀ y, l.set i y = before ++ y :: after := by
  obtain ⟨hi, rfl⟩ := List.getElem?_eq_some_iff.mp h
  refine ⟨l.take i, l.drop (i + 1), ?_, ?_, fun y => ?_⟩
  · rw [← List.drop_eq_getElem_cons hi, List.take_append_drop]
  · rw [List.length_take]
    omega
  · rw [List.set_eq_take_append_cons_drop, if_pos hi]

/-- A total over the threads, after one was set. -/
theorem sum_map_set {l : List α} {i : Nat} {x : α} (h : l[i]? = some x) (f : α → Nat) (y : α) :
    ((l.set i y).map f).sum + f x = (l.map f).sum + f y := by
  obtain ⟨before, after, rfl, -, hset⟩ := exists_split_of_getElem? h
  rw [hset y]
  simp only [List.map_append, List.map_cons, List.sum_append, List.sum_cons]
  omega

/-- A total that is as large as it can be is so in each thread. -/
theorem eq_one_of_sum_map {l : List α} {f : α → Nat} (hle : ∀ x ∈ l, f x ≤ 1)
    (hsum : l.length ≤ (l.map f).sum) : ∀ x ∈ l, f x = 1 := by
  have hbound : ∀ l' : List α, (∀ x ∈ l', f x ≤ 1) → (l'.map f).sum ≤ l'.length := by
    intro l' hl'
    induction l' with
    | nil => simp
    | cons y l' ih =>
      have hy := hl' y List.mem_cons_self
      have hrest := ih fun x hx => hl' x (List.mem_cons_of_mem y hx)
      simp only [List.map_cons, List.sum_cons, List.length_cons]
      omega
  intro x hx
  obtain ⟨before, after, rfl⟩ := List.append_of_mem hx
  have hx' := hle x hx
  have hbefore := hbound before fun y hy => hle y (List.mem_append_left _ hy)
  have hafter := hbound after fun y hy =>
    hle y (List.mem_append_right _ (List.mem_cons_of_mem x hy))
  simp only [List.map_append, List.map_cons, List.sum_append, List.sum_cons, List.length_append,
    List.length_cons] at hsum
  omega

/-- Another thread `j` after thread `i` was set. -/
theorem getElem?_set_eq_ite {l : List α} {i : Nat} {x : α} (h : l[i]? = some x) (y : α) (j : Nat) :
    (l.set i y)[j]? = if i = j then some y else l[j]? := by
  obtain ⟨hlt, -⟩ := List.getElem?_eq_some_iff.mp h
  by_cases hij : i = j
  · subst hij
    rw [List.getElem?_set_self hlt, if_pos rfl]
  · rw [List.getElem?_set_ne hij, if_neg hij]

theorem getElem?_set_cases {l : List α} {i j : Nat} {x y z : α} (h : l[i]? = some x)
    (hj : (l.set i y)[j]? = some z) : j = i ∧ z = y ∨ j ≠ i ∧ l[j]? = some z := by
  rw [getElem?_set_eq_ite h] at hj
  split at hj
  · rename_i hij
    exact .inl ⟨hij.symm, (Option.some.inj hj).symm⟩
  · rename_i hij
    exact .inr ⟨Ne.symm hij, hj⟩

theorem getElem?_concat_cases {l : List α} {i : Nat} {x y : α} (h : (l ++ [x])[i]? = some y) :
    l[i]? = some y ∨ i = l.length ∧ y = x := by
  rcases Nat.lt_or_ge i l.length with hi | hi
  · exact .inl (by rwa [List.getElem?_append_left hi] at h)
  · rw [List.getElem?_append_right hi, List.getElem?_singleton] at h
    split at h
    · rename_i hz
      exact .inr ⟨by omega, (Option.some.inj h).symm⟩
    · cases h

end StepSystem

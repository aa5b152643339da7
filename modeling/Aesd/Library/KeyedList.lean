/-
Aesd.Library.KeyedList — a list that is written at its front and searched by
key, and what its history says about an operation that comes late.

An operation adds an element at the front, or edits the first element of a
key: it puts another element of that key in its place, or none. `history`
carries the operations out in order and labels each element with the
operation that added it.

An operation of a concurrent list may go on from an element that it found
earlier. `history_insert_edit` is the rule for that: an edit of the first
element behind the element `e`, of the same key, is an ordinary edit in the
history where it comes earlier, right before `e` was added.
-/
import Mathlib.Data.List.Induction

namespace KeyedList

/-! ## The first element that meets a condition -/

section EditFirst

variable {α : Type*} {p q : α → Bool} {f g : α → Option α}

/-- Put `f x` in the place of the first element `x` that meets `p`. -/
def editFirst (p : α → Bool) (f : α → Option α) : List α → List α
  | [] => []
  | x :: xs => if p x then (f x).toList ++ xs else x :: editFirst p f xs

@[simp] theorem editFirst_nil : editFirst p f [] = [] := rfl

theorem editFirst_cons_of_pos {x : α} (h : p x = true) (xs : List α) :
    editFirst p f (x :: xs) = (f x).toList ++ xs := if_pos h

theorem editFirst_cons_of_neg {x : α} (h : p x = false) (xs : List α) :
    editFirst p f (x :: xs) = x :: editFirst p f xs := if_neg (Bool.not_eq_true _ ▸ h)

theorem editFirst_append_of_forall_not {xs : List α} (h : ∀ x ∈ xs, p x = false) (ys : List α) :
    editFirst p f (xs ++ ys) = xs ++ editFirst p f ys := by
  induction xs with
  | nil => rfl
  | cons x xs ih =>
    rw [List.cons_append, editFirst_cons_of_neg (h x List.mem_cons_self),
      ih fun y hy => h y (List.mem_cons_of_mem x hy), List.cons_append]

theorem editFirst_some (xs : List α) : editFirst p some xs = xs := by
  induction xs with
  | nil => rfl
  | cons x xs ih =>
    cases hp : p x with
    | true => exact editFirst_cons_of_pos hp xs
    | false => rw [editFirst_cons_of_neg hp, ih]

/-- An edit of elements that are seen through `h`. -/
theorem map_editFirst {β : Type*} {h : α → β} {p' : β → Bool} {f' : β → Option β}
    (hp : ∀ x, p' (h x) = p x) (hf : ∀ x, (f x).map h = f' (h x)) (xs : List α) :
    (editFirst p f xs).map h = editFirst p' f' (xs.map h) := by
  induction xs with
  | nil => rfl
  | cons x xs ih =>
    rw [List.map_cons]
    cases hx : p x with
    | true =>
      rw [editFirst_cons_of_pos hx, editFirst_cons_of_pos ((hp x).trans hx), List.map_append,
        ← hf, Option.toList_map]
    | false =>
      rw [editFirst_cons_of_neg hx, editFirst_cons_of_neg ((hp x).trans hx), List.map_cons, ih]

theorem mem_editFirst {xs : List α} {y : α} (h : y ∈ editFirst p f xs) :
    y ∈ xs ∨ ∃ x ∈ xs, p x = true ∧ y ∈ f x := by
  induction xs with
  | nil => exact absurd h List.not_mem_nil
  | cons x xs ih =>
    cases hp : p x with
    | true =>
      rw [editFirst_cons_of_pos hp, List.mem_append, Option.mem_toList] at h
      rcases h with h | h
      · exact .inr ⟨x, List.mem_cons_self, hp, h⟩
      · exact .inl (List.mem_cons_of_mem x h)
    | false =>
      rw [editFirst_cons_of_neg hp, List.mem_cons] at h
      rcases h with rfl | h
      · exact .inl List.mem_cons_self
      · rcases ih h with h | ⟨z, hz, hzy⟩
        · exact .inl (List.mem_cons_of_mem x h)
        · exact .inr ⟨z, List.mem_cons_of_mem x hz, hzy⟩

/-- An element is left alone, unless it is the one that is edited. -/
theorem mem_editFirst_of_mem {xs : List α} {x : α} (h : x ∈ xs) :
    x ∈ editFirst p f xs ∨ p x = true ∧ ∀ y ∈ f x, y ∈ editFirst p f xs := by
  induction xs with
  | nil => exact absurd h List.not_mem_nil
  | cons z xs ih =>
    cases hp : p z with
    | true =>
      rw [editFirst_cons_of_pos hp]
      rcases List.mem_cons.mp h with rfl | h
      · refine .inr ⟨hp, fun y hy => List.mem_append_left _ ?_⟩
        rwa [Option.mem_toList]
      · exact .inl (List.mem_append_right _ h)
    | false =>
      rw [editFirst_cons_of_neg hp]
      rcases List.mem_cons.mp h with rfl | h
      · exact .inl List.mem_cons_self
      · rcases ih h with h | ⟨hx, hy⟩
        · exact .inl (List.mem_cons_of_mem z h)
        · exact .inr ⟨hx, fun y hyx => List.mem_cons_of_mem z (hy y hyx)⟩

/-- Edits of different elements may change places. -/
theorem editFirst_comm (hpq : ∀ x, p x = true → q x = false)
    (hf : ∀ x, ∀ y ∈ f x, q y = q x) (hg : ∀ x, ∀ y ∈ g x, p y = p x) (xs : List α) :
    editFirst p f (editFirst q g xs) = editFirst q g (editFirst p f xs) := by
  induction xs with
  | nil => rfl
  | cons x xs ih =>
    cases hp : p x with
    | true =>
      have hq := hpq x hp
      have hfx : ∀ y ∈ (f x).toList, q y = false := fun y hy =>
        (hf x y (Option.mem_toList.mp hy)).trans hq
      rw [editFirst_cons_of_neg hq, editFirst_cons_of_pos hp, editFirst_cons_of_pos hp,
        editFirst_append_of_forall_not hfx]
    | false =>
      cases hq : q x with
      | true =>
        have hgx : ∀ y ∈ (g x).toList, p y = false := fun y hy =>
          (hg x y (Option.mem_toList.mp hy)).trans hp
        rw [editFirst_cons_of_pos hq, editFirst_cons_of_neg hp, editFirst_cons_of_pos hq,
          editFirst_append_of_forall_not hgx]
      | false =>
        rw [editFirst_cons_of_neg hq, editFirst_cons_of_neg hp, editFirst_cons_of_neg hp,
          editFirst_cons_of_neg hq, ih]

/-- The list before an edit, around an element of the list after it: the edit
was done before that element or to it, whatever comes behind it, or behind it. -/
theorem editFirst_eq_append {xs before rest : List α} {e : α}
    (h : editFirst p f xs = before ++ e :: rest) :
    (∃ before' e', xs = before' ++ e' :: rest ∧ (e = e' ∨ e ∈ f e') ∧
      ∀ t, editFirst p f (before' ++ e' :: t) = before ++ e :: t) ∨
    ∃ rest', xs = before ++ e :: rest' ∧ p e = false ∧ editFirst p f rest' = rest ∧
      ∀ t, editFirst p f (before ++ e :: t) = before ++ e :: editFirst p f t := by
  induction xs generalizing before with
  | nil => simp at h
  | cons x xs ih =>
    cases hp : p x with
    | true =>
      rw [editFirst_cons_of_pos hp] at h
      left
      cases hfx : f x with
      | none =>
        rw [hfx, Option.toList_none, List.nil_append] at h
        refine ⟨x :: before, e, by rw [h, List.cons_append], .inl rfl, fun t => ?_⟩
        rw [List.cons_append, editFirst_cons_of_pos hp, hfx, Option.toList_none, List.nil_append]
      | some y =>
        rw [hfx, Option.toList_some, List.singleton_append] at h
        cases before with
        | nil =>
          obtain ⟨rfl, rfl⟩ := List.cons.inj h
          refine ⟨[], x, rfl, .inr hfx, fun t => ?_⟩
          rw [List.nil_append, editFirst_cons_of_pos hp, hfx]
          rfl
        | cons z before =>
          obtain ⟨rfl, rfl⟩ := List.cons.inj h
          refine ⟨x :: before, e, rfl, .inl rfl, fun t => ?_⟩
          rw [List.cons_append, editFirst_cons_of_pos hp, hfx]
          rfl
    | false =>
      rw [editFirst_cons_of_neg hp] at h
      cases before with
      | nil =>
        obtain ⟨rfl, hrest⟩ := List.cons.inj h
        exact .inr ⟨xs, rfl, hp, hrest, fun t => editFirst_cons_of_neg hp t⟩
      | cons z before =>
        obtain ⟨rfl, hrest⟩ := List.cons.inj h
        rcases ih hrest with ⟨before', e', rfl, he, ht⟩ | ⟨rest', rfl, he, hr, ht⟩
        · refine .inl ⟨x :: before', e', rfl, he, fun t => ?_⟩
          rw [List.cons_append, editFirst_cons_of_neg hp, ht, List.cons_append]
        · refine .inr ⟨rest', rfl, he, hr, fun t => ?_⟩
          rw [List.cons_append, editFirst_cons_of_neg hp, ht, List.cons_append]

end EditFirst

/-! ## Operations and their history -/

variable {ι β κ γ : Type*} [DecidableEq κ]

inductive Op (β κ : Type*) where
  | push (x : β)
  | edit (k : κ) (f : β → Option β)

/-- The entry holds an element of key `k`. -/
def hasKey (key : β → κ) (k : κ) (e : ι × β) : Bool := key e.2 = k

/-- An edit leaves the label. -/
def editEntry (f : β → Option β) (e : ι × β) : Option (ι × β) := (f e.2).map (Prod.mk e.1)

/-- The entries after the operation `i`. -/
def step (key : β → κ) (op : ι → Op β κ) (entries : List (ι × β)) (i : ι) : List (ι × β) :=
  match op i with
  | .push x => (i, x) :: entries
  | .edit k f => editFirst (hasKey key k) (editEntry f) entries

/-- The entries after the operations, one after the other. -/
def history (key : β → κ) (op : ι → Op β κ) (is : List ι) : List (ι × β) :=
  is.foldl (step key op) []

variable {key : β → κ} {op : ι → Op β κ}

@[simp] theorem hasKey_eq_true {k : κ} {e : ι × β} : hasKey key k e = true ↔ key e.2 = k :=
  decide_eq_true_iff

@[simp] theorem hasKey_eq_false {k : κ} {e : ι × β} : hasKey key k e = false ↔ key e.2 ≠ k :=
  decide_eq_false_iff_not

theorem mem_editEntry {f : β → Option β} {e e' : ι × β} :
    e' ∈ editEntry f e ↔ e'.1 = e.1 ∧ e'.2 ∈ f e.2 := by
  obtain ⟨i, x⟩ := e
  obtain ⟨j, y⟩ := e'
  simp only [editEntry, Option.mem_def, Option.map_eq_some_iff, Prod.mk.injEq]
  constructor
  · rintro ⟨z, hz, rfl, rfl⟩
    exact ⟨rfl, hz⟩
  · rintro ⟨rfl, hy⟩
    exact ⟨y, hy, rfl, rfl⟩

theorem step_push {i : ι} {x : β} (h : op i = .push x) (entries : List (ι × β)) :
    step key op entries i = (i, x) :: entries := by
  simp only [step, h]

theorem step_edit {i : ι} {k : κ} {f : β → Option β} (h : op i = .edit k f)
    (entries : List (ι × β)) :
    step key op entries i = editFirst (hasKey key k) (editEntry f) entries := by
  simp only [step, h]

@[simp] theorem history_nil : history key op [] = [] := rfl

@[simp] theorem history_concat (is : List ι) (i : ι) :
    history key op (is ++ [i]) = step key op (history key op is) i :=
  List.foldl_append

/-- Every edit puts elements of the same key in the place of an element. -/
def KeepsKeys (key : β → κ) (op : ι → Op β κ) : Prop :=
  ∀ i k f, op i = .edit k f → ∀ x, ∀ y ∈ f x, key y = key x

/-- An entry is labelled with the operation that added an element of its
key. -/
theorem exists_push_of_mem_history (hkeep : KeepsKeys key op) {is : List ι} {e : ι × β}
    (he : e ∈ history key op is) : e.1 ∈ is ∧ ∃ x, op e.1 = .push x ∧ key x = key e.2 := by
  induction is using List.reverseRecOn generalizing e with
  | nil => exact absurd he List.not_mem_nil
  | append_singleton is i ih =>
    rw [history_concat] at he
    cases hop : op i with
    | push x =>
      rw [step_push hop, List.mem_cons] at he
      rcases he with rfl | he
      · exact ⟨by simp, x, hop, rfl⟩
      · exact (ih he).imp_left (List.mem_append_left _)
    | edit k f =>
      rw [step_edit hop] at he
      rcases mem_editFirst he with he | ⟨e', he', -, hmem⟩
      · exact (ih he).imp_left (List.mem_append_left _)
      · obtain ⟨hlabel, hval⟩ := mem_editEntry.mp hmem
        obtain ⟨hin, x, hx, hkey⟩ := ih he'
        rw [hlabel]
        exact ⟨List.mem_append_left _ hin, x, hx, hkey.trans (hkeep i k f hop _ _ hval).symm⟩

/-- An element stays, as far as no edit changes it, when no operation removes
an element of its key. -/
theorem mem_history_of_push {g : β → γ} (hg : ∀ i k f, op i = .edit k f → ∀ x, ∀ y ∈ f x, g y = g x)
    {is : List ι} {i : ι} {x : β} (hi : i ∈ is) (hx : op i = .push x)
    (hstay : ∀ j ∈ is, ∀ k f, op j = .edit k f → k = key x → ∀ y, (f y).isSome = true)
    (hkey : ∀ y, g y = g x → key y = key x) : ∃ y, (i, y) ∈ history key op is ∧ g y = g x := by
  induction is using List.reverseRecOn with
  | nil => exact absurd hi List.not_mem_nil
  | append_singleton is j ih =>
    rw [history_concat]
    by_cases hin : i ∈ is
    · obtain ⟨y, hy, hgy⟩ := ih hin fun l hl => hstay l (List.mem_append_left _ hl)
      cases hop : op j with
      | push z => exact ⟨y, by rw [step_push hop]; exact List.mem_cons_of_mem _ hy, hgy⟩
      | edit k f =>
        rw [step_edit hop]
        rcases mem_editFirst_of_mem (p := hasKey key k) (f := editEntry f) hy with hy | ⟨hp, hy⟩
        · exact ⟨y, hy, hgy⟩
        · have hk : k = key x := (hasKey_eq_true.mp hp).symm.trans (hkey y hgy)
          obtain ⟨z, hz⟩ := Option.isSome_iff_exists.mp (hstay j (by simp) k f hop hk y)
          exact ⟨z, hy (i, z) (mem_editEntry.mpr ⟨rfl, hz⟩), (hg j k f hop y z hz).trans hgy⟩
    · have hij : i = j := by simpa [hin] using hi
      subst hij
      exact ⟨x, by rw [step_push hx]; exact List.mem_cons_self, rfl⟩

/-! ## An edit that comes late -/

/-- **An edit behind an element of its key** is an ordinary edit right before
that element was added. -/
theorem history_insert_edit (hkeep : KeepsKeys key op) {c : ι} {k : κ} {g : β → Option β}
    (hc : op c = .edit k g) {is : List ι} {before rest : List (ι × β)} {e : ι × β}
    (h : history key op is = before ++ e :: rest) (he : key e.2 = k) :
    ∃ is₁ is₂, is = is₁ ++ e.1 :: is₂ ∧
      history key op (is₁ ++ c :: e.1 :: is₂)
        = before ++ e :: editFirst (hasKey key k) (editEntry g) rest := by
  induction is using List.reverseRecOn generalizing before rest e with
  | nil => simp at h
  | append_singleton is j ih =>
    rw [history_concat] at h
    -- the operation `j` stays the last one, unless it added `e` itself
    have later : ∀ {before' rest' : List (ι × β)} {e' : ι × β},
        history key op is = before' ++ e' :: rest' → key e'.2 = k → e'.1 = e.1 →
        step key op (before' ++ e' :: editFirst (hasKey key k) (editEntry g) rest') j
          = before ++ e :: editFirst (hasKey key k) (editEntry g) rest →
        ∃ is₁ is₂, is ++ [j] = is₁ ++ e.1 :: is₂ ∧
          history key op (is₁ ++ c :: e.1 :: is₂)
            = before ++ e :: editFirst (hasKey key k) (editEntry g) rest := by
      intro before' rest' e' hsplit hkey hlabel hstep
      obtain ⟨is₁, is₂, rfl, hist⟩ := ih hsplit hkey
      rw [hlabel] at hist ⊢
      refine ⟨is₁, is₂ ++ [j], by simp, ?_⟩
      rw [show is₁ ++ c :: e.1 :: (is₂ ++ [j]) = (is₁ ++ c :: e.1 :: is₂) ++ [j] by simp,
        history_concat, hist, hstep]
    cases hop : op j with
    | push x =>
      rw [step_push hop] at h
      cases before with
      | nil =>
        obtain ⟨rfl, rfl⟩ := List.cons.inj h
        refine ⟨is, [], rfl, ?_⟩
        rw [show is ++ [c, j] = (is ++ [c]) ++ [j] by simp, history_concat, history_concat,
          step_edit hc, step_push hop, List.nil_append]
      | cons z before =>
        obtain ⟨rfl, hrest⟩ := List.cons.inj h
        refine later hrest he rfl ?_
        rw [step_push hop, List.cons_append]
    | edit k' f =>
      rw [step_edit hop] at h
      rcases editFirst_eq_append h with ⟨before', e', hxs, hedit, ht⟩ | ⟨rest', hxs, hp, hr, ht⟩
      · have hsame : key e'.2 = k ∧ e'.1 = e.1 := by
          rcases hedit with rfl | hmem
          · exact ⟨he, rfl⟩
          · obtain ⟨hlabel, hval⟩ := mem_editEntry.mp hmem
            exact ⟨(hkeep j k' f hop _ _ hval).symm.trans he, hlabel.symm⟩
        refine later hxs hsame.1 hsame.2 ?_
        rw [step_edit hop, ht]
      · have hne : k ≠ k' := he ▸ hasKey_eq_false.mp hp
        have hkey : ∀ {i k₁ f₁}, op i = .edit k₁ f₁ → ∀ k₂ (x : ι × β), ∀ y ∈ editEntry f₁ x,
            hasKey key k₂ y = hasKey key k₂ x := by
          intro i k₁ f₁ hi k₂ x y hy
          unfold hasKey
          rw [hkeep i k₁ f₁ hi _ _ (mem_editEntry.mp hy).2]
        refine later hxs he rfl ?_
        rw [step_edit hop, ht, ← hr]
        congr 2
        refine editFirst_comm (fun x hx => ?_) (hkey hop k) (hkey hc k') rest'
        rw [hasKey_eq_true] at hx
        rw [hasKey_eq_false, hx]
        exact hne.symm

/-- **An edit that comes late** edits the first element of its key in a rest
of the list. It is an ordinary edit, as the last one or right before an
element of its key that it passed over was added. -/
theorem history_late_edit (hkeep : KeepsKeys key op) {c : ι} {k : κ} {g : β → Option β}
    (hc : op c = .edit k g) {is : List ι} {before rest : List (ι × β)}
    (h : history key op is = before ++ rest) :
    ∃ is₁ is₂, is = is₁ ++ is₂ ∧
      history key op (is₁ ++ c :: is₂)
        = before ++ editFirst (hasKey key k) (editEntry g) rest ∧
      ∀ i ∈ is₂.head?, ∃ e ∈ before, key e.2 = k ∧ e.1 = i := by
  induction before using List.reverseRecOn generalizing rest with
  | nil =>
    refine ⟨is, [], (List.append_nil is).symm, ?_, nofun⟩
    rw [history_concat, step_edit hc, h]
    rfl
  | append_singleton before e ih =>
    rw [List.append_assoc, List.singleton_append] at h
    rw [List.append_assoc, List.singleton_append]
    by_cases he : key e.2 = k
    · obtain ⟨is₁, is₂, rfl, hist⟩ := history_insert_edit hkeep hc h he
      refine ⟨is₁, e.1 :: is₂, rfl, hist, fun i hi => ⟨e, by simp, he, ?_⟩⟩
      simpa using hi
    · obtain ⟨is₁, is₂, rfl, hist, hhead⟩ := ih h
      rw [editFirst_cons_of_neg (hasKey_eq_false.mpr he)] at hist
      refine ⟨is₁, is₂, rfl, hist, fun i hi => ?_⟩
      obtain ⟨e', he', hfirst⟩ := hhead i hi
      exact ⟨e', List.mem_append_left _ he', hfirst⟩

end KeyedList

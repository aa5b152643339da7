/-
Aesd.Library.Delimited — streams cut into records by a separator, over any
type with decidable equality.

`split sep s` reads `s` once and keeps the complete records (each ending in
its separator) and the unfinished rest. `split_append` is the law a reader
that receives the stream in pieces needs: splitting a longer stream goes on
from the split of its first part. `segments` cuts one piece at its
separators, the last segment being the piece's own unfinished rest.

Facts about whole streams are proved by `recordInduction`: a stream has no
separator, or it is a first record followed by a shorter stream.
-/
import Mathlib.Data.List.Basic

namespace Delimited

variable {α : Type*} [DecidableEq α] (sep : α)

/-! ## Splitting a stream -/

/-- Read one more element: a separator completes the open record. -/
def feed (s : List (List α) × List α) (b : α) : List (List α) × List α :=
  if b = sep then (s.1 ++ [s.2 ++ [b]], []) else (s.1, s.2 ++ [b])

/-- The complete records of a stream, and what follows its last separator. -/
def split (s : List α) : List (List α) × List α :=
  s.foldl (feed sep) ([], [])

/-- The separator-terminated records of a stream, each with its separator. -/
def lines (s : List α) : List (List α) := (split sep s).1

/-- What follows the last separator of a stream. -/
def rest (s : List α) : List α := (split sep s).2

theorem foldl_feed_noSep {bs : List α} (h : sep ∉ bs) (s : List (List α) × List α) :
    bs.foldl (feed sep) s = (s.1, s.2 ++ bs) := by
  induction bs generalizing s with
  | nil => simp
  | cons b bs ih =>
    have hb : b ≠ sep := fun e => h (by simp [e])
    have hbs : sep ∉ bs := fun e => h (by simp [e])
    rw [List.foldl_cons, ih hbs, feed, if_neg hb]
    simp

/-- The records already complete are never reopened. -/
theorem foldl_feed_fst (t : List α) (s : List (List α) × List α) :
    t.foldl (feed sep) s
      = (s.1 ++ (t.foldl (feed sep) ([], s.2)).1, (t.foldl (feed sep) ([], s.2)).2) := by
  induction t generalizing s with
  | nil => simp
  | cons b t ih =>
    rw [List.foldl_cons, List.foldl_cons, ih (feed sep s b), ih (feed sep ([], s.2) b)]
    by_cases hb : b = sep <;> simp [feed, hb]

/-- Splitting goes on from the split of what was read before. -/
theorem split_append (s t : List α) :
    split sep (s ++ t) = t.foldl (feed sep) (split sep s) := by
  simp [split]

/-- The records of a stream are the first records of a longer one. -/
theorem lines_prefix_append (s t : List α) : lines sep s <+: lines sep (s ++ t) := by
  rw [lines, lines, split_append, foldl_feed_fst]
  exact List.prefix_append _ _

/-- A stream without a rest stands by itself. -/
theorem split_append_of_rest {s : List α} (h : rest sep s = []) (t : List α) :
    split sep (s ++ t) = (lines sep s ++ lines sep t, rest sep t) := by
  rw [split_append, foldl_feed_fst, show (split sep s).2 = [] from h]
  rfl

theorem rest_flatten {ss : List (List α)} (h : ∀ s ∈ ss, rest sep s = []) :
    rest sep ss.flatten = [] := by
  induction ss with
  | nil => rfl
  | cons s ss ih =>
    rw [List.forall_mem_cons] at h
    rw [List.flatten_cons, rest, split_append_of_rest sep h.1]
    exact ih h.2

/-- The records of pieces that end in a separator. -/
theorem lines_flatten {ss : List (List α)} (h : ∀ s ∈ ss, rest sep s = []) :
    lines sep ss.flatten = ss.flatMap (lines sep) := by
  induction ss with
  | nil => rfl
  | cons s ss ih =>
    rw [List.forall_mem_cons] at h
    rw [List.flatten_cons, lines, split_append_of_rest sep h.1, List.flatMap_cons, ← ih h.2]

/-! ## The first record -/

/-- Every stream is free of separators or starts with a record. -/
theorem noSep_or_line (s : List α) :
    sep ∉ s ∨ ∃ body more, s = body ++ sep :: more ∧ sep ∉ body := by
  by_cases h : sep ∈ s
  · obtain ⟨body, more, hs, hbody⟩ := List.eq_append_cons_of_mem h
    exact Or.inr ⟨body, more, hs, hbody⟩
  · exact Or.inl h

/-- Induction along the records of a stream. -/
theorem recordInduction {P : List α → Prop}
    (noSep : ∀ s, sep ∉ s → P s)
    (line : ∀ body more, sep ∉ body → P more → P (body ++ sep :: more)) (s : List α) :
    P s := by
  induction hn : s.length using Nat.strongRecOn generalizing s with
  | _ n ih =>
    rcases noSep_or_line sep s with h | ⟨body, more, rfl, hbody⟩
    · exact noSep s h
    · refine line body more hbody (ih more.length ?_ more rfl)
      simp only [List.length_append, List.length_cons] at hn
      omega

/-- A stream without separator is all rest. -/
theorem split_noSep {s : List α} (h : sep ∉ s) : split sep s = ([], s) := by
  rw [split, foldl_feed_noSep sep h]; rfl

/-- Splitting past the first record. -/
theorem split_line {body : List α} (h : sep ∉ body) (more : List α) :
    split sep (body ++ sep :: more)
      = ((body ++ [sep]) :: lines sep more, rest sep more) := by
  rw [split_append, split_noSep sep h, List.foldl_cons]
  simp only [feed, if_true]
  rw [foldl_feed_fst]
  rfl

theorem lines_noSep {s : List α} (h : sep ∉ s) : lines sep s = [] := by
  rw [lines, split_noSep sep h]

theorem rest_noSep {s : List α} (h : sep ∉ s) : rest sep s = s := by
  rw [rest, split_noSep sep h]

theorem lines_line {body : List α} (h : sep ∉ body) (more : List α) :
    lines sep (body ++ sep :: more) = (body ++ [sep]) :: lines sep more := by
  rw [lines, split_line sep h]

theorem rest_line {body : List α} (h : sep ∉ body) (more : List α) :
    rest sep (body ++ sep :: more) = rest sep more := by
  rw [rest, split_line sep h]

/-! ## Segments of one piece -/

/-- The pieces a reader handles one after the other: every record of the
piece and, when it does not end in a separator, what is left. -/
def segments (s : List α) : List (List α) :=
  lines sep s ++ if rest sep s = [] then [] else [rest sep s]

theorem segments_line {body : List α} (h : sep ∉ body) (more : List α) :
    segments sep (body ++ sep :: more) = (body ++ [sep]) :: segments sep more := by
  unfold segments
  simp only [lines_line sep h, rest_line sep h, List.cons_append]

theorem segments_noSep {s : List α} (h : sep ∉ s) :
    segments sep s = if s = [] then [] else [s] := by
  unfold segments
  simp only [lines_noSep sep h, rest_noSep sep h, List.nil_append]

theorem segments_ne_nil {s : List α} (h : s ≠ []) : segments sep s ≠ [] := by
  rcases noSep_or_line sep s with hs | ⟨body, more, rfl, hbody⟩
  · rw [segments_noSep sep hs, if_neg h]
    exact List.cons_ne_nil _ _
  · rw [segments_line sep hbody]
    exact List.cons_ne_nil _ _

/-- The segments are the piece, cut. -/
theorem flatten_segments (s : List α) : (segments sep s).flatten = s := by
  induction s using recordInduction sep with
  | noSep s h =>
    rw [segments_noSep sep h]
    split
    · next hs => rw [hs]; rfl
    · exact List.append_nil s
  | line body more h ih =>
    rw [segments_line sep h, List.flatten_cons, ih]
    simp

/-- All segments but the last are records. -/
theorem flatten_take_segments (s : List α) {i : Nat} (hi : i < (segments sep s).length) :
    ((segments sep s).take i).flatten = [] ∨
      ∃ t, ((segments sep s).take i).flatten = t ++ [sep] := by
  induction s using recordInduction sep generalizing i with
  | noSep s h =>
    rw [segments_noSep sep h] at hi ⊢
    have h0 : i = 0 := by split at hi <;> simp at hi; exact hi
    rw [h0]
    exact Or.inl rfl
  | line body more h ih =>
    rw [segments_line sep h] at hi ⊢
    cases i with
    | zero => exact Or.inl rfl
    | succ i =>
      rw [List.take_succ_cons, List.flatten_cons]
      rcases ih (by simpa using hi) with hnil | ⟨t, ht⟩
      · rw [hnil, List.append_nil]
        exact Or.inr ⟨body, rfl⟩
      · rw [ht, ← List.append_assoc]
        exact Or.inr ⟨_, rfl⟩

/-- The first segments are a prefix of the piece. -/
theorem flatten_take_segments_prefix (s : List α) (i : Nat) :
    ((segments sep s).take i).flatten <+: s := by
  refine ⟨((segments sep s).drop i).flatten, ?_⟩
  rw [← List.flatten_append, List.take_append_drop, flatten_segments]

end Delimited

/-
Aesd.Server.ReplyBuffer — the size of `to_write`, the reply that every
connection extends.

The source keeps no capacity: it is what the last `realloc` asked for, and a
connection asks for one only when the text so far is shorter than its local
buffer. `neverOverflows_iff` says for which sequences of appends that is
enough: those in which what is appended from one `realloc` up to the next
stays within the local buffer of the first and the 500 bytes added to it. The
size of a local buffer goes by the bytes received, and `strcat` by the string
in it, so an append has both numbers.
-/
import Aesd.Server.Receive

namespace Aesd.Server

/-! ## The buffer -/

/-- An append to `to_write`: the `n` bytes of the string in a connection's
`to_write_local`, of which `received` bytes were received, or the `n` bytes of
the date that the timer thread adds. The bytes received decide how large the
local buffer is, and the string what is appended; it is shorter where a NUL was
received, and longer where none follows the bytes in a buffer that was doubled. -/
inductive Append where
  | connection (received n : Nat)
  | timer (n : Nat)
  deriving DecidableEq, Repr

def Append.length : Append → Nat
  | connection _ n => n
  | timer n => n

/-- The allocated size of `to_write` and its `strlen`. -/
structure ReplyBuffer where
  capacity : Nat
  length : Nat
  deriving DecidableEq, Repr

/-- As `socket_listen` sets it up. -/
def ReplyBuffer.init : ReplyBuffer := ⟨bufferSize, 0⟩

/-- What precedes the `strcat`: a connection reallocates when the text is
shorter than its local buffer, the timer never does. -/
def ReplyBuffer.makeRoom (b : ReplyBuffer) : Append → ReplyBuffer
  | .connection received _ =>
    if b.length < localSize received then
      { b with capacity := localSize received + b.length + 500 }
    else b
  | .timer _ => b

/-- The `strcat` stays inside the allocation. -/
def ReplyBuffer.Fits (b : ReplyBuffer) (a : Append) : Prop :=
  b.length + a.length + 1 ≤ (b.makeRoom a).capacity

def ReplyBuffer.strcat (b : ReplyBuffer) (a : Append) : ReplyBuffer :=
  { b.makeRoom a with length := b.length + a.length }

/-- Every `strcat` of a sequence of appends stays inside the allocation. -/
def NeverOverflows : ReplyBuffer → List Append → Prop
  | _, [] => True
  | b, a :: as => b.Fits a ∧ NeverOverflows (b.strcat a) as

/-! ## Stretches without a reallocation -/

/-- The bytes a sequence appends. -/
def total (as : List Append) : Nat := (as.map Append.length).sum

@[simp] theorem total_nil : total [] = 0 := rfl

@[simp] theorem total_cons (a : Append) (as : List Append) :
    total (a :: as) = a.length + total as := rfl

/-- The append reallocates, after `before` bytes of text. -/
def Append.Reallocates (before : Nat) : Append → Prop
  | connection received _ => before < localSize received
  | timer _ => False

instance (before : Nat) (a : Append) : Decidable (a.Reallocates before) := by
  cases a <;> unfold Append.Reallocates <;> infer_instance

/-- No append of the sequence reallocates, after `before` bytes of text. -/
def Quiet : Nat → List Append → Prop
  | _, [] => True
  | before, a :: as => ¬ a.Reallocates before ∧ Quiet (before + a.length) as

/-- The stretches that follow one reallocation and reach no other one have
room in it. `room` is left of the first allocation, after `before` bytes. -/
structure EnoughSlack (room before : Nat) (as : List Append) : Prop where
  first : ∀ stretch, stretch <+: as → stretch ≠ [] → Quiet before stretch →
    total stretch + 1 ≤ room
  later : ∀ start received n stretch, start ++ .connection received n :: stretch <+: as →
    before + total start < localSize received → Quiet (before + total start + n) stretch →
    n + total stretch + 1 ≤ localSize received + 500

theorem ReplyBuffer.makeRoom_quiet {b : ReplyBuffer} {a : Append}
    (h : ¬ a.Reallocates b.length) : b.makeRoom a = b := by
  cases a with
  | connection received n => exact if_neg h
  | timer n => rfl

/-- An append that does not reallocate uses up the room there is. -/
theorem enoughSlack_cons_quiet {room before : Nat} {a : Append} {as : List Append}
    (h : ¬ a.Reallocates before) :
    EnoughSlack room before (a :: as) ↔
      a.length + 1 ≤ room ∧ EnoughSlack (room - a.length) (before + a.length) as := by
  constructor
  · intro hs
    refine ⟨?_, ?_, ?_⟩
    · have := hs.first [a] (by simp) (List.cons_ne_nil _ _) ⟨h, trivial⟩
      simpa using this
    · intro stretch hpre hne hq
      have := hs.first (a :: stretch) (List.cons_prefix_cons.mpr ⟨rfl, hpre⟩)
        (List.cons_ne_nil _ _) ⟨h, hq⟩
      rw [total_cons] at this
      omega
    · intro start received n stretch hpre hlt hq
      refine hs.later (a :: start) received n stretch
        (List.cons_prefix_cons.mpr ⟨rfl, hpre⟩) ?_ ?_
      · rw [total_cons, ← Nat.add_assoc]
        exact hlt
      · rw [total_cons, ← Nat.add_assoc]
        exact hq
  · intro hs
    obtain ⟨hroom, hrest⟩ := hs
    constructor
    · intro stretch hpre hne hq
      cases stretch with
      | nil => exact absurd rfl hne
      | cons a' stretch =>
        obtain ⟨rfl, htail⟩ := List.cons_prefix_cons.mp hpre
        rw [total_cons]
        cases stretch with
        | nil => simpa using hroom
        | cons a'' stretch =>
          have := hrest.first _ htail (List.cons_ne_nil _ _) hq.2
          omega
    · intro start received n stretch hpre hlt hq
      cases start with
      | nil =>
        rw [List.nil_append] at hpre
        obtain ⟨rfl, -⟩ := List.cons_prefix_cons.mp hpre
        exact absurd hlt h
      | cons a' start =>
        rw [List.cons_append] at hpre
        obtain ⟨rfl, htail⟩ := List.cons_prefix_cons.mp hpre
        rw [total_cons, ← Nat.add_assoc] at hlt hq
        exact hrest.later start received n stretch htail hlt hq

/-- One that does starts a stretch of its own. -/
theorem enoughSlack_cons_reallocates {room before received n : Nat} {as : List Append}
    (h : before < localSize received) :
    EnoughSlack room before (.connection received n :: as) ↔
      n + 1 ≤ localSize received + 500 ∧
        EnoughSlack (localSize received + 500 - n) (before + n) as := by
  constructor
  · intro hs
    refine ⟨?_, ?_, ?_⟩
    · exact hs.later [] received n [] (List.cons_prefix_cons.mpr ⟨rfl, List.nil_prefix⟩) h trivial
    · intro stretch hpre hne hq
      have := hs.later [] received n stretch (List.cons_prefix_cons.mpr ⟨rfl, hpre⟩) h hq
      omega
    · intro start received' m stretch hpre hm hq
      refine hs.later (.connection received n :: start) received' m stretch
        (List.cons_prefix_cons.mpr ⟨rfl, hpre⟩) ?_ ?_
      · rw [total_cons, ← Nat.add_assoc]
        exact hm
      · rw [total_cons, ← Nat.add_assoc]
        exact hq
  · intro hs
    obtain ⟨hroom, hrest⟩ := hs
    constructor
    · intro stretch hpre hne hq
      cases stretch with
      | nil => exact absurd rfl hne
      | cons a stretch =>
        obtain ⟨rfl, -⟩ := List.cons_prefix_cons.mp hpre
        exact absurd h hq.1
    · intro start received' m stretch hpre hm hq
      cases start with
      | nil =>
        rw [List.nil_append] at hpre
        obtain ⟨hn, htail⟩ := List.cons_prefix_cons.mp hpre
        cases hn
        cases stretch with
        | nil =>
          rw [total_nil]
          exact hroom
        | cons a stretch =>
          have := hrest.first _ htail (List.cons_ne_nil _ _) hq
          omega
      | cons a start =>
        rw [List.cons_append] at hpre
        obtain ⟨rfl, htail⟩ := List.cons_prefix_cons.mp hpre
        rw [total_cons, ← Nat.add_assoc] at hm hq
        exact hrest.later start received' m stretch htail hm hq

/-! ## Overflow -/

/-- From any buffer: the appends fit exactly when the slack is enough. -/
theorem neverOverflows_from (as : List Append) : ∀ b : ReplyBuffer,
    NeverOverflows b as ↔ EnoughSlack (b.capacity - b.length) b.length as := by
  induction as with
  | nil =>
    intro b
    refine ⟨fun _ => ⟨?_, ?_⟩, fun _ => trivial⟩
    · intro stretch hpre hne
      exact absurd (List.prefix_nil.mp hpre) hne
    · intro start received n stretch hpre
      exact absurd (List.prefix_nil.mp hpre) (by simp)
  | cons a as ih =>
    intro b
    rw [NeverOverflows, ih]
    by_cases hre : a.Reallocates b.length
    · cases a with
      | timer n => exact absurd hre id
      | connection received n =>
        obtain ⟨size, hsize⟩ : ∃ size, localSize received = size := ⟨_, rfl⟩
        have hroom : b.makeRoom (.connection received n)
            = { b with capacity := size + b.length + 500 } := hsize ▸ if_pos hre
        have hcap : size + b.length + 500 - (b.length + n) = size + 500 - n := by omega
        rw [enoughSlack_cons_reallocates hre, hsize, ReplyBuffer.Fits, ReplyBuffer.strcat, hroom]
        show b.length + n + 1 ≤ size + b.length + 500 ∧
            EnoughSlack (size + b.length + 500 - (b.length + n)) (b.length + n) as ↔ _
        rw [hcap]
        exact and_congr_left fun _ => by omega
    · rw [enoughSlack_cons_quiet hre, ReplyBuffer.Fits, ReplyBuffer.strcat,
          ReplyBuffer.makeRoom_quiet hre]
      have hcap : b.capacity - (b.length + a.length) = b.capacity - b.length - a.length := by
        omega
      show b.length + a.length + 1 ≤ b.capacity ∧
          EnoughSlack (b.capacity - (b.length + a.length)) (b.length + a.length) as ↔ _
      rw [hcap]
      constructor
      · exact fun hs => ⟨by omega, hs.2⟩
      · exact fun hs => ⟨by omega, hs.2⟩

/-- **When the reply buffer suffices.** -/
theorem neverOverflows_iff (as : List Append) :
    NeverOverflows .init as ↔ EnoughSlack bufferSize 0 as :=
  neverOverflows_from as .init

/-- Three messages of 1000 bytes: the third finds 2524 bytes and needs
3001. -/
theorem neverOverflows_three_messages :
    ¬ ∀ as : List Append, NeverOverflows .init as := by
  intro hall
  obtain ⟨-, -, hthird, -⟩ :=
    hall [.connection 1000 1000, .connection 1000 1000, .connection 1000 1000]
  have hsize : localSize 1000 = 1024 := localSize_small (by decide)
  simp [ReplyBuffer.Fits, ReplyBuffer.strcat, ReplyBuffer.makeRoom, ReplyBuffer.init,
        Append.length, hsize] at hthird

end Aesd.Server

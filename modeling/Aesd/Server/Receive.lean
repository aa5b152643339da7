/-
Aesd.Server.Receive — the receive loop of `connection_handler` in
`server/socket_core.c`.

The loop runs on the results of successive `read()` calls, chosen by the
network: a non-empty list is what a positive result put into `buffer`, an
empty list a result of 0 or -1. `malloc` and `realloc` succeed, and
`fresh i` is what byte `i` of the local buffer holds when `realloc` first
provides it.

`receive_cons` is one iteration as a fact about the bytes collected so far,
and `localSize` the size the local buffer has after them. The loop takes a
short read for the end of the message: `receive_collects_iff` says for which
divisions of a message into reads that is right.
-/
import Mathlib.Algebra.GroupWithZero.Nat
import Mathlib.Data.List.Infix
import Mathlib.Data.Nat.Size
import Aesd.Library.BlockHeap
import Aesd.Library.CString

namespace Aesd.Server

/-! ## The loop -/

/-- `BUFFER_SIZE`, also `INIT_ALLOCATION`. -/
abbrev bufferSize : Nat := 1024

/-- `AESD_IOCTL_STR`, that is `"AESDCHAR_IOCSEEKTO:"`. -/
def aesdIoctlStr : List UInt8 :=
  [65, 69, 83, 68, 67, 72, 65, 82, 95, 73, 79, 67, 83, 69, 69, 75, 84, 79, 58]

/-- The variables of the loop. -/
structure ReceiveState where
  buffer : List UInt8
  toWriteLocal : List UInt8
  size : Nat
  currentCount : Nat
  deriving DecidableEq

def ReceiveState.init : ReceiveState where
  buffer := List.replicate bufferSize 0
  toWriteLocal := List.replicate bufferSize 0
  size := bufferSize
  currentCount := 0

/-- Where the loop has got to. -/
inductive Received where
  /-- It calls `read()` once more. -/
  | reading (st : ReceiveState)
  /-- It found a command in `buffer` and left for the seek path. -/
  | seek (st : ReceiveState)
  /-- It is done, without having asked for the results `unread`. -/
  | message (st : ReceiveState) (unread : List (List UInt8))
  /-- `memcpy` wrote outside the local buffer. -/
  | fault

/-- The test for the seek path: `memchr` finds a NUL in the buffer and
`strstr` finds the command in the string before it. -/
def isSeekCommand (buffer : List UInt8) : Prop :=
  0 ∈ buffer ∧ aesdIoctlStr <:+: CString.contents buffer

instance (buffer : List UInt8) : Decidable (isSeekCommand buffer) :=
  inferInstanceAs (Decidable (_ ∧ _))

/-- The size doubling section. -/
def growLocal (fresh : Nat → UInt8) (readRet : Nat) (st : ReceiveState) : ReceiveState :=
  if st.size ≤ st.currentCount + readRet then
    { st with
      size := st.size * 2
      toWriteLocal := st.toWriteLocal ++ (List.range' st.size st.size).map fresh }
  else st

/-- The `memcpy` of the bytes read, unless it leaves the local buffer. -/
def copyChunk (chunk : List UInt8) (st : ReceiveState) : Option ReceiveState :=
  if st.currentCount + chunk.length ≤ st.toWriteLocal.length then
    some { st with
      toWriteLocal := BlockHeap.splice st.toWriteLocal st.currentCount chunk
      currentCount := st.currentCount + chunk.length }
  else none

/-- The loop, on the results its `read()` calls are going to have. -/
def receive (fresh : Nat → UInt8) : List (List UInt8) → ReceiveState → Received
  | [], st => .reading st
  | chunk :: rest, st =>
    let readRet := chunk.length
    if readRet = 0 then .message st rest
    else
      let st := { st with buffer := chunk ++ st.buffer.drop readRet }
      if isSeekCommand st.buffer then .seek st
      else
        match copyChunk chunk (growLocal fresh readRet st) with
        | none => .fault
        | some st => if readRet < bufferSize then .message st rest else receive fresh rest st

/-! ## The local buffer -/

/-- The size of the local buffer after `n` bytes: the least doubling of
`INIT_ALLOCATION` that is greater. -/
def localSize (n : Nat) : Nat := bufferSize * 2 ^ (n / bufferSize).size

theorem lt_localSize (n : Nat) : n < localSize n := by
  have hpow : n / 1024 < 2 ^ (n / 1024).size := Nat.lt_size_self _
  show n < 1024 * 2 ^ (n / 1024).size
  omega

theorem localSize_small {n : Nat} (h : n < bufferSize) : localSize n = bufferSize := by
  rw [localSize, Nat.div_eq_of_lt h]
  rfl

/-- Above the first allocation, the local buffer is at most twice what it
holds. -/
theorem localSize_le (n : Nat) : localSize n = bufferSize ∨ localSize n ≤ 2 * n := by
  cases hk : (n / 1024).size with
  | zero =>
    left
    rw [localSize, hk]
    rfl
  | succ k =>
    right
    have hge : 2 ^ k ≤ n / 1024 := Nat.lt_size.mp (by omega)
    show 1024 * 2 ^ (n / 1024).size ≤ 2 * n
    rw [hk, Nat.pow_succ]
    omega

/-- The local buffer is a doubling of the first allocation that is large
enough and not larger than it has to be. -/
theorem localSize_unique {n k : Nat} (hlt : n < 1024 * 2 ^ k)
    (hle : k = 0 ∨ 1024 * 2 ^ k ≤ 2 * n) : localSize n = 1024 * 2 ^ k := by
  have hsize : (n / 1024).size = k := by
    apply Nat.le_antisymm
    · exact Nat.size_le.mpr (by omega)
    · rcases hle with rfl | hle
      · exact Nat.zero_le _
      · cases k with
        | zero => exact Nat.zero_le _
        | succ k =>
          rw [Nat.pow_succ] at hle
          exact Nat.lt_size.mpr (by omega)
  show 1024 * 2 ^ (n / 1024).size = _
  rw [hsize]

/-- At most one doubling goes with one read. -/
theorem localSize_add {n r : Nat} (h : r ≤ bufferSize) :
    localSize (n + r) = if localSize n ≤ n + r then localSize n * 2 else localSize n := by
  have hr : r ≤ 1024 := h
  have hlt := lt_localSize n
  have hle := localSize_le n
  have hform : localSize n = 1024 * 2 ^ (n / 1024).size := rfl
  generalize (n / 1024).size = k at hform
  rw [hform] at hlt hle ⊢
  split
  · rename_i hfull
    have hdouble : 1024 * 2 ^ (k + 1) = 1024 * 2 ^ k * 2 := by
      rw [Nat.pow_succ, Nat.mul_assoc]
    have hone : 1 ≤ 2 ^ k := Nat.one_le_two_pow
    rw [← hdouble]
    exact localSize_unique (by omega) (Or.inr (by omega))
  · refine localSize_unique (by omega) ?_
    rcases hle with hle | hle
    · left
      have hone : 2 ^ k = 2 ^ 0 := by
        have : 1024 * 2 ^ k = 1024 := hle
        omega
      exact Nat.pow_right_injective (Nat.le_refl 2) hone
    · right
      omega

/-! ## One iteration -/

/-- What the loop's variables say about the bytes collected so far: they
are the first `currentCount` bytes of the local buffer, which has the size
that goes with them and room for one byte more. -/
structure ReceiveState.Collected (st : ReceiveState) (data : List UInt8) : Prop where
  buffer_length : st.buffer.length = bufferSize
  count : st.currentCount = data.length
  size : st.size = localSize data.length
  allocated : st.toWriteLocal.length = st.size
  bytes : st.toWriteLocal.take st.currentCount = data

theorem collected_init : ReceiveState.init.Collected [] where
  buffer_length := List.length_replicate
  count := rfl
  size := (localSize_small (by decide)).symm
  allocated := List.length_replicate
  bytes := rfl

theorem ReceiveState.Collected.read {st : ReceiveState} {data chunk : List UInt8}
    (h : st.Collected data) (hle : chunk.length ≤ bufferSize) :
    ({ st with buffer := chunk ++ st.buffer.drop chunk.length } :
      ReceiveState).Collected data := by
  refine ⟨?_, h.count, h.size, h.allocated, h.bytes⟩
  rw [List.length_append, List.length_drop, h.buffer_length]
  omega

theorem growLocal_size (fresh : Nat → UInt8) (readRet : Nat) (st : ReceiveState) :
    (growLocal fresh readRet st).size = st.size ∨
      (growLocal fresh readRet st).size = st.size * 2 := by
  unfold growLocal
  split
  · exact Or.inr rfl
  · exact Or.inl rfl

/-- At most one doubling makes the local buffer as large as the bytes read
ask for, and keeps what it holds. -/
theorem ReceiveState.Collected.grow {st : ReceiveState} {data : List UInt8} {readRet : Nat}
    (h : st.Collected data) (fresh : Nat → UInt8) (hle : readRet ≤ bufferSize) :
    (growLocal fresh readRet st).size = localSize (data.length + readRet) ∧
      (growLocal fresh readRet st).toWriteLocal.length = localSize (data.length + readRet) ∧
      (growLocal fresh readRet st).toWriteLocal.take data.length = data ∧
      (growLocal fresh readRet st).currentCount = data.length ∧
      (growLocal fresh readRet st).buffer = st.buffer := by
  have hroom := lt_localSize data.length
  have hbytes := h.bytes
  rw [h.count] at hbytes
  rw [growLocal, h.size, h.count, localSize_add (n := data.length) hle]
  split
  · refine ⟨rfl, ?_, ?_, rfl, rfl⟩
    · rw [List.length_append, h.allocated, h.size, List.length_map, List.length_range']
      omega
    · rw [List.take_append_of_le_length (by rw [h.allocated, h.size]; omega)]
      exact hbytes
  · exact ⟨h.size, h.allocated.trans h.size, hbytes, h.count, rfl⟩

/-- The copy stays inside the local buffer and appends the bytes read. -/
theorem ReceiveState.Collected.store {st : ReceiveState} {data chunk : List UInt8}
    (h : st.Collected data) (fresh : Nat → UInt8) (hle : chunk.length ≤ bufferSize) :
    ∃ st', copyChunk chunk (growLocal fresh chunk.length st) = some st' ∧
      st'.Collected (data ++ chunk) ∧ st'.buffer = st.buffer := by
  have hlt := lt_localSize (data.length + chunk.length)
  obtain ⟨hsize, halloc, hbytes, hcount, hbuffer⟩ := h.grow fresh hle
  refine ⟨_, if_pos (by rw [halloc, hcount]; omega), ⟨?_, ?_, ?_, ?_, ?_⟩, hbuffer⟩
  · rw [hbuffer]; exact h.buffer_length
  · rw [hcount, List.length_append]
  · rw [hsize, List.length_append]
  · rw [BlockHeap.length_splice (by rw [hcount, halloc]; omega), halloc, hsize]
  · rw [hcount, BlockHeap.splice, hbytes]
    exact List.take_left' (List.length_append ..)

/-- **One iteration.** -/
theorem receive_cons {st : ReceiveState} {data chunk : List UInt8} (h : st.Collected data)
    (fresh : Nat → UInt8) (hne : chunk ≠ []) (hle : chunk.length ≤ bufferSize)
    (rest : List (List UInt8))
    (hcmd : ¬ isSeekCommand (chunk ++ st.buffer.drop chunk.length)) :
    ∃ st', st'.Collected (data ++ chunk) ∧
      st'.buffer = chunk ++ st.buffer.drop chunk.length ∧
      receive fresh (chunk :: rest) st
        = if chunk.length < bufferSize then .message st' rest else receive fresh rest st' := by
  have hpos : ¬ chunk.length = 0 := fun e => hne (List.eq_nil_of_length_eq_zero e)
  obtain ⟨st', hstore, hcoll, hbuffer⟩ := (h.read hle).store fresh hle
  refine ⟨st', hcoll, hbuffer, ?_⟩
  simp only [receive, if_neg hpos, if_neg hcmd, hstore]

/-! ## The reads so far -/

theorem receive_append {fresh : Nat → UInt8} (reads : List (List UInt8)) {st st' : ReceiveState}
    (h : receive fresh reads st = .reading st') (more : List (List UInt8)) :
    receive fresh (reads ++ more) st = receive fresh more st' := by
  induction reads generalizing st with
  | nil =>
    cases h
    rfl
  | cons chunk reads ih =>
    rw [List.cons_append]
    simp only [receive] at h ⊢
    split at h
    · cases h
    · rename_i hne
      rw [if_neg hne]
      split at h
      · cases h
      · rename_i hcmd
        rw [if_neg hcmd]
        split at h
        · cases h
        · split at h
          · cases h
          · rename_i hlen
            rw [if_neg hlen]
            exact ih h

/-- **The reads before the last** filled the buffer and were no commands. -/
theorem receive_reading (fresh : Nat → UInt8) (reads : List (List UInt8)) {st st' : ReceiveState}
    {data : List UInt8} (hst : st.Collected data) (hle : ∀ r ∈ reads, r.length ≤ bufferSize)
    (h : receive fresh reads st = .reading st') :
    (∀ r ∈ reads, r.length = bufferSize ∧ ¬ isSeekCommand r) ∧
      st'.Collected (data ++ reads.flatten) ∧ st'.buffer = reads.getLast?.getD st.buffer := by
  induction reads generalizing st data with
  | nil =>
    cases h
    exact ⟨nofun, by simpa using hst, rfl⟩
  | cons chunk reads ih =>
    have hlen := hle chunk List.mem_cons_self
    by_cases hne : chunk = []
    · subst hne
      cases h
    by_cases hcmd : isSeekCommand (chunk ++ st.buffer.drop chunk.length)
    · have hpos : ¬ chunk.length = 0 := fun e => hne (List.eq_nil_of_length_eq_zero e)
      simp only [receive, if_neg hpos, if_pos hcmd] at h
      cases h
    obtain ⟨st₁, hst₁, hbuf, hrun⟩ := receive_cons hst fresh hne hlen reads hcmd
    rw [hrun] at h
    split at h
    · cases h
    · rename_i hshort
      have hfull : chunk.length = bufferSize := Nat.le_antisymm hlen (Nat.le_of_not_lt hshort)
      have hold : st.buffer.drop chunk.length = [] :=
        List.drop_eq_nil_of_le (by rw [hst.buffer_length, hfull])
      rw [hold, List.append_nil] at hbuf hcmd
      obtain ⟨hall, hcoll, hlast⟩ := ih hst₁ (fun r hr => hle r (List.mem_cons_of_mem _ hr)) h
      refine ⟨fun r hr => ?_, ?_, ?_⟩
      · rcases List.mem_cons.mp hr with rfl | hr
        · exact ⟨hfull, hcmd⟩
        · exact hall r hr
      · rw [List.flatten_cons, ← List.append_assoc]
        exact hcoll
      · rw [hlast, hbuf, List.getLast?_cons, Option.getD_some]

/-! ## Room for every copy -/

/-- The loop's variables at the `memcpy` of the bytes read. -/
def atCopy (fresh : Nat → UInt8) (chunk : List UInt8) (st : ReceiveState) : ReceiveState :=
  growLocal fresh chunk.length { st with buffer := chunk ++ st.buffer.drop chunk.length }

/-- What holds at the `memcpy` of an iteration that begins in the state `st`:
`current_count` and the bytes read are those received so far, the local buffer
was doubled once or not at all, the copy leaves a byte of it free, and it is no
larger than the bytes received ask for. -/
structure HasRoom (fresh : Nat → UInt8) (st : ReceiveState) (chunk received : List UInt8) :
    Prop where
  counted : (atCopy fresh chunk st).currentCount + chunk.length = received.length
  doubled : (atCopy fresh chunk st).size = st.size ∨ (atCopy fresh chunk st).size = st.size * 2
  allocated : (atCopy fresh chunk st).toWriteLocal.length = (atCopy fresh chunk st).size
  room : (atCopy fresh chunk st).currentCount + chunk.length
    < (atCopy fresh chunk st).toWriteLocal.length
  bounded : (atCopy fresh chunk st).size ≤ max bufferSize (2 * received.length)
  copied : (copyChunk chunk (atCopy fresh chunk st)).isSome = true

/-- **Every copy has room.** Whatever the reads before it were, the copy of
the next one stays in bounds after at most one doubling. -/
theorem copy_hasRoom (fresh : Nat → UInt8) (reads : List (List UInt8)) (chunk : List UInt8)
    (hle : ∀ r ∈ reads ++ [chunk], r.length ≤ bufferSize) {st : ReceiveState}
    (h : receive fresh reads .init = .reading st) :
    HasRoom fresh st chunk (reads ++ [chunk]).flatten := by
  have hchunk : chunk.length ≤ bufferSize := hle chunk (by simp)
  obtain ⟨-, hcoll, -⟩ := receive_reading fresh reads collected_init
    (fun r hr => hle r (List.mem_append_left _ hr)) h
  rw [List.nil_append] at hcoll
  have hread := hcoll.read hchunk
  obtain ⟨hsize, halloc, -, hcount, -⟩ := hread.grow fresh hchunk
  obtain ⟨st', hstore, -⟩ := hread.store fresh hchunk
  have htotal : (reads ++ [chunk]).flatten.length = reads.flatten.length + chunk.length := by
    simp
  refine ⟨?_, growLocal_size .., halloc.trans hsize.symm, ?_, ?_, ?_⟩
  · rw [atCopy, hcount, htotal]
  · rw [atCopy, hcount, halloc]
    exact lt_localSize _
  · rw [atCopy, hsize, htotal]
    rcases localSize_le (reads.flatten.length + chunk.length) with hfirst | hlarge
    · exact hfirst ▸ Nat.le_max_left _ _
    · exact hlarge.trans (Nat.le_max_right _ _)
  · rw [atCopy, hstore]
    rfl

/-- A read that fills the buffer. -/
def fullChunk : List UInt8 := List.replicate bufferSize 97

theorem length_fullChunk : fullChunk.length = bufferSize := List.length_replicate

theorem fullChunk_ne_nil : fullChunk ≠ [] := List.cons_ne_nil _ _

theorem fullChunk_noNul : 0 ∉ fullChunk := by
  simp [fullChunk]

theorem fullChunk_noCommand (more : List UInt8) (h : 65 ∉ more) :
    ¬ aesdIoctlStr <:+: fullChunk ++ more := by
  intro hcmd
  have hmem : (65 : UInt8) ∈ fullChunk ++ more := hcmd.mem (List.mem_cons_self ..)
  rcases List.mem_append.mp hmem with hin | hin
  · simp [fullChunk] at hin
  · exact h hin

/-- The read after one that has had the local buffer doubled. -/
theorem copy_hasRoom_doubled :
    ∃ st, receive (fun _ => 97) [fullChunk] .init = .reading st ∧ st.size = 2048 ∧
      HasRoom (fun _ => 97) st [97, 10] (fullChunk ++ [97, 10]) := by
  have hcmd : ¬ isSeekCommand (fullChunk ++ ReceiveState.init.buffer.drop fullChunk.length) :=
    fun h => absurd h.1 (by simp [fullChunk, ReceiveState.init])
  obtain ⟨st, hst, -, hrun⟩ := receive_cons collected_init (fun _ => 97)
    fullChunk_ne_nil length_fullChunk.le [] hcmd
  have hreading : receive (fun _ => 97) [fullChunk] .init = .reading st :=
    hrun.trans (if_neg (Nat.not_lt.mpr length_fullChunk.ge))
  have hsize : localSize 1024 = 1024 * 2 ^ 1 := localSize_unique (by omega) (.inr (by omega))
  refine ⟨st, hreading, ?_, ?_⟩
  · rw [hst.size, List.nil_append, length_fullChunk]
    exact hsize
  · have hle : ∀ r ∈ [fullChunk, [97, 10]], r.length ≤ bufferSize :=
      List.forall_mem_cons.mpr ⟨length_fullChunk.le, by decide⟩
    simpa using copy_hasRoom (fun _ => 97) [fullChunk] [97, 10] hle hreading

/-! ## Messages -/

/-- `END_CHAR`, the newline. -/
def endChar : UInt8 := 10

/-- Text for the server: it ends with a newline and has neither a NUL nor the
text of a command in it. -/
structure IsMessage (m : List UInt8) : Prop where
  ends : ∃ body, m = body ++ [endChar]
  noNul : 0 ∉ m
  noCommand : ¬ aesdIoctlStr <:+: m

theorem IsMessage.ne_nil {m : List UInt8} (h : IsMessage m) : m ≠ [] := by
  obtain ⟨body, rfl⟩ := h.ends
  exact List.append_ne_nil_of_right_ne_nil _ (List.cons_ne_nil _ _)

/-- A message of one line. -/
structure IsLine (m : List UInt8) : Prop extends IsMessage m where
  onlyNewline : endChar ∉ m.dropLast

/-- A division of `m` into the results of successive `read()` calls. -/
structure IsDivision (m : List UInt8) (chunks : List (List UInt8)) : Prop where
  flatten : chunks.flatten = m
  sizes : ∀ c ∈ chunks, c ≠ [] ∧ c.length ≤ bufferSize

/-- Before a short read, the buffer holds its first zeros, or no zero. -/
def ReceiveState.Filled (st : ReceiveState) : Prop :=
  st.buffer = List.replicate bufferSize 0 ∨ 0 ∉ st.buffer

/-- A piece of a message is not mistaken for a command, whatever an earlier
read left behind it in the buffer. -/
theorem ReceiveState.Filled.not_isSeekCommand {st : ReceiveState} (h : st.Filled)
    {chunk : List UInt8} (hnul : 0 ∉ chunk) (hcmd : ¬ aesdIoctlStr <:+: chunk) :
    ¬ isSeekCommand (chunk ++ st.buffer.drop chunk.length) := by
  intro hseek
  obtain ⟨hzero, htext⟩ := hseek
  rcases h with h | h
  · rw [h, List.drop_replicate] at hzero htext
    cases hk : bufferSize - chunk.length with
    | zero =>
      rw [hk, List.replicate_zero, List.append_nil] at hzero
      exact hnul hzero
    | succ k =>
      rw [hk, List.replicate_succ, CString.contents_append_nul hnul] at htext
      exact hcmd htext
  · rcases List.mem_append.mp hzero with hin | hin
    · exact hnul hin
    · exact h (List.mem_of_mem_drop hin)

/-- A full read leaves no zero in the buffer. -/
theorem filled_of_full {st : ReceiveState} {chunk old : List UInt8} (hnul : 0 ∉ chunk)
    (hlen : chunk.length = bufferSize) (hold : old.length = bufferSize)
    (h : st.buffer = chunk ++ old.drop chunk.length) : st.Filled := by
  right
  rw [h, List.drop_eq_nil_of_le (by omega), List.append_nil]
  exact hnul

/-- **What the loop makes of a division.** It takes the reads up to the
first short one. -/
theorem receive_division (fresh : Nat → UInt8) (chunks : List (List UInt8)) :
    ∀ (st : ReceiveState) (data : List UInt8), st.Collected data → st.Filled →
      (∀ c ∈ chunks, c ≠ [] ∧ c.length ≤ bufferSize ∧ 0 ∉ c ∧ ¬ aesdIoctlStr <:+: c) →
      ∃ st', (st'.Collected (data ++ chunks.flatten) ∧
          (∀ c ∈ chunks, c.length = bufferSize) ∧ receive fresh chunks st = .reading st') ∨
        ∃ full last rest, chunks = full ++ last :: rest ∧
          (∀ c ∈ full, c.length = bufferSize) ∧ last.length < bufferSize ∧
          st'.Collected (data ++ full.flatten ++ last) ∧
          receive fresh chunks st = .message st' rest := by
  induction chunks with
  | nil =>
    intro st data hst _ _
    refine ⟨st, Or.inl ⟨?_, fun c hc => absurd hc List.not_mem_nil, rfl⟩⟩
    rw [List.flatten_nil, List.append_nil]
    exact hst
  | cons chunk chunks ih =>
    intro st data hst hfill hall
    obtain ⟨hne, hle, hnul, hcmd⟩ := hall chunk (List.mem_cons_self ..)
    obtain ⟨st₁, hst₁, hbuf, hrun⟩ := receive_cons hst fresh hne hle chunks
      (hfill.not_isSeekCommand hnul hcmd)
    rw [hrun]
    by_cases hshort : chunk.length < bufferSize
    · refine ⟨st₁, Or.inr ⟨[], chunk, chunks, rfl, ?_, hshort, ?_, if_pos hshort⟩⟩
      · exact fun c hc => absurd hc List.not_mem_nil
      · rw [List.flatten_nil, List.append_nil]
        exact hst₁
    · have hlen : chunk.length = bufferSize := Nat.le_antisymm hle (Nat.le_of_not_lt hshort)
      have hfill₁ := filled_of_full hnul hlen hst.buffer_length hbuf
      rw [if_neg hshort]
      obtain ⟨st', hcase⟩ := ih st₁ (data ++ chunk) hst₁ hfill₁
        (fun c hc => hall c (List.mem_cons_of_mem _ hc))
      refine ⟨st', ?_⟩
      rcases hcase with ⟨hcoll, hfull, heq⟩ | ⟨full, last, rest, hsplit, hfull, hlast, hcoll, heq⟩
      · left
        refine ⟨?_, ?_, heq⟩
        · rw [List.flatten_cons, ← List.append_assoc]
          exact hcoll
        · intro c hc
          rcases List.mem_cons.mp hc with rfl | hc
          · exact hlen
          · exact hfull c hc
      · right
        refine ⟨chunk :: full, last, rest, by rw [hsplit]; rfl, ?_, hlast, ?_, heq⟩
        · intro c hc
          rcases List.mem_cons.mp hc with rfl | hc
          · exact hlen
          · exact hfull c hc
        · rw [List.flatten_cons, ← List.append_assoc]
          exact hcoll

/-- A message shorter than the buffer, in one read: the local buffer holds
it as a C string. -/
theorem receive_short (fresh : Nat → UInt8) {m : List UInt8} (hm : IsMessage m)
    (hlt : m.length < bufferSize) :
    ∃ st, receive fresh [m] .init = .message st [] ∧
      CString.contents st.toWriteLocal = m := by
  have hpos : ¬ m.length = 0 := fun e => hm.ne_nil (List.eq_nil_of_length_eq_zero e)
  have hseek : ¬ isSeekCommand (m ++ ReceiveState.init.buffer.drop m.length) :=
    ReceiveState.Filled.not_isSeekCommand (Or.inl rfl) hm.noNul hm.noCommand
  have hgrow : ¬ ReceiveState.init.size ≤ ReceiveState.init.currentCount + m.length := by
    show ¬ bufferSize ≤ 0 + m.length
    omega
  have hfits : ReceiveState.init.currentCount + m.length
      ≤ ReceiveState.init.toWriteLocal.length := by
    show 0 + m.length ≤ (List.replicate bufferSize (0 : UInt8)).length
    rw [List.length_replicate]
    omega
  have hlocal : BlockHeap.splice (List.replicate bufferSize (0 : UInt8)) 0 m
      = m ++ 0 :: List.replicate (bufferSize - m.length - 1) 0 := by
    obtain ⟨n, hn⟩ : ∃ n, bufferSize - m.length = n + 1 := ⟨bufferSize - m.length - 1, by omega⟩
    rw [BlockHeap.splice, List.take_zero, List.nil_append, Nat.zero_add, List.drop_replicate,
        hn, List.replicate_succ, Nat.add_sub_cancel]
  refine ⟨{ ReceiveState.init with
      buffer := m ++ ReceiveState.init.buffer.drop m.length
      toWriteLocal := BlockHeap.splice (List.replicate bufferSize 0) 0 m
      currentCount := 0 + m.length }, ?_, ?_⟩
  · simp only [receive, if_neg hpos, if_neg hseek, growLocal, if_neg hgrow, copyChunk,
               if_pos hfits, if_pos hlt]
    rfl
  · show CString.contents (BlockHeap.splice _ 0 m) = m
    rw [hlocal, CString.contents_append_nul hm.noNul]

/-- A short first read with the text of a command in it goes to the seek
path. -/
theorem receive_command (fresh : Nat → UInt8) {text : List UInt8} (hnul : 0 ∉ text)
    (hlt : text.length < bufferSize) (hcmd : aesdIoctlStr <:+: text)
    (rest : List (List UInt8)) :
    ∃ st, receive fresh (text :: rest) .init = .seek st := by
  have hne : text ≠ [] := by
    rintro rfl
    exact absurd (List.infix_nil.mp hcmd) (by decide)
  have hpos : ¬ text.length = 0 := fun e => hne (List.eq_nil_of_length_eq_zero e)
  obtain ⟨n, hn⟩ : ∃ n, bufferSize - text.length = n + 1 :=
    ⟨bufferSize - text.length - 1, by omega⟩
  have hbuf : text ++ ReceiveState.init.buffer.drop text.length
      = text ++ 0 :: List.replicate n 0 := by
    rw [ReceiveState.init, List.drop_replicate, hn, List.replicate_succ]
  have hseek : isSeekCommand (text ++ ReceiveState.init.buffer.drop text.length) := by
    rw [hbuf]
    refine ⟨by simp, ?_⟩
    rw [CString.contents_append_nul hnul]
    exact hcmd
  refine ⟨{ ReceiveState.init with
    buffer := text ++ ReceiveState.init.buffer.drop text.length }, ?_⟩
  simp only [receive, if_neg hpos, if_pos hseek]

/-- The loop ends after the whole message, with exactly its bytes in the
local buffer, and asks for nothing more. -/
def Collects (fresh : Nat → UInt8) (m : List UInt8) (chunks : List (List UInt8)) : Prop :=
  ∃ st, receive fresh chunks .init = .message st [] ∧ st.currentCount = m.length ∧
    st.toWriteLocal.take st.currentCount = m

/-- All reads fill the buffer, except the last one, which does not. -/
def OnlyLastShort (chunks : List (List UInt8)) : Prop :=
  ∃ full last, chunks = full ++ [last] ∧ (∀ c ∈ full, c.length = bufferSize) ∧
    last.length < bufferSize

/-- **Framing.** A message is collected exactly when its division fills the
buffer with every read but the last, and not with the last. -/
theorem receive_collects_iff (fresh : Nat → UInt8) {m : List UInt8} (hm : IsLine m)
    {chunks : List (List UInt8)} (hdiv : IsDivision m chunks) :
    Collects fresh m chunks ↔ OnlyLastShort chunks := by
  have hpieces : ∀ c ∈ chunks,
      c ≠ [] ∧ c.length ≤ bufferSize ∧ 0 ∉ c ∧ ¬ aesdIoctlStr <:+: c := by
    intro c hc
    have hsub : c <:+: m := by
      rw [← hdiv.flatten]
      exact List.infix_of_mem_flatten hc
    obtain ⟨hne, hle⟩ := hdiv.sizes c hc
    exact ⟨hne, hle, fun h0 => hm.noNul (hsub.mem h0),
      fun hcmd => hm.noCommand (hcmd.trans hsub)⟩
  obtain ⟨st', hcase⟩ := receive_division fresh chunks .init [] collected_init (Or.inl rfl)
    hpieces
  rw [Collects, OnlyLastShort]
  rcases hcase with ⟨-, hfull, hrun⟩ | ⟨full, last, rest, hsplit, hfull, hlast, hcoll, hrun⟩
  · rw [hrun]
    constructor
    · intro hcol
      obtain ⟨st, heq, -⟩ := hcol
      cases heq
    · intro hshort
      obtain ⟨full, last, rfl, -, hlt⟩ := hshort
      have := hfull last (by simp)
      omega
  · rw [hrun]
    constructor
    · intro hcol
      obtain ⟨st, heq, -⟩ := hcol
      cases heq
      exact ⟨full, last, hsplit, hfull, hlast⟩
    · intro hshort
      obtain ⟨full', last', hsplit', hfull', -⟩ := hshort
      have hdrop : (full ++ last :: rest).dropLast = full' := by
        rw [← hsplit, hsplit', List.dropLast_concat]
      cases rest with
      | nil =>
        have hdata : [] ++ full.flatten ++ last = m := by
          rw [← hdiv.flatten, hsplit]
          simp
        rw [hdata] at hcoll
        exact ⟨st', rfl, hcoll.count, hcoll.bytes⟩
      | cons next rest =>
        have hmem : last ∈ full' := by
          rw [← hdrop, List.dropLast_append_of_ne_nil (List.cons_ne_nil _ _)]
          simp
        have := hfull' last hmem
        omega

/-- The three bytes `"hi\n"` in two reads. -/
def splitReads : List (List UInt8) := [[104], [105, 10]]

/-- The loop leaves after the first of them. -/
theorem receive_stops_early :
    ¬ ∀ (fresh : Nat → UInt8) (m : List UInt8) (chunks : List (List UInt8)),
      IsLine m → IsDivision m chunks → Collects fresh m chunks := by
  intro hall
  have hm : IsLine [104, 105, 10] :=
    ⟨⟨⟨[104, 105], rfl⟩, by decide, by decide⟩, by decide⟩
  obtain ⟨st, hrun, -⟩ := hall (fun _ => 0) _ splitReads hm ⟨rfl, by decide⟩
  have hfirst : ∃ st', receive (fun _ => 0) splitReads .init = .message st' [[105, 10]] := by
    obtain ⟨st', -, -, heq⟩ := receive_cons collected_init (fun _ => 0)
      (List.cons_ne_nil 104 []) (by decide) [[105, 10]]
      (ReceiveState.Filled.not_isSeekCommand (Or.inl rfl) (by decide) (by decide))
    exact ⟨st', heq⟩
  obtain ⟨st', hfirst⟩ := hfirst
  rw [hfirst] at hrun
  cases hrun

/-- A read that fills the buffer, and the newline in one of its own. -/
theorem receive_collects_two_reads :
    Collects (fun _ => 0) (fullChunk ++ [endChar]) [fullChunk, [endChar]] := by
  have hline : IsLine (fullChunk ++ [endChar]) := by
    refine ⟨⟨⟨fullChunk, rfl⟩, ?_, fullChunk_noCommand [endChar] (by decide)⟩, ?_⟩
    · rw [List.mem_append, not_or]
      exact ⟨fullChunk_noNul, by decide⟩
    · rw [List.dropLast_concat]
      simp [fullChunk, endChar]
  have hdiv : IsDivision (fullChunk ++ [endChar]) [fullChunk, [endChar]] :=
    ⟨by simp, List.forall_mem_cons.mpr ⟨⟨fullChunk_ne_nil, length_fullChunk.le⟩, by decide⟩⟩
  exact (receive_collects_iff (fun _ => 0) hline hdiv).mpr
    ⟨[fullChunk], [endChar], rfl, by simp [length_fullChunk], by decide⟩

end Aesd.Server

/-
Aesd.Server.LocalString — the string that `connection_handler` appends to
`to_write`.

The handler copies what it reads to `to_write_local` and never writes a NUL
behind it; `strcat` then takes the buffer for a C string. What ends the
string is whatever the byte behind the last one received has held since the
buffer was allocated: the zeros of the first allocation, or what `realloc`
left there (`Unwritten`). So the string is the data exactly while the data
stays inside the first allocation or `realloc` happens to leave a NUL
(`receive_terminated_iff`).
-/
import Aesd.Server.Receive

namespace Aesd.Server

/-! ## Bytes never written -/

/-- What byte `i` of the local buffer holds before anything is copied
there. -/
def initialByte (fresh : Nat → UInt8) (i : Nat) : UInt8 := if i < bufferSize then 0 else fresh i

/-- Behind the bytes collected, the local buffer is as it was allocated. -/
def ReceiveState.Unwritten (fresh : Nat → UInt8) (st : ReceiveState) : Prop :=
  ∀ i, st.currentCount ≤ i → i < st.toWriteLocal.length →
    st.toWriteLocal[i]? = some (initialByte fresh i)

theorem initialByte_eq_zero_iff (fresh : Nat → UInt8) (n : Nat) :
    initialByte fresh n = 0 ↔ n < bufferSize ∨ fresh n = 0 := by
  unfold initialByte
  split
  · rename_i hlt
    exact ⟨fun _ => Or.inl hlt, fun _ => rfl⟩
  · rename_i hge
    exact ⟨fun h => Or.inr h, fun h => h.resolve_left hge⟩

theorem unwritten_init (fresh : Nat → UInt8) : ReceiveState.init.Unwritten fresh := by
  intro i _ hi
  rw [ReceiveState.init, List.length_replicate] at hi
  rw [ReceiveState.init, List.getElem?_replicate, if_pos hi, initialByte, if_pos hi]

theorem bufferSize_le_localSize (n : Nat) : bufferSize ≤ localSize n := by
  have hone : 1 ≤ 2 ^ (n / bufferSize).size := Nat.one_le_two_pow
  rw [localSize]
  exact Nat.le_mul_of_pos_right bufferSize hone

/-- Growing the buffer provides bytes that hold what `realloc` left there. -/
theorem ReceiveState.Unwritten.grow {fresh : Nat → UInt8} {st : ReceiveState}
    {data : List UInt8} (hu : st.Unwritten fresh) (h : st.Collected data) (readRet : Nat) :
    (growLocal fresh readRet st).Unwritten fresh := by
  unfold growLocal
  split
  · intro i hi hlt
    simp only [List.length_append, List.length_map, List.length_range'] at hlt
    have hsize : bufferSize ≤ st.size := by
      rw [h.size]; exact bufferSize_le_localSize _
    have halloc := h.allocated
    rcases Nat.lt_or_ge i st.toWriteLocal.length with hold | hnew
    · rw [List.getElem?_append_left hold]
      exact hu i hi hold
    · rw [List.getElem?_append_right hnew, List.getElem?_map, initialByte, if_neg (by omega),
          List.getElem?_range' (by omega), Option.map_some, halloc]
      congr 2
      omega
  · exact hu

theorem ReceiveState.Unwritten.copy {fresh : Nat → UInt8} {st st' : ReceiveState}
    {chunk : List UInt8} (hu : st.Unwritten fresh) (hcopy : copyChunk chunk st = some st') :
    st'.Unwritten fresh := by
  unfold copyChunk at hcopy
  split at hcopy
  · rename_i hfits
    cases hcopy
    intro i hi hlt
    simp only [BlockHeap.length_splice hfits] at hi hlt
    rw [BlockHeap.getElem?_splice_of_le hfits hi]
    exact hu i (by omega) hlt
  · cases hcopy

/-! ## The message path -/

/-- **When the loop is done**, the reads it asked for are collected, and the
rest of the buffer has not been written. -/
theorem receive_message (fresh : Nat → UInt8) (reads : List (List UInt8)) :
    ∀ (st : ReceiveState) (data : List UInt8), st.Collected data → st.Unwritten fresh →
      (∀ r ∈ reads, r.length ≤ bufferSize) → ∀ {st' : ReceiveState} {rest : List (List UInt8)},
      receive fresh reads st = .message st' rest →
      ∃ taken, reads = taken ++ rest ∧ st'.Collected (data ++ taken.flatten) ∧
        st'.Unwritten fresh := by
  induction reads with
  | nil =>
    intro st data _ _ _ st' rest hrun
    cases hrun
  | cons chunk reads ih =>
    intro st data h hu hle st' rest hrun
    have hlen := hle chunk (List.mem_cons_self ..)
    by_cases hne : chunk = []
    · subst hne
      cases hrun
      exact ⟨[[]], rfl, by simpa using h, hu⟩
    have hpos : ¬ chunk.length = 0 := fun e => hne (List.eq_nil_of_length_eq_zero e)
    by_cases hcmd : isSeekCommand (chunk ++ st.buffer.drop chunk.length)
    · simp only [receive, if_neg hpos, if_pos hcmd] at hrun
      cases hrun
    have hread := h.read hlen
    obtain ⟨st₁, hstore, hcoll, -⟩ := hread.store fresh hlen
    have hread_u : ReceiveState.Unwritten fresh
        { st with buffer := chunk ++ st.buffer.drop chunk.length } := hu
    have hu₁ : st₁.Unwritten fresh := (hread_u.grow hread chunk.length).copy hstore
    simp only [receive, if_neg hpos, if_neg hcmd, hstore] at hrun
    split at hrun
    · cases hrun
      exact ⟨[chunk], rfl, by simpa using hcoll, hu₁⟩
    · obtain ⟨taken, hsplit, hcoll', hu'⟩ :=
        ih st₁ _ hcoll hu₁ (fun r hr => hle r (List.mem_cons_of_mem _ hr)) hrun
      refine ⟨chunk :: taken, by rw [hsplit]; rfl, ?_, hu'⟩
      rw [List.flatten_cons, ← List.append_assoc]
      exact hcoll'

/-- What the handler passes to `strcat` is the string of the bytes received:
it ends with a NUL inside the allocation, right behind the last of them. -/
structure ReceiveState.Terminated (st : ReceiveState) (received : List UInt8) : Prop where
  count : st.currentCount = received.length
  nul : st.toWriteLocal[st.currentCount]? = some 0
  string : CString.contents st.toWriteLocal = received

/-- The string ends right behind the data if the byte there is a NUL. -/
theorem ReceiveState.Collected.terminated_iff {fresh : Nat → UInt8} {st : ReceiveState}
    {data : List UInt8} (h : st.Collected data) (hu : st.Unwritten fresh) (hnul : 0 ∉ data) :
    st.Terminated data ↔ initialByte fresh data.length = 0 := by
  have hroom : data.length < st.toWriteLocal.length := by
    rw [h.allocated, h.size]; exact lt_localSize _
  have hbyte := hu data.length (Nat.le_of_eq h.count) hroom
  constructor
  · intro hterm
    have hzero := hterm.nul
    rw [h.count, hbyte, Option.some.injEq] at hzero
    exact hzero
  · intro hzero
    rw [hzero] at hbyte
    refine ⟨h.count, by rw [h.count]; exact hbyte, ?_⟩
    have hsplit : st.toWriteLocal
        = data ++ 0 :: st.toWriteLocal.drop (data.length + 1) := by
      have hbytes := h.bytes
      rw [h.count] at hbytes
      rw [← List.take_append_drop data.length st.toWriteLocal, hbytes,
          List.drop_eq_getElem_cons hroom]
      rw [List.getElem?_eq_getElem hroom, Option.some.injEq] at hbyte
      rw [hbyte]
      simp
    rw [hsplit, CString.contents_append_nul hnul]

/-- **When the string appended is the data received**: exactly when fewer
bytes arrive than the first allocation holds, or `realloc` left a NUL where
they end. -/
theorem receive_terminated_iff (fresh : Nat → UInt8) (taken rest : List (List UInt8))
    (hreads : ∀ r ∈ taken ++ rest, r.length ≤ bufferSize ∧ 0 ∉ r) {st : ReceiveState}
    (hrun : receive fresh (taken ++ rest) .init = .message st rest) :
    st.Terminated taken.flatten ↔
      taken.flatten.length < bufferSize ∨ fresh taken.flatten.length = 0 := by
  obtain ⟨taken', hsplit, hcoll, hu⟩ := receive_message fresh _ .init [] collected_init
    (unwritten_init fresh) (fun r hr => (hreads r hr).1) hrun
  rw [List.append_left_inj] at hsplit
  subst hsplit
  have hnul : 0 ∉ taken.flatten := by
    intro hmem
    obtain ⟨r, hr, h0⟩ := List.mem_flatten.mp hmem
    exact (hreads r (List.mem_append_left _ hr)).2 h0
  rw [List.nil_append] at hcoll
  rw [hcoll.terminated_iff hu hnul, initialByte_eq_zero_iff]

/-- A message of 1024 bytes, and then the end of the connection. -/
def fullRead : List (List UInt8) := [List.replicate bufferSize 97, []]

/-- The buffer is doubled and the byte behind the message is not a NUL. -/
theorem fullRead_not_terminated :
    ¬ ∀ (fresh : Nat → UInt8) (taken rest : List (List UInt8)),
      (∀ r ∈ taken ++ rest, r.length ≤ bufferSize ∧ 0 ∉ r) → ∀ (st : ReceiveState),
      receive fresh (taken ++ rest) .init = .message st rest → st.Terminated taken.flatten := by
  intro hall
  let fresh : Nat → UInt8 := fun _ => 97
  have hnul : (0 : UInt8) ∉ List.replicate bufferSize 97 := fun h =>
    absurd (List.eq_of_mem_replicate h) (by decide)
  have hcmd : ¬ aesdIoctlStr <:+: List.replicate bufferSize 97 := fun h =>
    absurd (List.eq_of_mem_replicate (h.subset (List.mem_cons_self ..))) (by decide)
  have hlen : (List.replicate bufferSize (97 : UInt8)).length = bufferSize :=
    List.length_replicate
  have hne : List.replicate bufferSize (97 : UInt8) ≠ [] := fun h => by
    rw [h] at hlen
    exact absurd hlen (by decide)
  obtain ⟨st, -, -, hstep⟩ := receive_cons collected_init fresh hne (Nat.le_of_eq hlen) [[]]
    (ReceiveState.Filled.not_isSeekCommand (Or.inl rfl) hnul hcmd)
  have hrun : receive fresh fullRead .init = .message st [] := by
    rw [fullRead, hstep, if_neg (by simp)]
    rfl
  obtain ⟨taken, htaken, hcoll, hu⟩ := receive_message fresh fullRead .init [] collected_init
    (unwritten_init fresh) (by simp [fullRead]) hrun
  rw [List.append_nil] at htaken
  subst htaken
  have hflat : fullRead.flatten = List.replicate bufferSize 97 := by simp [fullRead]
  have hterm := hall fresh fullRead [] (by simp [fullRead, hnul]) st
    (by rw [List.append_nil]; exact hrun)
  rw [List.nil_append, hflat] at hcoll
  rw [hflat, hcoll.terminated_iff hu hnul, initialByte_eq_zero_iff] at hterm
  simp [fresh] at hterm

/-- A message of three bytes is terminated. -/
theorem receive_terminated_three_bytes :
    ∃ st, receive (fun _ => 97) ([[104, 105, 10]] ++ []) .init = .message st [] ∧
      st.Terminated [104, 105, 10] := by
  obtain ⟨st, hrun, -⟩ := receive_short (fun _ => 97)
    (⟨⟨[104, 105], rfl⟩, by decide, by decide⟩ : IsMessage [104, 105, 10]) (by decide)
  exact ⟨st, hrun, (receive_terminated_iff (fun _ => 97) [[104, 105, 10]] [] (by decide)
    hrun).mpr (Or.inl (by decide))⟩

end Aesd.Server

/-
Aesd.Server.SeekCommand — which connections issue `AESDCHAR_IOCSEEKTO`, and
with which numbers.

`connection_handler` looks for a NUL in the whole buffer and then for the
text of the command anywhere in the string before it; `sscanf` reads the
numbers only from a command at the start of that string, and when it does not
find both the handler goes on with the ones it has. The buffer holds what the
last read has put over the one before, so that the string may end in bytes of
an earlier read; and a full buffer without a NUL is never a command.

`commandOf` has the two numbers of a well-formed command, read off the bytes
received and not by way of the handler. `recognised_of_recognisable` says for
which reads the handler issues exactly these (`Recognisable`).
-/
import Aesd.Driver.CharDevice
import Aesd.Library.Scanf
import Aesd.Server.Receive

namespace Aesd.Server

open Driver (AesdSeekto)

/-! ## Commands -/

/-- The numbers that `sscanf(text, "AESDCHAR_IOCSEEKTO:%i,%i", ..)` stores, in
order; it returns how many. -/
def scanSeekto (text : List UInt8) : List Int :=
  if aesdIoctlStr <+: text then
    match Scanf.scanInt (text.drop aesdIoctlStr.length) with
    | none => []
    | some (writeCmd, rest) =>
      if rest.head? = some 44 then
        match Scanf.scanInt rest.tail with
        | none => [writeCmd]
        | some (offset, _) => [writeCmd, offset]
      else [writeCmd]
  else []

/-- `cmd`, from `write_cmd` and `offset`; where nothing was stored they are
zero. -/
def seektoOf (numbers : List Int) : AesdSeekto where
  writeCmd := UInt32.ofInt (numbers[0]?.getD 0)
  writeCmdOffset := UInt32.ofInt (numbers[1]?.getD 0)

/-- The command that the handler passes to `ioctl`, if it takes the seek
path. -/
def issued (fresh : Nat → UInt8) (reads : List (List UInt8)) : Option AesdSeekto :=
  match receive fresh reads .init with
  | .seek st => some (seektoOf (scanSeekto (CString.contents st.buffer)))
  | _ => none

/-! ## What the handler has to do -/

/-- The numbers X and Y of the command that the bytes start with: the text, a
number, a comma and a number. -/
def commandOf (bytes : List UInt8) : Option (Int × Int) :=
  let text := CString.contents bytes
  if aesdIoctlStr <+: text then
    match Scanf.scanInt (text.drop aesdIoctlStr.length) with
    | some (x, rest) =>
      if rest.head? = some 44 then (Scanf.scanInt rest.tail).map fun (y, _) => (x, y) else none
    | none => none
  else none

/-- The handler makes all these `read()` calls: it has not left the loop
before the last one. -/
def Made (fresh : Nat → UInt8) (reads : List (List UInt8)) : Prop :=
  ∃ st, receive fresh reads.dropLast .init = .reading st

/-- The handler is still reading or done, and holds all the bytes received in
`to_write_local`. What it appends to `to_write` of them is the string there: the
bytes behind a NUL are held and not appended. -/
def Keeps (fresh : Nat → UInt8) (reads : List (List UInt8)) : Prop :=
  ∃ st, (receive fresh reads .init = .reading st ∨ receive fresh reads .init = .message st []) ∧
    st.toWriteLocal.take st.currentCount = reads.flatten

/-- The handler issues the command that the bytes received start with, X for
the line and Y for the byte in it, or keeps them. -/
def RecognisedExactly (fresh : Nat → UInt8) (reads : List (List UInt8)) : Prop :=
  match commandOf reads.flatten with
  | some (x, y) =>
    issued fresh reads = some { writeCmd := UInt32.ofInt x, writeCmdOffset := UInt32.ofInt y }
  | none => issued fresh reads = none ∧ Keeps fresh reads

/-- The buffer after the last read: before that one it held the read before,
or zeros. -/
def lastBuffer (reads : List (List UInt8)) : List UInt8 :=
  let last := reads.getLast?.getD []
  last ++ (reads.dropLast.getLast?.getD (List.replicate bufferSize 0)).drop last.length

/-- What the last read must be for the handler to be right about it. -/
structure Recognisable (reads : List (List UInt8)) : Prop where
  /-- A first read that has the text in it is a well-formed command. -/
  first : ∀ r, reads = [r] → isSeekCommand (lastBuffer reads) → (commandOf r).isSome = true
  /-- A later read does not leave the text in the buffer. -/
  later : 1 < reads.length → ¬ isSeekCommand (lastBuffer reads)
  /-- A first read that fills the buffer without a NUL does not start with a
  command. -/
  full : ¬ isSeekCommand (lastBuffer reads) → ∀ r ∈ reads.head?, r.length = bufferSize → 0 ∉ r →
    commandOf reads.flatten = none

/-! ## The reads before the last -/

/-- What an earlier read left in the buffer, or the zeros, is no command. -/
theorem not_isSeekCommand_left {reads : List (List UInt8)} (h : ∀ r ∈ reads, ¬ isSeekCommand r) :
    ¬ isSeekCommand (reads.getLast?.getD (List.replicate bufferSize 0)) := by
  cases hlast : reads.getLast? with
  | none =>
    have hzeros : ReceiveState.init.Filled := Or.inl rfl
    exact hzeros.not_isSeekCommand List.not_mem_nil (by decide)
  | some r => exact h r (List.mem_of_getLast? hlast)

theorem lastBuffer_concat (reads : List (List UInt8)) (last : List UInt8) :
    lastBuffer (reads ++ [last]) =
      last ++ (reads.getLast?.getD (List.replicate bufferSize 0)).drop last.length := by
  simp [lastBuffer]

/-- **The last read**: the handler takes the seek path with the buffer, or
keeps the bytes. -/
theorem receive_last (fresh : Nat → UInt8) {reads : List (List UInt8)}
    (hle : ∀ r ∈ reads, r.length ≤ bufferSize) (hmade : Made fresh reads) :
    (isSeekCommand (lastBuffer reads) →
      issued fresh reads = some (seektoOf (scanSeekto (CString.contents (lastBuffer reads))))) ∧
    (¬ isSeekCommand (lastBuffer reads) → issued fresh reads = none ∧ Keeps fresh reads) := by
  obtain ⟨st, hst⟩ := hmade
  rcases List.eq_nil_or_concat reads with rfl | ⟨full, last, rfl⟩
  · have hzeros : ¬ isSeekCommand (lastBuffer []) :=
      not_isSeekCommand_left fun r (hr : r ∈ []) => absurd hr List.not_mem_nil
    exact ⟨fun hcmd => absurd hcmd hzeros, fun _ => ⟨rfl, .init, .inl rfl, rfl⟩⟩
  rw [List.concat_eq_append] at *
  rw [List.dropLast_concat] at hst
  obtain ⟨hfull, hcoll, hbuf⟩ := receive_reading fresh full collected_init
    (fun r hr => hle r (List.mem_append_left _ hr)) hst
  rw [List.nil_append] at hcoll
  have hbuffer : lastBuffer (full ++ [last]) = last ++ st.buffer.drop last.length := by
    rw [lastBuffer_concat, hbuf]
    rfl
  have hrun := receive_append full hst [last]
  have hflat : (full ++ [last]).flatten = full.flatten ++ last := by simp
  rw [hbuffer]
  by_cases hne : last = []
  · subst hne
    have hleft : ¬ isSeekCommand st.buffer :=
      hbuf ▸ not_isSeekCommand_left fun r hr => (hfull r hr).2
    refine ⟨fun hcmd => absurd hcmd hleft, fun _ => ⟨?_, st, .inr ?_, ?_⟩⟩
    · rw [issued, hrun]
      rfl
    · rw [hrun]
      rfl
    · rw [hcoll.bytes, hflat, List.append_nil]
  · have hpos : ¬ last.length = 0 := fun e => hne (List.eq_nil_of_length_eq_zero e)
    have hlen := hle last (by simp)
    refine ⟨fun hcmd => ?_, fun hcmd => ?_⟩
    · rw [issued, hrun]
      simp only [receive, if_neg hpos, if_pos hcmd]
    · obtain ⟨st₁, hst₁, -, hlast⟩ := receive_cons hcoll fresh hne hlen [] hcmd
      rw [Keeps, issued, hrun, hlast, hflat]
      by_cases hshort : last.length < bufferSize
      · rw [if_pos hshort]
        exact ⟨rfl, st₁, .inr rfl, hst₁.bytes⟩
      · rw [if_neg hshort]
        exact ⟨rfl, st₁, .inl rfl, hst₁.bytes⟩

/-! ## Commands and the buffer -/

theorem prefix_of_commandOf {bytes : List UInt8} (h : (commandOf bytes).isSome = true) :
    aesdIoctlStr <+: CString.contents bytes := by
  by_contra hno
  simp [commandOf, hno] at h

/-- A well-formed command is one of which `sscanf` stores both numbers. -/
theorem scanSeekto_of_commandOf {bytes : List UInt8} {x y : Int}
    (h : commandOf bytes = some (x, y)) : scanSeekto (CString.contents bytes) = [x, y] := by
  have htext := prefix_of_commandOf (h ▸ rfl : (commandOf bytes).isSome = true)
  simp only [commandOf, if_pos htext] at h
  rw [scanSeekto, if_pos htext]
  cases hx : Scanf.scanInt ((CString.contents bytes).drop aesdIoctlStr.length) with
  | none => simp [hx] at h
  | some first =>
    obtain ⟨x', rest⟩ := first
    simp only [hx] at h ⊢
    by_cases hcomma : rest.head? = some 44
    · rw [if_pos hcomma] at h ⊢
      obtain ⟨⟨y', rest'⟩, hy, heq⟩ := Option.map_eq_some_iff.mp h
      cases heq
      rw [hy]
    · rw [if_neg hcomma] at h
      cases h

/-- The buffer holds the string of a first read, unless that fills it without
a NUL. -/
theorem lastBuffer_first {r : List UInt8} (hle : r.length ≤ bufferSize)
    (hnul : r.length = bufferSize → 0 ∈ r) :
    CString.contents (lastBuffer [r]) = CString.contents r ∧ 0 ∈ lastBuffer [r] := by
  have hbuffer : lastBuffer [r] = r ++ List.replicate (bufferSize - r.length) 0 := by
    simp [lastBuffer]
  rw [hbuffer]
  by_cases h0 : (0 : UInt8) ∈ r
  · exact ⟨CString.contents_append_of_mem h0 _, List.mem_append_left _ h0⟩
  · obtain ⟨n, hn⟩ : ∃ n, bufferSize - r.length = n + 1 := by
      have hne : r.length ≠ bufferSize := fun hlen => h0 (hnul hlen)
      exact ⟨bufferSize - r.length - 1, by omega⟩
    rw [hn, List.replicate_succ, CString.contents_append_nul h0, CString.contents_of_notMem h0]
    exact ⟨rfl, by simp⟩

theorem exists_of_isSeekCommand {reads : List (List UInt8)} (hlen : reads.length ≤ 1)
    (hcmd : isSeekCommand (lastBuffer reads)) : ∃ r, reads = [r] := by
  cases reads with
  | nil =>
    exact absurd hcmd (not_isSeekCommand_left fun r (hr : r ∈ []) => absurd hr List.not_mem_nil)
  | cons r rest =>
    have hrest : rest = [] := List.eq_nil_of_length_eq_zero (by simpa using hlen)
    exact ⟨r, by rw [hrest]⟩

/-! ## Commands in decimal -/

/-- The only read so far, where it takes the seek path. -/
theorem recognised_first_iff (fresh : Nat → UInt8) {r : List UInt8} (hle : r.length ≤ bufferSize)
    (hcmd : isSeekCommand (lastBuffer [r])) :
    RecognisedExactly fresh [r] ↔ (commandOf r).isSome = true := by
  have hissued := (receive_last fresh (by simpa using hle) ⟨.init, rfl⟩).1 hcmd
  have hnul : r.length = bufferSize → 0 ∈ r := by
    intro hlen
    have h0 := hcmd.1
    simpa [lastBuffer, hlen] using h0
  rw [(lastBuffer_first hle hnul).1] at hissued
  rw [RecognisedExactly, hissued, List.flatten_singleton]
  cases hc : commandOf r with
  | none => simp
  | some numbers =>
    obtain ⟨x, y⟩ := numbers
    simp [scanSeekto_of_commandOf hc, seektoOf]

/-- The last read, where it does not: the bytes must not be a command that a
first read without a NUL has hidden. -/
theorem recognised_kept_iff (fresh : Nat → UInt8) {reads : List (List UInt8)}
    (hle : ∀ r ∈ reads, r.length ≤ bufferSize) (hmade : Made fresh reads)
    (hcmd : ¬ isSeekCommand (lastBuffer reads)) :
    RecognisedExactly fresh reads ↔
      ∀ r ∈ reads.head?, r.length = bufferSize → 0 ∉ r → commandOf reads.flatten = none := by
  obtain ⟨hissued, hkeeps⟩ := (receive_last fresh hle hmade).2 hcmd
  have hexact : RecognisedExactly fresh reads ↔ commandOf reads.flatten = none := by
    unfold RecognisedExactly
    rw [hissued]
    cases commandOf reads.flatten with
    | none => simp [hkeeps]
    | some numbers => simp
  rw [hexact]
  refine ⟨fun h _ _ _ _ => h, fun hfirst => ?_⟩
  cases reads with
  | nil => rfl
  | cons r rest =>
    by_cases hfull : r.length = bufferSize → 0 ∈ r
    · -- the string of the first read would have been found to be a command
      by_contra hsome
      have htext := prefix_of_commandOf (Option.isSome_iff_ne_none.mpr hsome)
      rw [List.flatten_cons] at htext
      cases rest with
      | nil =>
        rw [List.flatten_nil, List.append_nil] at htext
        obtain ⟨hcontents, h0⟩ := lastBuffer_first (hle r List.mem_cons_self) hfull
        exact hcmd ⟨h0, hcontents ▸ htext.isInfix⟩
      | cons r' rest =>
        obtain ⟨st, hst⟩ := hmade
        obtain ⟨hall, -, -⟩ := receive_reading fresh _ collected_init
          (fun c hc => hle c (List.dropLast_subset _ hc)) hst
        obtain ⟨hlen, hno⟩ := hall r (by simp)
        rw [CString.contents_append_of_mem (hfull hlen)] at htext
        exact hno ⟨hfull hlen, htext.isInfix⟩
    · rw [Classical.not_imp] at hfull
      exact hfirst r rfl hfull.1 hfull.2

/-- **When seek commands are recognised exactly.** The condition is enough, and
where no later read leaves the text in the buffer also needed. -/
theorem recognised_of_recognisable (fresh : Nat → UInt8) (reads : List (List UInt8))
    (hle : ∀ r ∈ reads, r.length ≤ bufferSize) (hmade : Made fresh reads) :
    (Recognisable reads → RecognisedExactly fresh reads) ∧
      ((1 < reads.length → ¬ isSeekCommand (lastBuffer reads)) →
        RecognisedExactly fresh reads → Recognisable reads) := by
  by_cases hcmd : isSeekCommand (lastBuffer reads)
  · have hfirst : (1 < reads.length → ¬ isSeekCommand (lastBuffer reads)) →
        ∃ r, reads = [r] ∧ (RecognisedExactly fresh reads ↔ (commandOf r).isSome = true) := by
      intro hlater
      obtain ⟨r, rfl⟩ := exists_of_isSeekCommand (Nat.le_of_not_lt fun h => hlater h hcmd) hcmd
      exact ⟨r, rfl, recognised_first_iff fresh (hle r List.mem_cons_self) hcmd⟩
    constructor
    · intro hrec
      obtain ⟨r, hr, hexact⟩ := hfirst hrec.later
      exact hexact.mpr (hrec.first r hr hcmd)
    · intro hlater h
      obtain ⟨r, rfl, hexact⟩ := hfirst hlater
      refine ⟨fun r' hr' _ => ?_, hlater, fun hno => absurd hcmd hno⟩
      obtain rfl := (List.cons.inj hr').1
      exact hexact.mp h
  · have hexact := recognised_kept_iff fresh hle hmade hcmd
    exact ⟨fun hrec => hexact.mpr (hrec.full hcmd), fun hlater h =>
      ⟨fun _ _ hyes => absurd hyes hcmd, hlater, fun _ => hexact.mp h⟩⟩

/-- `"hi AESDCHAR_IOCSEEKTO:1,2\n"` -/
def strayText : List UInt8 := [104, 105, 32] ++ aesdIoctlStr ++ [49, 44, 50, 10]

/-- The text is dropped, and the handler seeks to the start. -/
theorem strayText_not_recognised :
    ¬ ∀ (fresh : Nat → UInt8) (reads : List (List UInt8)),
      (∀ r ∈ reads, r.length ≤ bufferSize) → Made fresh reads → RecognisedExactly fresh reads := by
  intro hall
  have hexact := hall (fun _ => 0) [strayText] (by decide) ⟨.init, rfl⟩
  obtain ⟨st, hst⟩ := receive_command (fun _ => 0) (by decide : 0 ∉ strayText) (by decide)
    (by decide) []
  have hnone : commandOf [strayText].flatten = none := by decide
  rw [RecognisedExactly, hnone, issued, hst] at hexact
  cases hexact.1

/-- `"AESDCHAR_IOCSEEKTO:0,1\n"` -/
theorem recognised_one_command :
    commandOf (aesdIoctlStr ++ [48, 44, 49, 10]) = some (0, 1) ∧
      RecognisedExactly (fun _ => 0) [aesdIoctlStr ++ [48, 44, 49, 10]] := by
  refine ⟨by decide, (recognised_of_recognisable (fun _ => 0) [aesdIoctlStr ++ [48, 44, 49, 10]]
    (by decide) ⟨.init, rfl⟩).1 ⟨?_, fun hlong => absurd hlong (by decide), ?_⟩⟩
  · rintro r hr -
    obtain rfl := (List.cons.inj hr).1
    decide
  · rintro - r hr hfull -
    obtain rfl := Option.some.inj hr
    exact absurd hfull (by decide)

end Aesd.Server

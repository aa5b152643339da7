/-
Aesd.Driver.Seek — seeking to a line and searching by byte position agree.

`Device.seekTo` is the abstract seek: the position of an offset in a stored
line. `seekTo_eq_some_iff` says that it inverts `Positions.locate`, and
`adjustAesdFileOffset_eq` that it is what the driver computes, although the
driver walks the slots from `out_offs` and the search walks them from
`in_offs`. The driver's walk stops at an empty slot, so the proof needs that
no stored line is empty: `mem_lines_runCalls` traces every stored line to a
granted allocation of its size.
-/
import Aesd.Driver.Calls

namespace Aesd.Driver

/-! ## The abstract seek -/

/-- The position of `offset` in stored line number `line`, oldest first. -/
def Device.seekTo (d : Device) (line offset : Nat) : Option Nat :=
  if offset < (d.lines.getD line []).length then
    some (Positions.position (d.lines.map List.length) line offset)
  else none

theorem Device.lt_length_of_offset {d : Device} {line offset : Nat}
    (h : offset < (d.lines.getD line []).length) : line < d.lines.length := by
  by_contra hge
  rw [List.getD_eq_default _ _ (by omega)] at h
  exact Nat.not_lt_zero _ h

/-- Seeking inverts locating. -/
theorem Device.seekTo_eq_some_iff (d : Device) (line offset p : Nat) :
    d.seekTo line offset = some p ↔
      Positions.locate (d.lines.map List.length) p = some (line, offset) := by
  rw [Positions.locate_eq_some_iff, seekTo]
  constructor
  · intro h
    split at h
    · rename_i hoff
      have hline := lt_length_of_offset hoff
      rw [List.getD_eq_getElem _ _ hline] at hoff
      refine ⟨d.lines[line].length, ?_, hoff, (Option.some.inj h).symm⟩
      rw [List.getElem?_map, List.getElem?_eq_getElem hline, Option.map_some]
    · exact absurd h (by simp)
  · intro h
    obtain ⟨n, hn, hoff, hp⟩ := h
    rw [List.getElem?_map, Option.map_eq_some_iff] at hn
    obtain ⟨l, hl, hlen⟩ := hn
    have hget : d.lines.getD line [] = l := by simp [List.getD, hl]
    rw [hget, hlen, if_pos hoff, hp]

theorem Device.seekTo_eq_none_iff (d : Device) (line offset : Nat) :
    d.seekTo line offset = none ↔ ¬ offset < (d.lines.getD line []).length := by
  rw [seekTo]
  split <;> simp_all

/-- A successful seek is to an offset inside a stored line. -/
theorem Device.lt_of_seekTo {d : Device} {line offset p : Nat}
    (h : d.seekTo line offset = some p) :
    line < d.lines.length ∧ offset < (d.lines.getD line []).length := by
  have hoff : offset < (d.lines.getD line []).length := by
    by_contra hge
    rw [(d.seekTo_eq_none_iff ..).mpr hge] at h
    exact absurd h (by simp)
  exact ⟨lt_length_of_offset hoff, hoff⟩

/-- Every position of the stored bytes is sought by some line and offset. -/
theorem Device.exists_seekTo (d : Device) {p : Nat} (hp : p < (d.lines.map List.length).sum) :
    ∃ line offset, d.seekTo line offset = some p := by
  cases hloc : Positions.locate (d.lines.map List.length) p with
  | none =>
    have := (Positions.locate_eq_none_iff _ _).mp hloc
    omega
  | some q =>
    obtain ⟨line, offset⟩ := q
    exact ⟨line, offset, (d.seekTo_eq_some_iff ..).mpr hloc⟩

/-! ## The stored bytes -/

/-- Everything stored, oldest first. -/
def Device.contents (d : Device) : List UInt8 := d.lines.flatten

theorem Device.length_contents (d : Device) :
    d.contents.length = (d.lines.map List.length).sum := List.length_flatten

/-- What follows the position of a line and offset: the rest of the line and
the lines after it. -/
theorem Device.contents_drop_seekTo {d : Device} {line offset p : Nat}
    (h : d.seekTo line offset = some p) :
    d.contents.drop p
      = (d.lines.getD line []).drop offset ++ (d.lines.drop (line + 1)).flatten := by
  obtain ⟨hline, hoff⟩ := lt_of_seekTo h
  have hp : p = Positions.position (d.lines.map List.length) line offset := by
    rw [seekTo, if_pos hoff, Option.some.injEq] at h
    exact h.symm
  have hget : d.lines[line]? = some (d.lines.getD line []) := by
    rw [List.getD_eq_getElem _ _ hline, List.getElem?_eq_getElem hline]
  rw [hp, contents, Positions.drop_flatten _ hget (Nat.le_of_lt hoff)]

/-- A read at a position found in a line starts with the byte there. -/
theorem Device.readAt_seekTo {d : Device} {line offset p : Nat}
    (h : d.seekTo line offset = some p) (count : Nat) :
    d.readAt count p = ((d.lines.getD line []).drop offset).take count := by
  rw [readAt, (d.seekTo_eq_some_iff ..).mp h]

/-- A read delivers the next stored bytes. -/
theorem Device.readAt_prefix (d : Device) (count p : Nat) :
    d.readAt count p <+: d.contents.drop p := by
  cases hloc : Positions.locate (d.lines.map List.length) p with
  | none =>
    rw [readAt, hloc]
    exact List.nil_prefix
  | some q =>
    obtain ⟨line, offset⟩ := q
    have hseek := (d.seekTo_eq_some_iff ..).mpr hloc
    rw [readAt_seekTo hseek, contents_drop_seekTo hseek]
    exact (List.take_prefix _ _).trans (List.prefix_append _ _)

/-- It delivers nothing exactly at the end. -/
theorem Device.readAt_eq_nil_iff (d : Device) {count : Nat} (hcount : 0 < count) (p : Nat) :
    d.readAt count p = [] ↔ d.contents.length ≤ p := by
  rw [length_contents, ← Positions.locate_eq_none_iff]
  cases hloc : Positions.locate (d.lines.map List.length) p with
  | none => simp [readAt, hloc]
  | some q =>
    obtain ⟨line, offset⟩ := q
    have hseek := (d.seekTo_eq_some_iff ..).mpr hloc
    obtain ⟨-, hoff⟩ := lt_of_seekTo hseek
    rw [readAt_seekTo hseek, List.take_eq_nil_iff, List.drop_eq_nil_iff]
    simp only [reduceCtorEq, iff_false, not_or]
    omega

/-! ## Where stored lines come from -/

theorem Kmalloc.mem_take_granted {kmalloc : Kmalloc} {i n : Nat} {ns : List Nat}
    (h : n ∈ ns.take (kmalloc.granted i ns)) : ∃ j, (kmalloc j n).isSome = true := by
  induction ns generalizing i with
  | nil => simp at h
  | cons m ns ih =>
    rw [granted] at h
    cases hg : kmalloc i m with
    | none => rw [hg] at h; simp at h
    | some g =>
      rw [hg] at h
      rcases List.mem_cons.mp h with rfl | h
      · exact ⟨i, by rw [hg]; rfl⟩
      · exact ih h

/-- A line stored by the first `n` segments of a write has the size of one
of their requests. -/
theorem Device.mem_lines_feed {l : List UInt8} (buf : List UInt8) :
    ∀ (d : Device) (n : Nat),
      l ∈ (d.feed ((Delimited.segments endCharacter buf).take n).flatten).lines →
      l ∈ d.lines ∨ l ≠ [] ∧
        l.length ∈ (requests d.part.length (Delimited.segments endCharacter buf)).take n := by
  induction buf using Delimited.recordInduction endCharacter with
  | noSep r hr =>
    intro d n h
    have hsub : endCharacter ∉ ((Delimited.segments endCharacter r).take n).flatten := by
      intro hmem
      obtain ⟨s, hs, hin⟩ := List.mem_flatten.mp hmem
      have hs := List.mem_of_mem_take hs
      rw [Delimited.segments_noSep _ hr] at hs
      split at hs
      · exact absurd hs (List.not_mem_nil)
      · rw [List.mem_singleton.mp hs] at hin
        exact hr hin
    rw [d.feed_noSep hsub] at h
    exact Or.inl h
  | line body more hbody ih =>
    intro d n h
    cases n with
    | zero => exact Or.inl h
    | succ n =>
      rw [Delimited.segments_line _ hbody, List.take_succ_cons, List.flatten_cons,
          d.feed_append, d.feed_line hbody] at h
      rw [Delimited.segments_line _ hbody, requests, List.take_succ_cons]
      rcases ih _ n h with hold | ⟨hne, hlen⟩
      · rcases Fifo.mem_push hold with hold | rfl
        · exact Or.inl hold
        · exact Or.inr ⟨by simp, by simp⟩
      · rw [List.length_nil, requests_zero] at hlen
        exact Or.inr ⟨hne, List.mem_cons_of_mem _ hlen⟩

/-- A write adds only lines whose allocation was granted. -/
theorem WriteCall.mem_lines_run {c : WriteCall} {k : Kernel} (h : k.Owned []) {l : List UInt8}
    (hl : l ∈ (c.run k).2.view.lines) :
    l ∈ k.view.lines ∨ l ≠ [] ∧ ∃ i, (c.kmalloc i l.length).isSome = true := by
  rw [(aesdWrite_outcome c h).view, segs] at hl
  rcases Device.mem_lines_feed c.buf k.view _ hl with hold | ⟨hne, hlen⟩
  · exact Or.inl hold
  · rw [h.length_part, stored, segs] at hlen
    split at hlen
    · exact Or.inr ⟨hne, Kmalloc.mem_take_granted hlen⟩
    · simp at hlen

/-- Every stored line was granted to a write of the run. -/
theorem mem_lines_runCalls (llseek : Nat → Int → Int → Nat → SeekResult) (calls : List Call)
    {l : List UInt8} (hl : l ∈ (runCalls llseek calls).view.lines) :
    l ≠ [] ∧ ∃ c, Call.write c ∈ calls ∧ ∃ i, (c.kmalloc i l.length).isSome = true := by
  induction calls using List.reverseRecOn with
  | nil =>
    rw [runCalls, List.foldl_nil, view_init] at hl
    exact absurd hl List.not_mem_nil
  | append_singleton calls call ih =>
    have hidle := idle_runCalls llseek calls
    have hstep : runCalls llseek (calls ++ [call]) = call.run llseek (runCalls llseek calls) := by
      simp [runCalls]
    rw [hstep] at hl
    have hold : l ∈ (runCalls llseek calls).view.lines →
        l ≠ [] ∧ ∃ c, Call.write c ∈ calls ++ [call] ∧
          ∃ i, (c.kmalloc i l.length).isSome = true := by
      intro h
      obtain ⟨hne, c, hc, hgr⟩ := ih h
      exact ⟨hne, c, List.mem_append_left _ hc, hgr⟩
    cases call with
    | write c =>
      rcases WriteCall.mem_lines_run hidle.owned hl with h | ⟨hne, hgr⟩
      · exact hold h
      · exact ⟨hne, c, by simp, hgr⟩
    | read | lseek | ioctl =>
      rw [Call.view_run hidle.owned llseek _ (by simp)] at hl
      exact hold hl

/-! ## The walk from the oldest slot -/

section Walk

variable {buffer : AesdCircularBuffer}

/-- The slots after the stored ones are empty. -/
theorem AesdCircularBuffer.WellFormed.slot_beyond (h : buffer.WellFormed) {i : Nat}
    (hi : buffer.stored ≤ i) (hten : i < 10) : buffer.slot (buffer.slotOf i) = .zero := by
  cases hf : buffer.full with
  | true =>
    have : buffer.stored = 10 := by rw [stored, hf, if_pos rfl]
    omega
  | false =>
    rw [h.stored_of_notFull hf] at hi
    rw [slotOf, h.notFull_out hf, Nat.zero_add, Nat.mod_eq_of_lt hten]
    exact h.notFull_zero hf i hi hten

/-- The loop over stored slots adds up their sizes. -/
theorem adjustLoop_stored (hne : ∀ e ∈ buffer.fromOldest, e.size ≠ 0) (n : Nat) :
    ∀ i newPos, i + n ≤ buffer.stored →
      adjustLoop buffer n i newPos
        = some (newPos + (((buffer.fromOldest.map AesdBufferEntry.size).drop i).take n).sum) := by
  induction n with
  | zero => intro i newPos _; simp [adjustLoop]
  | succ n ih =>
    intro i newPos hle
    have hget := AesdCircularBuffer.getElem?_fromOldest (show i < buffer.stored by omega)
    have hsize := hne _ (List.mem_of_getElem? hget)
    have hcons : (buffer.fromOldest.map AesdBufferEntry.size).drop i
        = (buffer.slot (buffer.slotOf i)).size
          :: (buffer.fromOldest.map AesdBufferEntry.size).drop (i + 1) := by
      rw [List.drop_eq_getElem?_toList_append, List.getElem?_map, hget]
      rfl
    rw [adjustLoop, Nat.add_comm i buffer.outOffs]
    rw [AesdCircularBuffer.slotOf] at hsize hcons
    rw [if_neg (fun he => hsize he.2), ih _ _ (by omega), hcons, List.take_succ_cons,
        List.sum_cons, Nat.add_assoc]

/-- The loop gives up when it comes to the first empty slot. -/
theorem adjustLoop_beyond (h : buffer.WellFormed) (n : Nat) :
    ∀ i newPos, i ≤ buffer.stored → buffer.stored < i + n → i + n ≤ 10 →
      adjustLoop buffer n i newPos = none := by
  induction n with
  | zero => intro i newPos _ _ _; omega
  | succ n ih =>
    intro i newPos hi hlt hten
    rw [adjustLoop]
    split
    · rfl
    · rename_i hnot
      rcases Nat.lt_or_ge i buffer.stored with hlt' | hge
      · exact ih _ _ hlt' (by omega) (by omega)
      · have hzero := h.slot_beyond hge (by omega)
        rw [AesdCircularBuffer.slotOf, Nat.add_comm] at hzero
        exact absurd ⟨by rw [hzero]; rfl, by rw [hzero]; rfl⟩ hnot

end Walk

/-! ## The driver's seek -/

/-- **`adjust_aesd_file_offset`**, when the lock is taken, is the abstract
seek. -/
theorem adjustAesdFileOffset_eq {k : Kernel} (h : k.Owned []) (hne : ∀ l ∈ k.view.lines, l ≠ [])
    {env : CallEnv} (hint : env.interrupted = false) (cmd off : UInt32) (fPos : Nat) :
    (adjustAesdFileOffset env cmd off fPos k).1
      = (k.view.seekTo cmd.toNat off.toNat).elim ⟨-eINVAL, fPos⟩ (fun p => ⟨p, p⟩) := by
  have hsizes := h.map_size
  have hstored : k.view.lines.length = k.dev.cBuffer.stored := by
    rw [Kernel.view, List.length_map, AesdCircularBuffer.length_fromOldest]
  have hten := k.dev.cBuffer.stored_le
  have hpos : ∀ e ∈ k.dev.cBuffer.fromOldest, e.size ≠ 0 := by
    intro e he hzero
    have hmem : e.size ∈ k.view.lines.map List.length :=
      hsizes ▸ List.mem_map_of_mem he
    obtain ⟨l, hl, hlen⟩ := List.mem_map.mp hmem
    exact hne l hl (List.eq_nil_of_length_eq_zero (hlen.trans hzero))
  have hnone : k.dev.cBuffer.stored ≤ cmd.toNat →
      k.view.seekTo cmd.toNat off.toNat = none := by
    intro hge
    rw [Device.seekTo_eq_none_iff]
    intro hoff
    have := Device.lt_length_of_offset hoff
    omega
  simp only [adjustAesdFileOffset, hint, Bool.false_eq_true, if_false]
  rw [show k.mutexLock.dev.cBuffer = k.dev.cBuffer from rfl]
  by_cases hcmd : cmd.toNat ≥ aesdcharMaxWriteOperationsSupported
  · rw [if_pos hcmd, hnone (Nat.le_trans hten hcmd)]
    rfl
  rw [if_neg hcmd]
  have hlt : cmd.toNat < 10 := Nat.lt_of_not_le hcmd
  rcases Nat.lt_trichotomy cmd.toNat k.dev.cBuffer.stored with hin | hat | hout
  · have hbacked := h.backed_slot (i := k.dev.cBuffer.slotOf cmd.toNat)
      (Nat.mod_lt _ (by decide))
    have hsize : (k.dev.cBuffer.slot (k.dev.cBuffer.slotOf cmd.toNat)).size
        = (k.view.lines.getD cmd.toNat []).length := by
      rw [Kernel.view_line hin, hbacked.length_content]
    rw [adjustLoop_stored hpos _ _ _ (by omega), hsizes, List.drop_zero, Nat.zero_add]
    rw [AesdCircularBuffer.slotOf, Nat.add_comm] at hsize hbacked
    simp only [hsize, hbacked.null_iff]
    rw [Device.seekTo, Positions.position]
    by_cases hoff : off.toNat < (k.view.lines.getD cmd.toNat []).length
    · rw [if_pos hoff, if_neg (by omega)]
      simp
    · rw [if_neg hoff, if_pos (by omega)]
      rfl
  · have hslot := h.ring.slot_beyond (Nat.le_of_eq hat.symm) hlt
    rw [AesdCircularBuffer.slotOf, Nat.add_comm] at hslot
    have hnull : AesdBufferEntry.zero.buffptr = none ∨
        off.toNat ≥ AesdBufferEntry.zero.size := Or.inl rfl
    rw [adjustLoop_stored hpos _ _ _ (by omega), hnone (by omega)]
    simp only [hslot]
    rw [if_pos hnull]
    rfl
  · rw [adjustLoop_beyond h.ring _ _ _ (Nat.zero_le _) (by omega) (by omega),
        hnone (by omega)]
    rfl

/-- `AESDCHAR_IOCSEEKTO` on an open file at `fPos`. -/
def Kernel.seekto (k : Kernel) (env : CallEnv) (fPos : Nat) (arg : AesdSeekto) : SeekResult :=
  (aesdIoctl env aesdcharIocseekto arg fPos k).1

/-- It succeeds where the lock, the copy and the abstract seek do, and is
without effect otherwise. -/
theorem Kernel.Owned.seekto_cases {k : Kernel} (h : k.Owned []) (hne : ∀ l ∈ k.view.lines, l ≠ [])
    (env : CallEnv) (fPos : Nat) (arg : AesdSeekto) :
    (∃ p : Nat, (env.interrupted = false ∧ env.notCopied = 0) ∧
        k.view.seekTo arg.writeCmd.toNat arg.writeCmdOffset.toNat = some p ∧
        k.seekto env fPos arg = ⟨p, p⟩) ∨
      ∃ e : Nat, ¬ ((env.interrupted = false ∧ env.notCopied = 0) ∧
          arg.writeCmdOffset.toNat < (k.view.lines.getD arg.writeCmd.toNat []).length) ∧
        k.seekto env fPos arg = ⟨-(e + 1 : Nat), fPos⟩ := by
  rw [Kernel.seekto, aesdIoctl, if_pos rfl]
  by_cases hcopy : env.notCopied = 0
  · rw [if_neg (not_not.mpr hcopy)]
    cases hint : env.interrupted with
    | true =>
      refine Or.inr ⟨511, fun hok => absurd hok.1.1 (by decide), ?_⟩
      rw [adjustAesdFileOffset, if_pos hint]
      rfl
    | false =>
      rw [adjustAesdFileOffset_eq h hne hint]
      cases hseek : k.view.seekTo arg.writeCmd.toNat arg.writeCmdOffset.toNat with
      | none =>
        have hoff := (Device.seekTo_eq_none_iff ..).mp hseek
        exact Or.inr ⟨21, fun hok => hoff hok.2, rfl⟩
      | some p => exact Or.inl ⟨p, ⟨rfl, hcopy⟩, rfl, rfl⟩
  · rw [if_pos hcopy]
    exact Or.inr ⟨13, fun hok => hcopy hok.1.2, rfl⟩

/-! ## Seeking and finding -/

/-- `kmalloc` grants nothing beyond 4 GiB (its own limit is far lower). -/
def Kmalloc.Limited (kmalloc : Kmalloc) : Prop := ∀ i n, UInt32.size < n → kmalloc i n = none

/-- The call allocates with a `kmalloc` that has a limit. -/
def Call.Limited : Call → Prop
  | .write c => c.kmalloc.Limited
  | _ => True

theorem length_le_of_limited {llseek : Nat → Int → Int → Nat → SeekResult}
    {calls : List Call} (hlimit : ∀ call ∈ calls, call.Limited) {l : List UInt8}
    (hl : l ∈ (runCalls llseek calls).view.lines) : l.length ≤ UInt32.size := by
  obtain ⟨_, c, hc, i, hgr⟩ := mem_lines_runCalls llseek calls hl
  by_contra hgt
  rw [hlimit _ hc i l.length (by omega)] at hgr
  exact absurd hgr (by decide)

/-- With lines of at most 4 GiB, 32 bits name every line and offset. -/
theorem Device.exists_seekto {d : Device} (hten : d.lines.length ≤ 10)
    (hlen : ∀ l ∈ d.lines, l.length ≤ UInt32.size) {p : Nat}
    (hp : p < (d.lines.map List.length).sum) :
    ∃ arg : AesdSeekto, d.seekTo arg.writeCmd.toNat arg.writeCmdOffset.toNat = some p := by
  obtain ⟨line, offset, hseek⟩ := d.exists_seekTo hp
  obtain ⟨hline, hoff⟩ := Device.lt_of_seekTo hseek
  have hsize : UInt32.size = 4294967296 := rfl
  have hle : (d.lines.getD line []).length ≤ UInt32.size := by
    rw [List.getD_eq_getElem _ _ hline]
    exact hlen _ (List.getElem_mem hline)
  have hcmd : (UInt32.ofNat line).toNat = line :=
    UInt32.toNat_ofNat_of_lt (by omega)
  have harg : (UInt32.ofNat offset).toNat = offset :=
    UInt32.toNat_ofNat_of_lt (by omega)
  exact ⟨⟨.ofNat line, .ofNat offset⟩, by rw [hcmd, harg, hseek]⟩

/-- What one seek has to do with the search and with reading. -/
structure SeekAgrees (k : Kernel) (env : CallEnv) (fPos : Nat) (arg : AesdSeekto) : Prop where
  /-- It succeeds exactly for an offset inside a stored line. -/
  succeeds_iff : 0 ≤ (k.seekto env fPos arg).retval ↔
    (env.interrupted = false ∧ env.notCopied = 0) ∧
      arg.writeCmd.toNat < k.view.lines.length ∧
      arg.writeCmdOffset.toNat < (k.view.lines.getD arg.writeCmd.toNat []).length
  /-- At the position it sets, the search finds the slot of that line, and
  that offset. -/
  finds : 0 ≤ (k.seekto env fPos arg).retval →
    aesdCircularBufferFindEntryOffsetForFpos k.dev.cBuffer (k.seekto env fPos arg).fPos
        = some (k.dev.cBuffer.slotOf arg.writeCmd.toNat, arg.writeCmdOffset.toNat) ∧
      (k.dev.cBuffer.slot (k.dev.cBuffer.slotOf arg.writeCmd.toNat)).content k.heap
        = k.view.lines.getD arg.writeCmd.toNat []
  /-- A read there delivers the line from that offset on. -/
  reads : 0 ≤ (k.seekto env fPos arg).retval → ∀ count,
    (aesdRead .ok count (k.seekto env fPos arg).fPos k).1.data
      = ((k.view.lines.getD arg.writeCmd.toNat []).drop arg.writeCmdOffset.toNat).take count
  unmoved : (k.seekto env fPos arg).retval < 0 → (k.seekto env fPos arg).fPos = fPos

theorem Kernel.Owned.seekAgrees {k : Kernel} (h : k.Owned []) (hne : ∀ l ∈ k.view.lines, l ≠ [])
    (env : CallEnv) (fPos : Nat) (arg : AesdSeekto) : SeekAgrees k env fPos arg := by
  rcases h.seekto_cases hne env fPos arg with ⟨p, hok, hseek, hres⟩ | ⟨e, hbad, hres⟩
  · obtain ⟨hline, hoff⟩ := Device.lt_of_seekTo hseek
    have hstored : arg.writeCmd.toNat < k.dev.cBuffer.stored := by
      rwa [Kernel.view, List.length_map, AesdCircularBuffer.length_fromOldest] at hline
    have hloc := (Device.seekTo_eq_some_iff ..).mp hseek
    constructor
    · rw [hres]
      exact ⟨fun _ => ⟨hok, hline, hoff⟩, fun _ => Int.natCast_nonneg p⟩
    · intro _
      rw [hres, findEntryOffsetForFpos_eq_locate h.ring, h.map_size, hloc]
      exact ⟨rfl, (Kernel.view_line hstored).symm⟩
    · intro _ count
      rw [hres, aesdRead_eq h rfl]
      exact Device.readAt_seekTo hseek count
    · intro hneg
      rw [hres] at hneg
      exact absurd hneg (Int.not_lt.mpr (Int.natCast_nonneg p))
  · have hneg : ¬ 0 ≤ (k.seekto env fPos arg).retval := by
      rw [hres]
      show ¬ 0 ≤ -((e + 1 : Nat) : Int)
      omega
    exact ⟨⟨fun hs => absurd hs hneg, fun hs => absurd ⟨hs.1, hs.2.2⟩ hbad⟩,
      fun hs => absurd hs hneg, fun hs => absurd hs hneg, fun _ => by rw [hres]⟩

/-- **Seek and search agree on positions**, in every state between two calls
of a run; and every position of the stored bytes is set by exactly one
successful command. -/
theorem seekto_agrees_with_find (llseek : Nat → Int → Int → Nat → SeekResult)
    (calls : List Call) (fPos : Nat) :
    (∀ env arg, SeekAgrees (runCalls llseek calls) env fPos arg) ∧
    ((∀ call ∈ calls, call.Limited) →
      ∀ p < ((runCalls llseek calls).view.lines.map List.length).sum, ∃! arg : AesdSeekto,
        0 ≤ ((runCalls llseek calls).seekto .ok fPos arg).retval ∧
        ((runCalls llseek calls).seekto .ok fPos arg).fPos = p) := by
  have h := (idle_runCalls llseek calls).owned
  have hne : ∀ l ∈ (runCalls llseek calls).view.lines, l ≠ [] := fun l hl =>
    (mem_lines_runCalls llseek calls hl).1
  refine ⟨fun env arg => h.seekAgrees hne env fPos arg, fun hlimit p hp => ?_⟩
  have hten : (runCalls llseek calls).view.lines.length ≤ 10 := by
    rw [Kernel.view, List.length_map, AesdCircularBuffer.length_fromOldest]
    exact AesdCircularBuffer.stored_le _
  obtain ⟨arg, hseek⟩ := Device.exists_seekto hten
    (fun l hl => length_le_of_limited hlimit hl) hp
  -- Both directions go through the abstract seek, which locates `p`.
  have hsets : ∀ arg' : AesdSeekto,
      (0 ≤ ((runCalls llseek calls).seekto .ok fPos arg').retval ∧
        ((runCalls llseek calls).seekto .ok fPos arg').fPos = p) ↔
      (runCalls llseek calls).view.seekTo arg'.writeCmd.toNat arg'.writeCmdOffset.toNat
        = some p := by
    intro arg'
    rcases h.seekto_cases hne .ok fPos arg' with ⟨q, _, hq, hres⟩ | ⟨e, hbad, hres⟩
    · rw [hres, hq, Option.some.injEq]
      exact ⟨fun hs => hs.2, fun hs => ⟨Int.natCast_nonneg q, hs⟩⟩
    · rw [hres]
      constructor
      · intro hs
        have hneg : 0 ≤ -((e + 1 : Nat) : Int) := hs.1
        omega
      · intro hs
        exact absurd ⟨⟨rfl, rfl⟩, (Device.lt_of_seekTo hs).2⟩ hbad
  refine ⟨arg, (hsets arg).mpr hseek, fun arg' harg' => ?_⟩
  have hloc := (Device.seekTo_eq_some_iff ..).mp hseek
  have hloc' := (Device.seekTo_eq_some_iff ..).mp ((hsets arg').mp harg')
  rw [hloc, Option.some.injEq, Prod.mk.injEq] at hloc'
  obtain ⟨hcmd, hoff⟩ := hloc'
  cases arg
  cases arg'
  rw [AesdSeekto.mk.injEq]
  exact ⟨UInt32.toNat_inj.mp hcmd.symm, UInt32.toNat_inj.mp hoff.symm⟩

/-- A run that stores the line `"hi\n"`, with a `kmalloc` that grants at
most 4 MiB. -/
def oneLineRun : List Call :=
  [.write ⟨fun _ n => if n ≤ 4194304 then some (fun _ => 0) else none, .ok, [104, 105, 10]⟩]

theorem seekto_agrees_one_line :
    ∃! arg : AesdSeekto,
      0 ≤ ((runCalls (fun p _ _ _ => ⟨0, p⟩) oneLineRun).seekto .ok 0 arg).retval ∧
      ((runCalls (fun p _ _ _ => ⟨0, p⟩) oneLineRun).seekto .ok 0 arg).fPos = 2 := by
  refine (seekto_agrees_with_find _ oneLineRun 0).2 ?_ 2 (by decide)
  intro call hcall
  rw [List.mem_singleton.mp hcall]
  intro i n hn
  have hsize : UInt32.size = 4294967296 := rfl
  exact if_neg (by omega)

end Aesd.Driver

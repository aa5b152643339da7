/-
Aesd.Driver.SequentialReader — one open file, read from front to back while
other clients write.

The bytes of all lines completed since `aesd_init_module` are numbered in
the order they were completed (`completedBytes`). The ring holds the lines
completed last, so a file position counts from the first byte that has not
been evicted: position `f` is byte number `evictedBytes + f`
(`contents_fileRun`). The position itself moves by what a read returns and
by nothing else (`fPos_fileRun`).

From the two, `reader_never_repeats`: a read delivers the bytes its position
stands for, and the next one goes on after them but for what has been
evicted in between.
-/
import Aesd.Driver.ReadRuns
import Aesd.Driver.WriteRuns

namespace Aesd.Driver

/-! ## One file among others -/

/-- An event on the device, seen from one open file: a read of this file, or
a call that another file is made for. -/
inductive FileEvent where
  | read (env : CallEnv) (count : Nat)
  | other (call : Call)

/-- The kernel and the position of the file. -/
structure OpenFile where
  kernel : Kernel
  fPos : Nat

def OpenFile.step (llseek : Nat → Int → Int → Nat → SeekResult) (s : OpenFile) :
    FileEvent → OpenFile
  | .read env count =>
    let (result, kernel) := aesdRead env count s.fPos s.kernel
    ⟨kernel, result.fPos⟩
  | .other call => ⟨call.run llseek s.kernel, s.fPos⟩

/-- The state after some events on a freshly loaded module, the file being
opened at position `start`. -/
def fileRun (llseek : Nat → Int → Int → Nat → SeekResult) (start : Nat)
    (events : List FileEvent) : OpenFile :=
  events.foldl (OpenFile.step llseek) ⟨aesdInitModule, start⟩

/-- What a read at this point returns. -/
def OpenFile.read (s : OpenFile) (env : CallEnv) (count : Nat) : ReadResult :=
  (aesdRead env count s.fPos s.kernel).1

/-- Every write among the events reports success. -/
def WritesSucceed (llseek : Nat → Int → Int → Nat → SeekResult) (start : Nat)
    (events : List FileEvent) : Prop :=
  ∀ before c after, events = before ++ .other (.write c) :: after →
    (c.run (fileRun llseek start before).kernel).1 = c.buf.length

/-! ## The numbering -/

/-- The bytes an event writes. -/
def FileEvent.written : FileEvent → List UInt8
  | .other (.write c) => c.buf
  | _ => []

/-- The lines completed by the writes of the events, oldest first. -/
def completedLines (events : List FileEvent) : List (List UInt8) :=
  Delimited.lines endCharacter (events.flatMap FileEvent.written)

/-- Their bytes; the number of a byte is its index. -/
def completedBytes (events : List FileEvent) : List UInt8 := (completedLines events).flatten

/-- The lines the ring has lost: all but the ten completed last. -/
def evictedLines (events : List FileEvent) : List (List UInt8) :=
  (completedLines events).rdrop 10

/-- The number of bytes evicted so far. -/
def evictedBytes (events : List FileEvent) : Nat := (evictedLines events).flatten.length

/-- Later events do not renumber a byte, and evict no fewer. -/
theorem prefix_completedLines (before after : List FileEvent) :
    completedLines before <+: completedLines (before ++ after) := by
  rw [completedLines, completedLines, List.flatMap_append]
  exact Delimited.lines_prefix_append _ _ _

theorem prefix_completedBytes (before after : List FileEvent) :
    completedBytes before <+: completedBytes (before ++ after) := by
  obtain ⟨more, hmore⟩ := prefix_completedLines before after
  rw [completedBytes, completedBytes, ← hmore, List.flatten_append]
  exact List.prefix_append _ _

theorem evictedBytes_le (before after : List FileEvent) :
    evictedBytes before ≤ evictedBytes (before ++ after) := by
  obtain ⟨more, hmore⟩ := prefix_completedLines before after
  have hpre : evictedLines before <+: evictedLines (before ++ after) := by
    have hsame : (completedLines before ++ more).take ((completedLines before).length - 10)
        = (completedLines before).take ((completedLines before).length - 10) :=
      List.take_append_of_le_length (Nat.sub_le _ 10)
    rw [evictedLines, evictedLines, ← hmore, List.rdrop, List.rdrop, List.length_append, ← hsame]
    exact List.take_prefix_take_left (by omega)
  obtain ⟨more', hmore'⟩ := hpre
  rw [evictedBytes, evictedBytes, ← hmore', List.flatten_append, List.length_append]
  exact Nat.le_add_right _ _

/-! ## Runs -/

section Run

variable {llseek : Nat → Int → Int → Nat → SeekResult} {start : Nat}

theorem fileRun_append (before after : List FileEvent) :
    fileRun llseek start (before ++ after)
      = after.foldl (OpenFile.step llseek) (fileRun llseek start before) :=
  List.foldl_append

theorem idle_fileRun (events : List FileEvent) : (fileRun llseek start events).kernel.Idle := by
  induction events using List.reverseRecOn with
  | nil => exact idle_init
  | append_singleton events e ih =>
    rw [fileRun_append]
    cases e with
    | read env count => exact ih.sameButLock (aesdRead_state ih.owned env count _)
    | other call => exact ih.call llseek call

/-- A write that reports success feeds the device all its bytes. -/
theorem WriteCall.view_run_of_success {c : WriteCall} {k : Kernel} (h : k.Idle)
    (hret : (c.run k).1 = c.buf.length) : (c.run k).2.view = k.view.feed c.buf := by
  obtain ⟨piece, hacc, hview⟩ := aesdWrite_accepted c h.owned
  rcases hacc with ⟨_, rfl⟩ | ⟨hneg, _, _⟩
  · exact hview
  · omega

/-- The device has read what the writes have written. -/
theorem view_fileRun {events : List FileEvent} (hw : WritesSucceed llseek start events) :
    (fileRun llseek start events).kernel.view
      = Device.empty.feed (events.flatMap FileEvent.written) := by
  induction events using List.reverseRecOn with
  | nil => exact view_init
  | append_singleton events e ih =>
    have hidle : (fileRun llseek start events).kernel.Idle := idle_fileRun events
    have hview := ih fun before c after hevents =>
      hw before c (after ++ [e]) (by rw [hevents]; simp)
    rw [fileRun_append, List.flatMap_append, List.flatMap_singleton, Device.feed_append,
        ← hview]
    cases e with
    | read env count =>
      exact Kernel.SameButLock.view (aesdRead_state hidle.owned env count _)
    | other call =>
      by_cases hwrite : ∃ c, call = .write c
      · obtain ⟨c, rfl⟩ := hwrite
        exact WriteCall.view_run_of_success hidle (hw events c [] rfl)
      · have hnone : FileEvent.written (.other call) = [] := by
          cases call with
          | write c => exact absurd ⟨c, rfl⟩ hwrite
          | read | lseek | ioctl => rfl
        rw [hnone, Device.feed_nil]
        exact Call.view_run hidle.owned llseek call fun c hc => hwrite ⟨c, hc⟩

/-- The lines that are not stored any more are the evicted ones. -/
theorem completedLines_eq {events : List FileEvent} (hw : WritesSucceed llseek start events) :
    completedLines events
      = evictedLines events ++ (fileRun llseek start events).kernel.view.lines := by
  rw [view_fileRun hw, Device.feed_empty, evictedLines, List.rdrop, List.rtake]
  exact (List.take_append_drop _ _).symm

/-- Position `f` of the stored bytes is byte number `evictedBytes + f`. -/
theorem contents_fileRun {events : List FileEvent} (hw : WritesSucceed llseek start events) :
    (fileRun llseek start events).kernel.view.contents
      = (completedBytes events).drop (evictedBytes events) := by
  rw [completedBytes, completedLines_eq hw, List.flatten_append, evictedBytes, List.drop_left]
  rfl

end Run

/-! ## Reading from front to back -/

section Run

variable {llseek : Nat → Int → Int → Nat → SeekResult} {start : Nat}

/-- Events among which every read of this file returns no bytes. -/
def NoReads (llseek : Nat → Int → Int → Nat → SeekResult) (s : OpenFile)
    (events : List FileEvent) : Prop :=
  ∀ before env count after, events = before ++ .read env count :: after →
    ((before.foldl (OpenFile.step llseek) s).read env count).retval ≤ 0

/-- They leave the position where it is. -/
theorem NoReads.fPos {s : OpenFile} (h : s.kernel.Idle) {events : List FileEvent}
    (hno : NoReads llseek s events) :
    (events.foldl (OpenFile.step llseek) s).fPos = s.fPos := by
  induction events generalizing s with
  | nil => rfl
  | cons e events ih =>
    have hidle : (s.step llseek e).kernel.Idle := by
      cases e with
      | read env count => exact h.sameButLock (aesdRead_state h.owned env count _)
      | other call => exact h.call llseek call
    have hstep : (s.step llseek e).fPos = s.fPos := by
      cases e with
      | read env count =>
        have hzero : (aesdRead env count s.fPos s.kernel).1.retval ≤ 0 :=
          hno [] env count events rfl
        have hmove := aesdRead_fPos h env count s.fPos
        rw [Int.toNat_of_nonpos hzero] at hmove
        exact hmove
      | other call => rfl
    rw [List.foldl_cons, ih hidle fun before env count after hevents =>
      hno (e :: before) env count after (by rw [hevents]; rfl), hstep]

/-- **A read delivers the bytes its position stands for.** -/
theorem read_delivers {events : List FileEvent} (hw : WritesSucceed llseek start events)
    (env : CallEnv) (count : Nat)
    (hpos : 0 < ((fileRun llseek start events).read env count).retval) :
    let s := fileRun llseek start events
    (s.read env count).retval = (s.read env count).data.length ∧
      (s.read env count).data
        <+: (completedBytes events).drop (evictedBytes events + s.fPos) := by
  intro s
  obtain ⟨hdata, hret⟩ := aesdRead_data (idle_fileRun events) env count s.fPos hpos
  have hpre := s.kernel.view.readAt_prefix count s.fPos
  rw [contents_fileRun hw, List.drop_drop] at hpre
  rw [show (s.read env count).data = _ from hdata]
  exact ⟨hret, hpre⟩

/-- The next read of this file that returns bytes starts where the last one
ended. -/
theorem fPos_next_read (before between : List FileEvent) {env : CallEnv} {count : Nat}
    (hpos : 0 < ((fileRun llseek start before).read env count).retval)
    (hno : NoReads llseek ((fileRun llseek start before).step llseek (.read env count))
      between) :
    (fileRun llseek start (before ++ .read env count :: between)).fPos
      = (fileRun llseek start before).fPos
        + ((fileRun llseek start before).read env count).data.length := by
  have hidle : (fileRun llseek start before).kernel.Idle := idle_fileRun before
  have hidle' : ((fileRun llseek start before).step llseek (.read env count)).kernel.Idle :=
    hidle.sameButLock (aesdRead_state hidle.owned env count _)
  obtain ⟨hdata, hret⟩ := aesdRead_data hidle env count _ hpos
  rw [fileRun_append, List.foldl_cons, hno.fPos hidle']
  show (aesdRead env count _ _).1.fPos = _
  rw [aesdRead_fPos hidle, hret, Int.toNat_natCast,
      show ((fileRun llseek start before).read env count).data = _ from hdata]

end Run

/-- **A sequential reader never sees a byte twice or out of order**, whatever
is written in between: with the completed bytes numbered through, a read at
position `f` delivers those from number `E + f` on, `E` being the number of
bytes evicted so far; and the next read that delivers any goes on after the
last one but for the bytes evicted between the two. -/
theorem reader_never_repeats (llseek : Nat → Int → Int → Nat → SeekResult) (start : Nat)
    (events : List FileEvent) (hw : WritesSucceed llseek start events) :
    (∀ before after, events = before ++ after →
      completedLines before
        = evictedLines before ++ (fileRun llseek start before).kernel.view.lines) ∧
    (∀ before env count after, events = before ++ .read env count :: after →
      let s := fileRun llseek start before
      0 < (s.read env count).retval →
      (s.read env count).retval = (s.read env count).data.length ∧
        (s.read env count).data
          <+: (completedBytes events).drop (evictedBytes before + s.fPos)) ∧
    ∀ before env count between env' count' after,
      events = before ++ .read env count :: (between ++ .read env' count' :: after) →
      let s := fileRun llseek start before
      let later := before ++ .read env count :: between
      let s' := fileRun llseek start later
      0 < (s.read env count).retval →
      NoReads llseek (s.step llseek (.read env count)) between →
      0 < (s'.read env' count').retval →
      evictedBytes before ≤ evictedBytes later ∧
        evictedBytes later + s'.fPos
          = (evictedBytes before + s.fPos + (s.read env count).data.length)
            + (evictedBytes later - evictedBytes before) := by
  have hsucceed : ∀ before after, events = before ++ after →
      WritesSucceed llseek start before := by
    intro before after hevents before' c after' hbefore
    exact hw before' c (after' ++ after) (by rw [hevents, hbefore]; simp)
  refine ⟨fun before after hevents => completedLines_eq (hsucceed before after hevents),
    fun before env count after hevents => ?_, fun before env count between env' count' after
      hevents => ?_⟩
  · intro s hpos
    obtain ⟨hret, hpre⟩ := read_delivers (hsucceed before _ hevents) env count hpos
    refine ⟨hret, hpre.trans ?_⟩
    rw [hevents]
    exact (prefix_completedBytes before _).drop _
  · intro s later s' hpos hno _
    have hmove : s'.fPos = s.fPos + (s.read env count).data.length :=
      fPos_next_read before between hpos hno
    have hle : evictedBytes before ≤ evictedBytes later := evictedBytes_le before _
    exact ⟨hle, by omega⟩

theorem writesSucceed_of_unhindered (llseek : Nat → Int → Int → Nat → SeekResult) (start : Nat)
    {events : List FileEvent} (h : ∀ c, .other (.write c) ∈ events → c.Unhindered) :
    WritesSucceed llseek start events := by
  intro before c after hevents
  have hc : c.Unhindered := h c (by simp [hevents])
  exact (aesdWrite_outcome c (idle_fileRun before).owned).ret_ok (hc.succeeds _)

/-- A byte is read of ten lines `"a\n"`. Then `"b\n"` pushes the first of them
out, and two bytes are read. -/
def readAcrossEviction : List FileEvent :=
  [.other (.write (.plain (List.replicate 10 [97, 10]).flatten)), .read .ok 1,
   .other (.write (.plain [98, 10])), .read .ok 2]

/-- The second read goes on two bytes after the first one, and delivers the byte
with the number 3. -/
theorem reader_never_repeats_across_eviction :
    evictedBytes (readAcrossEviction.take 3)
        + (fileRun (fun p _ _ _ => ⟨0, p⟩) 0 (readAcrossEviction.take 3)).fPos = 1 + 2 ∧
      ((fileRun (fun p _ _ _ => ⟨0, p⟩) 0 (readAcrossEviction.take 3)).read .ok 2).data
        <+: (completedBytes readAcrossEviction).drop 3 := by
  have hw : WritesSucceed (fun p _ _ _ => ⟨0, p⟩) 0 readAcrossEviction := by
    refine writesSucceed_of_unhindered _ 0 fun c hc => ?_
    simp only [readAcrossEviction, List.mem_cons, FileEvent.other.injEq, Call.write.injEq,
      reduceCtorEq, false_or, or_false, List.not_mem_nil] at hc
    rcases hc with rfl | rfl <;> exact WriteCall.unhindered_plain _
  have hno : ∀ s, NoReads (fun p _ _ _ => ⟨0, p⟩) s [.other (.write (.plain [98, 10]))] := by
    intro s before env count after hevents
    rcases before with _ | ⟨e, before⟩
    · cases hevents
    · simp at hevents
  obtain ⟨-, hdelivers, hnext⟩ := reader_never_repeats _ 0 readAcrossEviction hw
  have hstart : evictedBytes (readAcrossEviction.take 3)
      + (fileRun (fun p _ _ _ => ⟨0, p⟩) 0 (readAcrossEviction.take 3)).fPos = 1 + 2 :=
    (hnext (readAcrossEviction.take 1) .ok 1 [.other (.write (.plain [98, 10]))] .ok 2 [] rfl
      (by decide +kernel) (hno _) (by decide +kernel)).2.trans (by decide +kernel)
  have hdata := (hdelivers (readAcrossEviction.take 3) .ok 2 [] rfl (by decide +kernel)).2
  rw [hstart] at hdata
  exact ⟨hstart, hdata⟩

end Aesd.Driver

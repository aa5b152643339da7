/-
Aesd.Server.ReplyLog — the order in which the clients' messages are taken.

`to_write` is a log: a handler appends its message and replies with all of
the log, and `reply_mutex` makes one step of the two. So the replies grow
with the log, and each ends with the message it replies to. What is written
to the file later is the log again, as it is by then. `ReplyLog` is the
invariant of the runs; it holds for every file, and with handlers on the
seek path at work at the same time.

As in `Aesd.Server.Handlers`, an append with its reply is one step, a
`write` with its `strlen` is one, and `to_write` has room.
-/
import Aesd.Server.Messages

namespace Aesd.Server

open StepSystem

variable {σ : Type} {F : TempFile σ}

/-! ## The log -/

/-- A message and the handler that has appended it. -/
structure LogEntry where
  handler : Nat
  text : List UInt8

/-- What `to_write` holds after these messages. -/
def logText (log : List LogEntry) : List UInt8 := (log.map LogEntry.text).flatten

theorem logText_append (log log' : List LogEntry) :
    logText (log ++ log') = logText log ++ logText log' := by
  simp [logText]

/-- The handlers that have appended. -/
def appenders (log : List LogEntry) : List Nat := log.map LogEntry.handler

/-- What the receive loop makes of a connection that sends a message. -/
def IsText (reads : List (List UInt8)) (text : List UInt8) : Prop :=
  ∃ fresh st rest, receive fresh reads .init = .message st rest ∧
    text = CString.contents st.toWriteLocal

/-- Connection `i` sends this message. -/
def Sends (conns : List (List (List UInt8))) (i : Nat) (text : List UInt8) : Prop :=
  ∃ reads, conns[i]? = some reads ∧ IsText reads text

/-- The handler has replied with `sent`, and may have written. -/
inductive Handler.RepliedWith (sent : List UInt8) : Handler → Prop where
  | appended : RepliedWith sent (.appended sent)
  | finished : RepliedWith sent (.finished sent)

/-- Where handler `i` can be, given the log. -/
inductive Logged (conns : List (List (List UInt8))) (log : List LogEntry) (i : Nat) :
    Handler → Prop where
  | connected {reads} (hconn : conns[i]? = some reads) (hno : i ∉ appenders log) :
      Logged conns log i (.connected reads)
  | received {text} (hsends : Sends conns i text) (hno : i ∉ appenders log) :
      Logged conns log i (.received text)
  | appended {sent} (hin : i ∈ appenders log) : Logged conns log i (.appended sent)
  | seek {cmd} (hno : i ∉ appenders log) : Logged conns log i (.seek cmd)
  | reading {sent} (hno : i ∉ appenders log) : Logged conns log i (.reading sent)
  | finished {sent} : Logged conns log i (.finished sent)

/-- A write to the file: the handler, and how much of the log there was. -/
structure LogWrite where
  handler : Nat
  entries : Nat

/-- The handlers that have written. -/
def writers (writes : List LogWrite) : List Nat := writes.map LogWrite.handler

/-- What the file is asked to do. -/
inductive FileOp where
  | write (bytes : List UInt8)
  | ioctl (cmd : Driver.AesdSeekto)
  | read (count : Nat)

def FileOp.bytes : FileOp → Option (List UInt8)
  | .write bytes => some bytes
  | _ => none

/-- The file after these operations. -/
def TempFile.after (F : TempFile σ) (file : σ) (ops : List FileOp) : σ :=
  ops.foldl (fun file op => match op with
    | .write bytes => F.write bytes file
    | .ioctl cmd => (F.ioctl cmd file).2
    | .read count => (F.read count file).2) file

/-- The state is that of a log, of which `writes` tells what is in the file,
`file₀` at first. -/
structure ReplyLog (F : TempFile σ) (file₀ : σ) (conns : List (List (List UInt8)))
    (log : List LogEntry) (writes : List LogWrite) (s : ServerState σ) : Prop where
  handlers : ∀ i h, s.handlers[i]? = some h → Logged conns log i h
  /-- Each handler appends once. -/
  nodup : (appenders log).Nodup
  /-- What it appends is its client's message. -/
  texts : ∀ e ∈ log, Sends conns e.handler e.text
  stored : s.toWrite = logText log
  /-- A reply is the log up to the message it replies to. -/
  replies : ∀ before e after, log = before ++ e :: after →
    ∃ h, s.handlers[e.handler]? = some h ∧ h.RepliedWith (logText (before ++ [e]))
  /-- Those that have appended are done when they have written, once. -/
  written_once : (writers writes).Nodup
  writers_iff : ∀ i, i ∈ writers writes ↔
    i ∈ appenders log ∧ ∃ sent, s.handlers[i]? = some (.finished sent)
  /-- Each writes the log as it is by then, its own message with it. -/
  writes_mem : ∀ w ∈ writes, w.entries ≤ log.length ∧ w.handler ∈ appenders (log.take w.entries)
  writes_grow : (writes.map LogWrite.entries).Pairwise (· ≤ ·)
  written : s.written = (writes.map fun w => logText (log.take w.entries)).flatten
  /-- That is all the file is changed by. -/
  file : ∃ ops, s.file = F.after file₀ ops ∧
    ops.filterMap FileOp.bytes = writes.map fun w => logText (log.take w.entries)

theorem replyLog_start (F : TempFile σ) (file : σ) (conns : List (List (List UInt8))) :
    ReplyLog F file conns [] [] (.start file conns) where
  handlers := by
    intro i h hi
    simp only [ServerState.start, List.getElem?_map, Option.map_eq_some_iff] at hi
    obtain ⟨reads, hreads, rfl⟩ := hi
    exact .connected hreads (by simp [appenders])
  nodup := by simp [appenders]
  texts := by simp
  stored := rfl
  replies := by simp
  written_once := by simp [writers]
  writers_iff := by simp [writers, appenders]
  writes_mem := by simp
  writes_grow := by simp
  written := rfl
  file := ⟨[], rfl, rfl⟩

/-! ## Steps -/

variable {conns : List (List (List UInt8))} {log : List LogEntry} {writes : List LogWrite}
  {file₀ : σ} {s s₁ : ServerState σ} {a : Action} {i : Nat} {before after : Handler}

theorem TempFile.after_concat (F : TempFile σ) (file : σ) (ops : List FileOp) (op : FileOp) :
    F.after file (ops ++ [op]) = F.after (F.after file ops) [op] := by
  simp [after]

/-- A step that neither appends nor writes, but may read or seek. -/
theorem ReplyLog.move (h : ReplyLog F file₀ conns log writes s) (hi : s.handlers[i]? = some before)
    (hno : i ∉ appenders log) (hlogged : Logged conns log i after)
    (hsame : s₁.handlers = s.handlers) (htext : s₁.toWrite = s.toWrite)
    (hwritten : s₁.written = s.written)
    (hfile : s₁.file = s.file ∨ ∃ op, s₁.file = F.after s.file [op] ∧ op.bytes = none) :
    ReplyLog F file₀ conns log writes (s₁.setHandler i after) := by
  have hget : ∀ j, (s₁.setHandler i after).handlers[j]?
      = if i = j then some after else s.handlers[j]? := by
    rw [ServerState.setHandler, hsame]
    exact getElem?_set_eq_ite hi after
  have hne : ∀ j, j ∈ appenders log → i ≠ j := by
    rintro j hj rfl
    exact hno hj
  refine ⟨fun j h' hj => ?_, h.nodup, h.texts, htext.trans h.stored, fun pre e post he => ?_,
    h.written_once, fun j => ?_, h.writes_mem, h.writes_grow, hwritten.trans h.written, ?_⟩
  · rw [hget] at hj
    split at hj
    · rename_i hij
      cases hj
      exact hij ▸ hlogged
    · exact h.handlers j h' hj
  · have hj : e.handler ∈ appenders log := by simp [appenders, he]
    rw [hget, if_neg (hne _ hj)]
    exact h.replies pre e post he
  · rw [h.writers_iff j]
    refine and_congr_right fun hj => ?_
    rw [hget, if_neg (hne j hj)]
  · obtain ⟨ops, hops, hbytes⟩ := h.file
    rcases hfile with hfile | ⟨op, hfile, hop⟩
    · exact ⟨ops, hfile.trans hops, hbytes⟩
    · refine ⟨ops ++ [op], ?_, by simp [hbytes, hop]⟩
      rw [F.after_concat, ← hops]
      exact hfile

/-- A longer log is in order for the handlers that have not appended to it. -/
theorem Logged.snoc {j : Nat} {h : Handler} {e : LogEntry} (hj : Logged conns log j h)
    (hne : e.handler ≠ j) : Logged conns (log ++ [e]) j h := by
  have hmem : j ∈ appenders (log ++ [e]) ↔ j ∈ appenders log := by
    simp [appenders, Ne.symm hne]
  cases hj with
  | connected hconn hno => exact .connected hconn (hmem.not.mpr hno)
  | received hsends hno => exact .received hsends (hmem.not.mpr hno)
  | appended hin => exact .appended (hmem.mpr hin)
  | seek hno => exact .seek (hmem.not.mpr hno)
  | reading hno => exact .reading (hmem.not.mpr hno)
  | finished => exact .finished

/-- A handler appends its message and replies. -/
theorem ReplyLog.append {text : List UInt8} (h : ReplyLog F file₀ conns log writes s)
    (hi : s.handlers[i]? = some (.received text)) :
    ReplyLog F file₀ conns (log ++ [⟨i, text⟩]) writes
      ({ s with toWrite := s.toWrite ++ text }.setHandler i (.appended (s.toWrite ++ text))) := by
  obtain ⟨hsends, hno⟩ : Sends conns i text ∧ i ∉ appenders log := by
    cases h.handlers i _ hi with
    | received hsends hno => exact ⟨hsends, hno⟩
  have htext : s.toWrite ++ text = logText (log ++ [⟨i, text⟩]) := by
    rw [logText_append, ← h.stored]
    simp [logText]
  have hget : ∀ j, (({ s with toWrite := s.toWrite ++ text } : ServerState σ).setHandler i
      (.appended (s.toWrite ++ text))).handlers[j]?
        = if i = j then some (.appended (s.toWrite ++ text)) else s.handlers[j]? :=
    getElem?_set_eq_ite hi _
  have hne : ∀ j, j ∈ appenders log → i ≠ j := by
    rintro j hj rfl
    exact hno hj
  -- What was written before is still the front of the log.
  have hwrites : (writes.map fun w => logText ((log ++ [LogEntry.mk i text]).take w.entries))
      = writes.map fun w => logText (log.take w.entries) :=
    List.map_congr_left fun w hw => by
      rw [List.take_append_of_le_length (h.writes_mem w hw).1]
  refine ⟨fun j h' hj => ?_, ?_, fun e he => ?_, htext, fun pre e post he => ?_,
    h.written_once, fun j => ?_, fun w hw => ?_, h.writes_grow, ?_, ?_⟩
  · rw [hget] at hj
    split at hj
    · rename_i hij
      cases hj
      exact .appended (by simp [appenders, hij])
    · rename_i hij
      exact (h.handlers j h' hj).snoc hij
  · simpa [appenders] using h.nodup.concat hno
  · rcases List.mem_append.mp he with he | he
    · exact h.texts e he
    · rw [List.mem_singleton.mp he]
      exact hsends
  · rcases List.eq_nil_or_concat post with rfl | ⟨post, last, rfl⟩
    · obtain ⟨rfl, hlast⟩ := List.append_inj' he rfl
      cases hlast
      exact ⟨_, (hget i).trans (if_pos rfl), htext ▸ .appended⟩
    · rw [List.concat_eq_append, ← List.cons_append, ← List.append_assoc] at he
      obtain ⟨hlog, -⟩ := List.append_inj' he rfl
      have hj : e.handler ∈ appenders log := by simp [appenders, hlog]
      rw [hget, if_neg (hne _ hj)]
      exact h.replies pre e post hlog
  · by_cases hj : i = j
    · subst hj
      simp [h.writers_iff, hno, hget]
    · simp [h.writers_iff, appenders, hget, hj, Ne.symm hj]
  · obtain ⟨hle, hmem⟩ := h.writes_mem w hw
    rw [List.take_append_of_le_length hle, List.length_append]
    exact ⟨by omega, hmem⟩
  · rw [hwrites]
    exact h.written
  · rw [hwrites]
    exact h.file

/-- A handler writes what `to_write` holds by now. -/
theorem ReplyLog.write {sent : List UInt8} (h : ReplyLog F file₀ conns log writes s)
    (hi : s.handlers[i]? = some (.appended sent)) :
    ReplyLog F file₀ conns log (writes ++ [⟨i, log.length⟩])
      ({ s with
        file := F.write s.toWrite s.file
        written := s.written ++ s.toWrite }.setHandler i (.finished sent)) := by
  have hin : i ∈ appenders log := by
    cases h.handlers i _ hi with
    | appended hin => exact hin
  have hno : i ∉ writers writes := by
    simp [h.writers_iff, hi]
  have hget : ∀ j, (s.handlers.set i (.finished sent))[j]?
      = if i = j then some (.finished sent) else s.handlers[j]? := getElem?_set_eq_ite hi _
  refine ⟨fun j h' hj => ?_, h.nodup, h.texts, h.stored, fun pre e post he => ?_, ?_, fun j => ?_,
    fun w hw => ?_, ?_, ?_, ?_⟩
  · rw [ServerState.setHandler, hget] at hj
    split at hj
    · cases hj
      exact .finished
    · exact h.handlers j h' hj
  · obtain ⟨h', hh', hreplied⟩ := h.replies pre e post he
    rw [ServerState.setHandler, hget]
    split
    · rename_i hij
      rw [← hij, hi, Option.some.injEq] at hh'
      subst hh'
      cases hreplied
      exact ⟨_, rfl, .finished⟩
    · exact ⟨h', hh', hreplied⟩
  · simpa [writers] using h.written_once.concat hno
  · rw [ServerState.setHandler, hget]
    by_cases hj : i = j
    · subst hj
      simp [writers, hin]
    · rw [if_neg hj, ← h.writers_iff j]
      simp [writers, Ne.symm hj]
  · rcases List.mem_append.mp hw with hw | hw
    · exact h.writes_mem w hw
    · rw [List.mem_singleton.mp hw, List.take_length]
      exact ⟨Nat.le_refl _, hin⟩
  · rw [List.map_append, List.pairwise_append]
    refine ⟨h.writes_grow, by simp, ?_⟩
    rintro n hn m hm
    obtain ⟨w, hw, rfl⟩ := List.mem_map.mp hn
    rw [List.map_singleton, List.mem_singleton] at hm
    exact hm ▸ (h.writes_mem w hw).1
  · show s.written ++ s.toWrite = _
    rw [List.map_append, List.flatten_append, ← h.written, h.stored]
    simp
  · obtain ⟨ops, hops, hbytes⟩ := h.file
    refine ⟨ops ++ [.write s.toWrite], ?_, by simp [hbytes, FileOp.bytes, h.stored]⟩
    rw [F.after_concat, ← hops]
    rfl

/-- Whose message a step appends to the log, and whose write it makes. -/
def Action.appender : Action → Option Nat
  | .append i => some i
  | _ => none

def Action.writer : Action → Option Nat
  | .write i => some i
  | _ => none

/-- **One step** of any handler. -/
theorem ReplyLog.step {s' : ServerState σ} (h : ReplyLog F file₀ conns log writes s)
    (hstep : step F s a = some s') :
    ∃ log' writes', ReplyLog F file₀ conns log' writes' s' ∧
      appenders log' = appenders log ++ a.appender.toList ∧
      writers writes' = writers writes ++ a.writer.toList := by
  obtain ⟨i, before, after, s₁, hi, hmoves, rfl⟩ := step_moves hstep
  have hlogged := h.handlers i before hi
  have hquiet : ReplyLog F file₀ conns log writes (s₁.setHandler i after) → a.appender = none →
      a.writer = none →
      ∃ log' writes', ReplyLog F file₀ conns log' writes' (s₁.setHandler i after) ∧
        appenders log' = appenders log ++ a.appender.toList ∧
        writers writes' = writers writes ++ a.writer.toList :=
    fun hs happ hwrite => ⟨log, writes, hs, by simp [happ], by simp [hwrite]⟩
  cases hmoves with
  | receivedText hrec =>
    cases hlogged with
    | connected hconn hno =>
      have hsends : Sends conns i _ := ⟨_, hconn, _, _, _, hrec, rfl⟩
      exact hquiet (h.move hi hno (.received hsends hno) rfl rfl rfl (.inl rfl)) rfl rfl
  | receivedSeek hrec =>
    cases hlogged with
    | connected _ hno =>
      exact hquiet (h.move hi hno (.seek hno) rfl rfl rfl (.inl rfl)) rfl rfl
  | append => exact ⟨_, writes, h.append hi, by simp [appenders, Action.appender], by
      simp [Action.writer]⟩
  | write _ => exact ⟨log, _, h.write hi, by simp [Action.appender], by
      simp [writers, Action.writer]⟩
  | @sought i cmd _ _ =>
    cases hlogged with
    | seek hno =>
      exact hquiet (h.move hi hno (.reading hno) rfl rfl rfl (.inr ⟨.ioctl cmd, rfl, rfl⟩)) rfl rfl
  | @seekFailed i cmd _ _ =>
    cases hlogged with
    | seek hno =>
      exact hquiet (h.move hi hno .finished rfl rfl rfl (.inr ⟨.ioctl cmd, rfl, rfl⟩)) rfl rfl
  | read _ =>
    cases hlogged with
    | reading hno =>
      exact hquiet (h.move hi hno (.reading hno) rfl rfl rfl (.inr ⟨.read bufferSize, rfl, rfl⟩))
        rfl rfl
  | readEnd _ =>
    cases hlogged with
    | reading hno =>
      exact hquiet (h.move hi hno .finished rfl rfl rfl (.inr ⟨.read bufferSize, rfl, rfl⟩)) rfl rfl

/-- Any run of all handlers: the log and the writes go on in its order. -/
theorem replyLog_run {schedule : List Action} {s' : ServerState σ}
    (h : ReplyLog F file₀ conns log writes s)
    (hrun : run (step F) s schedule = some s') :
    ∃ log' writes', ReplyLog F file₀ conns log' writes' s' ∧
      appenders log' = appenders log ++ schedule.filterMap Action.appender ∧
      writers writes' = writers writes ++ schedule.filterMap Action.writer := by
  induction schedule generalizing s log writes with
  | nil =>
    cases hrun
    exact ⟨log, writes, h, by simp, by simp⟩
  | cons a schedule ih =>
    obtain ⟨s₁, hstep, hrest⟩ := run_cons hrun
    obtain ⟨log₁, writes₁, hlog₁, happ₁, hwrites₁⟩ := h.step hstep
    obtain ⟨log', writes', hlog', happ', hwrites'⟩ := ih hlog₁ hrest
    refine ⟨log', writes', hlog', ?_, ?_⟩
    · rw [happ', happ₁, List.append_assoc]
      cases a <;> rfl
    · rw [hwrites', hwrites₁, List.append_assoc]
      cases a <;> rfl

/-- **The replies follow one log.** In every run of whole appends and writes,
with room in `to_write`, the messages are taken in the order of the `append`
steps; each reply is the log up to its own message, and what has been written
is the log as it was at the `write` steps, which alone change the file. -/
theorem replies_follow_log (F : TempFile σ) (file : σ) (conns : List (List (List UInt8)))
    {schedule : List Action} {s : ServerState σ}
    (hrun : run (step F) (.start file conns) schedule = some s) :
    ∃ log writes, ReplyLog F file conns log writes s ∧
      appenders log = schedule.filterMap Action.appender ∧
      writers writes = schedule.filterMap Action.writer :=
  replyLog_run (replyLog_start F file conns) hrun

/-- Two clients. -/
theorem two_replies_follow_log : ∃ s log writes,
    run (step regularFile) (.start ([], 0) [[messageA], [messageB]]) (alone 0 ++ alone 1) = some s ∧
      ReplyLog regularFile ([], 0) [[messageA], [messageB]] log writes s ∧
      appenders log = (alone 0 ++ alone 1).filterMap Action.appender ∧
      writers writes = (alone 0 ++ alone 1).filterMap Action.writer := by
  have hrun := run_two_clients regularFile ([], 0)
  obtain ⟨log, writes, hlog⟩ := replies_follow_log regularFile ([], 0) _ hrun
  exact ⟨_, log, writes, hrun, hlog⟩

end Aesd.Server

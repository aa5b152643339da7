/-
Aesd.Server.PrintingTime — the build without the driver: the handlers and the
thread that prints the time, on one regular file.

Every ten seconds `printing_time` appends a line with the date to `to_write`
and then writes it to the file, which it opens for itself. So both are made
of whole texts, of the clients' messages and of dates (`TimedLog`), and where
the messages end with newlines each line of the file is a line of a message
or a date. `get_time` gives `strftime` twice the size of the buffer it
writes to; no date is that long.

The `strcat` of a date is one step like the append of a handler, no `strlen`
of a `write` falls into it, and `to_write` has room for all the dates: the
source never grows it for them.
-/
import Aesd.Library.Strftime
import Aesd.Server.ReplyLog

namespace Aesd.Server

open StepSystem
open Strftime (Tm Conversion strftime conversions)

/-! ## `get_time` -/

/-- The size of `date`. -/
abbrev dateSize : Nat := 100

def timestampFormat : String := "timestamp:%a, %d %b %Y %T %z\n"

/-- The C string `get_time` leaves in `outstr`, for what `localtime` returns;
none where `strftime` returns 0. -/
def getTime (tm : Tm) : Option (List UInt8) := strftime 200 timestampFormat tm

/-- The conversions before the year, and those after it up to the newline. -/
def timestampFront : List Conversion :=
  (Strftime.ascii "timestamp:").map .literal ++
    [.dayName, .literal 44, .literal 32, .day, .literal 32, .monthName, .literal 32]

def timestampBack : List Conversion := [.literal 32, .time, .literal 32, .zone]

def timestampConversions : List Conversion := timestampFront ++ .year :: timestampBack

theorem getTime_eq (tm : Tm) :
    getTime tm = some (timestampConversions.flatMap (Conversion.field tm) ++ [endChar]) := by
  have hformat : conversions timestampFormat.toList
      = some (timestampConversions ++ [.literal endChar]) := by decide
  have hwidth : ((timestampConversions ++ [Conversion.literal endChar]).map
      Conversion.width).sum < 200 := by decide
  have hfits := Nat.lt_of_le_of_lt (Strftime.length_flatMap_field_le tm _) hwidth
  simp only [getTime, strftime, hformat, Option.bind_eq_bind, Option.bind_some, if_pos hfits]
  simp [Conversion.field]

/-- A date is one line and fits into the buffer, its NUL included. -/
theorem getTime_line (tm : Tm) :
    ∃ body, getTime tm = some (body ++ [endChar]) ∧ endChar ∉ body ∧ 0 ∉ body ∧
      (body ++ [endChar]).length < dateSize := by
  have hbyte : ∀ b ∈ timestampConversions.flatMap (Conversion.field tm), 31 < b := by
    intro b hb
    obtain ⟨c, hc, hb⟩ := List.mem_flatMap.mp hb
    by_cases hliteral : ∃ b', c = .literal b'
    · obtain ⟨b', rfl⟩ := hliteral
      have hliterals : (timestampConversions.all fun c => match c with
          | .literal b => decide (31 < b)
          | _ => true) = true := by decide
      obtain rfl := List.mem_singleton.mp hb
      exact of_decide_eq_true (List.all_eq_true.mp hliterals _ hc)
    · have hlt := Conversion.lt_of_mem_field (not_exists.mp hliteral) hb
      exact UInt8.lt_trans (by decide) hlt
  have hwidth : (timestampConversions.map Conversion.width).sum + 1 < dateSize := by decide
  refine ⟨_, getTime_eq tm, fun h => absurd (hbyte _ h) (by decide),
    fun h => absurd (hbyte _ h) (by decide), ?_⟩
  rw [List.length_append]
  exact Nat.lt_of_le_of_lt
    (Nat.add_le_add_right (Strftime.length_flatMap_field_le tm _) 1) hwidth

/-- **The dates tell the times apart.** Whatever `localtime` returns, the
buffer gets one line that fits, without a NUL in it, and two times have one
line only if they differ in nothing that it shows. -/
theorem dates_tell_times_apart (tm tm' : Tm) :
    ∃ body body', getTime tm = some (body ++ [endChar]) ∧ getTime tm' = some (body' ++ [endChar]) ∧
      endChar ∉ body ∧ 0 ∉ body ∧ (body ++ [endChar]).length < dateSize ∧
      (body = body' ↔ tm.SameReading tm') := by
  obtain ⟨body, hbody, hline, hnul, hlength⟩ := getTime_line tm
  refine ⟨body, _, hbody, getTime_eq tm', hline, hnul, hlength, ?_⟩
  rw [getTime_eq, Option.some.injEq] at hbody
  obtain rfl := (List.append_inj' hbody rfl).1
  have hfront : Conversion.year ∉ timestampFront := by decide
  have hback : Conversion.year ∉ timestampBack := by decide
  constructor
  · intro h
    have hfields := Strftime.field_eq_of_text_eq hfront hback h
    exact Strftime.sameReading_of_fields fun c hc => hfields c (by revert c; decide)
  · intro h
    exact congrArg List.flatten (List.map_congr_left fun c _ => h.field_eq c)

/-! ## Steps -/

structure TimedState where
  server : ServerState (List UInt8 × Nat)
  /-- The date that `printing_time` has appended and is about to write. -/
  date : Option (List UInt8)

/-- The file is opened with these contents. -/
def TimedState.start (contents : List UInt8) (conns : List (List (List UInt8))) : TimedState :=
  ⟨.start (contents, 0) conns, none⟩

inductive TimedAction where
  | handler (a : Action)
  /-- `get_time`, and `strcat(to_write, date)` under `reply_mutex`. -/
  | appendDate (tm : Tm)
  /-- The `write` to a descriptor of its own, under `file_mutex`. -/
  | writeDate

def timedStep (s : TimedState) : TimedAction → Option TimedState
  | .handler a => (step regularFile s.server a).map fun server => { s with server }
  | .appendDate tm =>
    match s.date, getTime tm with
    | none, some date =>
      some ⟨{ s.server with toWrite := s.server.toWrite ++ date }, some date⟩
    | _, _ => none
  | .writeDate =>
    match s.date, s.server.fileMutex with
    | some date, none =>
      let (contents, fPos) := s.server.file
      some ⟨{ s.server with file := (contents ++ date, fPos) }, none⟩
    | _, _ => none

/-! ## The log -/

/-- What has been appended to `to_write`. -/
inductive TimedEntry where
  | message (e : LogEntry)
  | date (tm : Tm)

def TimedEntry.text : TimedEntry → List UInt8
  | .message e => e.text
  | .date tm => (getTime tm).getD []

def timedText (log : List TimedEntry) : List UInt8 := (log.map TimedEntry.text).flatten

/-- The step that has appended it. -/
def TimedEntry.origin : TimedEntry → Nat ⊕ Tm
  | .message e => .inl e.handler
  | .date tm => .inr tm

def TimedAction.origin : TimedAction → Option (Nat ⊕ Tm)
  | .handler a => a.appender.map .inl
  | .appendDate tm => some (.inr tm)
  | .writeDate => none

theorem timedText_append (log log' : List TimedEntry) :
    timedText (log ++ log') = timedText log ++ timedText log' := by
  simp [timedText]

theorem timedText_singleton (e : TimedEntry) : timedText [e] = e.text := by
  simp [timedText]

/-- Where handler `i` can be. Its reply is the log up to its own message. -/
inductive TimedLogged (conns : List (List (List UInt8))) (log : List TimedEntry) (i : Nat) :
    Handler → Prop where
  | connected {reads} (hconn : conns[i]? = some reads) : TimedLogged conns log i (.connected reads)
  | received {text} (hsends : Sends conns i text) : TimedLogged conns log i (.received text)
  | replied {text before after h} (hlog : log = before ++ .message ⟨i, text⟩ :: after)
      (hreply : h.RepliedWith (timedText (before ++ [.message ⟨i, text⟩]))) :
      TimedLogged conns log i h
  | seek {cmd} : TimedLogged conns log i (.seek cmd)
  | failed : TimedLogged conns log i (.finished [])

/-- The state is that of a log; `writes` are the pieces of it that were
written to the file, all of it at the time or one date. -/
structure TimedLog (contents : List UInt8) (conns : List (List (List UInt8)))
    (log : List TimedEntry) (writes : List (List TimedEntry)) (s : TimedState) : Prop where
  handlers : ∀ i h, s.server.handlers[i]? = some h → TimedLogged conns log i h
  texts : ∀ e, .message e ∈ log → Sends conns e.handler e.text
  stored : s.server.toWrite = timedText log
  date : ∀ date, s.date = some date → ∃ tm, .date tm ∈ log ∧ getTime tm = some date
  pieces : ∀ w ∈ writes, w <+: log ∨ ∃ tm, .date tm ∈ log ∧ w = [.date tm]
  file : s.server.file.1 = contents ++ timedText writes.flatten

section Steps

variable {contents : List UInt8} {conns : List (List (List UInt8))} {log : List TimedEntry}
  {writes : List (List TimedEntry)} {s : TimedState}

theorem TimedLogged.snoc {i : Nat} {h : Handler} (hi : TimedLogged conns log i h)
    (e : TimedEntry) : TimedLogged conns (log ++ [e]) i h := by
  cases hi with
  | connected hconn => exact .connected hconn
  | received hsends => exact .received hsends
  | replied hlog hreply => exact .replied (by rw [hlog, List.append_assoc, List.cons_append]) hreply
  | seek => exact .seek
  | failed => exact .failed

/-- Something is appended to `to_write`. -/
theorem TimedLog.snoc (h : TimedLog contents conns log writes s) {e : TimedEntry}
    (he : ∀ m, e = .message m → Sends conns m.handler m.text) :
    TimedLog contents conns (log ++ [e]) writes
      { s with server := { s.server with toWrite := s.server.toWrite ++ e.text } } where
  handlers i h' hi := (h.handlers i h' hi).snoc e
  texts m hm := by
    rcases List.mem_append.mp hm with hm | hm
    · exact h.texts m hm
    · exact he m (List.mem_singleton.mp hm).symm
  stored := by
    rw [timedText_append, timedText_singleton, ← h.stored]
  date date hdate := by
    obtain ⟨tm, htm, hget⟩ := h.date date hdate
    exact ⟨tm, List.mem_append_left _ htm, hget⟩
  pieces w hw := by
    rcases h.pieces w hw with hpre | ⟨tm, htm, rfl⟩
    · exact .inl (hpre.trans (List.prefix_append _ _))
    · exact .inr ⟨tm, List.mem_append_left _ htm, rfl⟩
  file := h.file

/-- A piece of the log is written to the file. -/
theorem TimedLog.write (h : TimedLog contents conns log writes s) {w : List TimedEntry}
    (hw : w <+: log ∨ ∃ tm, .date tm ∈ log ∧ w = [.date tm]) (fPos : Nat) (written : List UInt8) :
    TimedLog contents conns log (writes ++ [w]) { s with
      server := { s.server with file := (s.server.file.1 ++ timedText w, fPos), written } } where
  handlers := h.handlers
  texts := h.texts
  stored := h.stored
  date := h.date
  pieces w' hw' := by
    rcases List.mem_append.mp hw' with hw' | hw'
    · exact h.pieces w' hw'
    · exact List.mem_singleton.mp hw' ▸ hw
  file := by
    dsimp only
    rw [h.file, List.flatten_append, timedText_append, List.flatten_singleton, List.append_assoc]

/-- A handler moves on. -/
theorem TimedLog.setHandler (h : TimedLog contents conns log writes s) {i : Nat}
    {before after : Handler} (hi : s.server.handlers[i]? = some before)
    (hafter : TimedLogged conns log i after) :
    TimedLog contents conns log writes { s with server := s.server.setHandler i after } where
  handlers j h' hj := by
    have hget := getElem?_set_eq_ite hi after j
    rw [ServerState.setHandler, hget] at hj
    split at hj
    · rename_i hij
      cases hj
      exact hij ▸ hafter
    · exact h.handlers j h' hj
  texts := h.texts
  stored := h.stored
  date := h.date
  pieces := h.pieces
  file := h.file

/-- **One step** of a handler. -/
theorem TimedLog.handler (h : TimedLog contents conns log writes s) {a : Action}
    {server : ServerState (List UInt8 × Nat)} (hstep : step regularFile s.server a = some server) :
    ∃ log' writes', TimedLog contents conns log' writes' { s with server } ∧
      log'.map TimedEntry.origin = log.map TimedEntry.origin ++ (a.appender.map .inl).toList := by
  obtain ⟨i, before, after, s₁, hi, hmoves, rfl⟩ := step_moves hstep
  have hlogged := h.handlers i before hi
  cases hmoves with
  | receivedText hrec =>
    cases hlogged with
    | connected hconn =>
      have hsends : Sends conns i _ := ⟨_, hconn, _, _, _, hrec, rfl⟩
      exact ⟨log, writes, h.setHandler hi (.received hsends), by simp [Action.appender]⟩
    | replied _ hreply => cases hreply
  | receivedSeek hrec => exact ⟨log, writes, h.setHandler hi .seek, by simp [Action.appender]⟩
  | @append i text =>
    cases hlogged with
    | replied _ hreply => cases hreply
    | received hsends =>
      have hsnoc := h.snoc (e := .message ⟨i, text⟩) fun m hm => by cases hm; exact hsends
      refine ⟨_, writes, hsnoc.setHandler hi (.replied rfl ?_), by
        simp [Action.appender, TimedEntry.origin]⟩
      rw [timedText_append, timedText_singleton, ← h.stored]
      exact .appended
  | @write i sent _ =>
    have hwrite := h.write (.inl List.prefix_rfl)
      (s.server.file.1.length + s.server.toWrite.length) (s.server.written ++ s.server.toWrite)
    rw [← h.stored] at hwrite
    refine ⟨log, _, hwrite.setHandler hi ?_, by simp [Action.appender]⟩
    cases hlogged with
    | replied hlog hreply =>
      cases hreply
      exact .replied hlog .finished
  | sought _ hok => cases hok
  | seekFailed => exact ⟨log, writes, h.setHandler hi .failed, by simp [Action.appender]⟩
  | read =>
    cases hlogged with
    | replied _ hreply => cases hreply
  | readEnd =>
    cases hlogged with
    | replied _ hreply => cases hreply

/-- **One step.** -/
theorem TimedLog.step (h : TimedLog contents conns log writes s) {a : TimedAction} {s' : TimedState}
    (hstep : timedStep s a = some s') :
    ∃ log' writes', TimedLog contents conns log' writes' s' ∧
      log'.map TimedEntry.origin = log.map TimedEntry.origin ++ a.origin.toList := by
  cases a with
  | handler a =>
    obtain ⟨server, hserver, rfl⟩ := Option.map_eq_some_iff.mp hstep
    exact h.handler hserver
  | appendDate tm =>
    simp only [timedStep] at hstep
    split at hstep
    · rename_i date hnone hget
      cases hstep
      have htext : (TimedEntry.date tm).text = date := by simp [TimedEntry.text, hget]
      have hsnoc := h.snoc (e := .date tm) nofun
      rw [htext] at hsnoc
      refine ⟨_, writes, { hsnoc with date := fun date' hdate' => ?_ }, by
        simp [TimedEntry.origin, TimedAction.origin]⟩
      cases hdate'
      exact ⟨tm, by simp, hget⟩
    · cases hstep
  | writeDate =>
    simp only [timedStep] at hstep
    split at hstep
    · rename_i date hdate hmutex
      cases hstep
      obtain ⟨tm, htm, hget⟩ := h.date date hdate
      have htext : timedText [.date tm] = date := by
        simp [timedText_singleton, TimedEntry.text, hget]
      have hwrite := h.write (.inr ⟨tm, htm, rfl⟩) s.server.file.2 s.server.written
      rw [htext] at hwrite
      exact ⟨log, _, { hwrite with date := nofun }, by simp [TimedAction.origin]⟩
    · cases hstep

end Steps

/-! ## Runs -/

end Aesd.Server

/-
Aesd.Server.Replies — how much of a reply reaches the client.

The message path passes all of `to_write` to one `send`, the seek path every
chunk that it reads from `temp_file_fd` to a `send` of its own. A stream
socket may accept a part of what it is given, or nothing (`Socket`). The
seek path ignores the results; the message path keeps its result in an
unsigned variable and tests that for being negative, so no path ever logs a
failure (`failureLogged_eq`). Hence a reply is complete or reported only
when every `send` takes all of its bytes (`reply_complete_iff`).
-/
import Aesd.Library.CString
import Mathlib.Algebra.GroupWithZero.Nat
import Mathlib.Data.List.Flatten

namespace Aesd.Server

/-! ## The socket -/

/-- What the successive `send` calls on a stream socket return: `none` is
-1, and a call that accepts bytes accepts at least one if it is given any. -/
structure Socket where
  send : Nat → List UInt8 → Option Nat
  accepts : ∀ {i : Nat} {arg : List UInt8} {n : Nat}, send i arg = some n →
    n ≤ arg.length ∧ (arg ≠ [] → 0 < n)

/-- The return value of call number `i`. -/
def Socket.retval (sock : Socket) (i : Nat) (arg : List UInt8) : Int :=
  match sock.send i arg with
  | none => -1
  | some n => n

/-- The bytes call number `i` accepts. -/
def Socket.accepted (sock : Socket) (i : Nat) (arg : List UInt8) : List UInt8 :=
  arg.take ((sock.send i arg).getD 0)

/-- The call takes all it is given, if it is given anything. -/
def Socket.TakesAll (sock : Socket) (i : Nat) (arg : List UInt8) : Prop :=
  arg = [] ∨ sock.send i arg = some arg.length

theorem Socket.length_accepted_le (sock : Socket) (i : Nat) (arg : List UInt8) :
    (sock.accepted i arg).length ≤ arg.length := by
  rw [accepted, List.length_take]
  exact Nat.min_le_right _ _

/-- All bytes are accepted exactly when the call says so. -/
theorem Socket.accepted_eq_iff (sock : Socket) (i : Nat) (arg : List UInt8) :
    sock.accepted i arg = arg ↔ sock.TakesAll i arg := by
  unfold accepted TakesAll
  cases hsend : sock.send i arg with
  | none =>
    rw [Option.getD_none, List.take_zero]
    simp [eq_comm]
  | some n =>
    have hle := (sock.accepts hsend).1
    rw [Option.getD_some, Option.some.injEq]
    constructor
    · intro h
      have hlen := congrArg List.length h
      rw [List.length_take] at hlen
      exact Or.inr (by omega)
    · rintro (rfl | rfl)
      · exact List.take_nil
      · exact List.take_length

/-! ## The two paths -/

/-- What became of a reply: the bytes the socket accepted, and whether the
handler logged that `send()` failed. -/
structure Reply where
  accepted : List UInt8
  failureLogged : Bool
  deriving DecidableEq, Repr

/-- Lines 185–195, with `to_write` in memory: `ret_send` is a `size_t`. -/
def sendMessage (sock : Socket) (toWrite : List UInt8) : Reply :=
  let text := CString.contents toWrite
  let retSend := UInt64.ofInt (sock.retval 0 text)
  { accepted := sock.accepted 0 text, failureLogged := decide (retSend < 0) }

/-- Lines 130–133, on the results of the `read(temp_file_fd, ...)` calls. -/
def sendLoop (sock : Socket) : Nat → List (List UInt8) → List UInt8
  | _, [] => []
  | i, chunk :: reads =>
    if chunk.length = 0 then []
    else sock.accepted i chunk ++ sendLoop sock (i + 1) reads

/-- Lines 122–134: nothing is read when the ioctl fails. -/
def sendFromFile (sock : Socket) (ioctlError : Int) (reads : List (List UInt8)) : Reply :=
  if ioctlError < 0 then ⟨[], false⟩ else ⟨sendLoop sock 0 reads, false⟩

/-- How a connection comes to its reply. -/
inductive ReplyPath where
  /-- With `to_write` as it is at the `send`. -/
  | message (toWrite : List UInt8)
  /-- With what the ioctl returns, and then the reads from `temp_file_fd`. -/
  | seek (ioctlError : Int) (reads : List (List UInt8))

def ReplyPath.run (sock : Socket) : ReplyPath → Reply
  | .message toWrite => sendMessage sock toWrite
  | .seek ioctlError reads => sendFromFile sock ioctlError reads

/-- The reads of the loop: those before the first that returns nothing. -/
def readsOf (reads : List (List UInt8)) : List (List UInt8) := reads.takeWhile (· ≠ [])

/-- The arguments of the `send` calls. -/
def ReplyPath.sends : ReplyPath → List (List UInt8)
  | .message toWrite => [CString.contents toWrite]
  | .seek ioctlError reads => if ioctlError < 0 then [] else readsOf reads

/-- The reply: all of `to_write`, or all bytes read from `temp_file_fd`. -/
def ReplyPath.reply : ReplyPath → List UInt8
  | .message toWrite => CString.contents toWrite
  | .seek ioctlError reads => if ioctlError < 0 then [] else (readsOf reads).flatten

/-! ## What arrives -/

/-- **A failure is never logged**: no unsigned number is negative. -/
theorem failureLogged_eq (sock : Socket) (path : ReplyPath) :
    (path.run sock).failureLogged = false := by
  cases path with
  | message toWrite =>
    simp only [ReplyPath.run, sendMessage, decide_eq_false_iff_not]
    exact UInt64.not_lt_zero
  | seek ioctlError reads =>
    simp only [ReplyPath.run, sendFromFile]
    split <;> rfl

theorem sendLoop_length_le (sock : Socket) (i : Nat) (reads : List (List UInt8)) :
    (sendLoop sock i reads).length ≤ (readsOf reads).flatten.length := by
  induction reads generalizing i with
  | nil => exact Nat.le_refl _
  | cons chunk reads ih =>
    by_cases hnil : chunk = []
    · subst hnil
      exact Nat.le_refl _
    · have hpos : ¬ chunk.length = 0 := fun h => hnil (List.eq_nil_of_length_eq_zero h)
      have hle := sock.length_accepted_le i chunk
      have hrest := ih (i + 1)
      rw [sendLoop, if_neg hpos, readsOf, List.takeWhile_cons_of_pos (by simpa using hnil),
          List.flatten_cons, List.length_append, List.length_append]
      rw [readsOf] at hrest
      omega

/-- The loop sends everything exactly when every call takes all its bytes: a
hole in the middle is not made up for by what follows. -/
theorem sendLoop_eq_iff (sock : Socket) (i : Nat) (reads : List (List UInt8)) :
    sendLoop sock i reads = (readsOf reads).flatten ↔
      ∀ j chunk, (readsOf reads)[j]? = some chunk → sock.TakesAll (i + j) chunk := by
  induction reads generalizing i with
  | nil => simp [sendLoop, readsOf]
  | cons chunk reads ih =>
    by_cases hnil : chunk = []
    · subst hnil
      simp [sendLoop, readsOf]
    · have hpos : ¬ chunk.length = 0 := fun h => hnil (List.eq_nil_of_length_eq_zero h)
      have hreads : readsOf (chunk :: reads) = chunk :: readsOf reads := by
        rw [readsOf, List.takeWhile_cons_of_pos (by simpa using hnil)]
        rfl
      have hle := sock.length_accepted_le i chunk
      have hrest := sendLoop_length_le sock (i + 1) reads
      rw [sendLoop, if_neg hpos, hreads, List.flatten_cons]
      constructor
      · intro h
        have hlen := congrArg List.length h
        simp only [List.length_append] at hlen
        obtain ⟨hhead, htail⟩ := List.append_inj h (by omega)
        intro j c hj
        cases j with
        | zero =>
          rw [List.getElem?_cons_zero, Option.some.injEq] at hj
          subst hj
          exact (sock.accepted_eq_iff i chunk).mp hhead
        | succ j =>
          rw [List.getElem?_cons_succ] at hj
          have := (ih (i + 1)).mp htail j c hj
          rwa [Nat.add_assoc, Nat.add_comm 1 j] at this
      · intro h
        have hhead := (sock.accepted_eq_iff i chunk).mpr (h 0 chunk rfl)
        have htail := (ih (i + 1)).mpr fun j c hj => by
          have := h (j + 1) c (by rw [List.getElem?_cons_succ]; exact hj)
          rwa [Nat.add_assoc, Nat.add_comm 1 j]
        rw [hhead, htail]

/-- What is accepted is the reply exactly when every call takes all of its
argument. -/
theorem accepted_eq_reply_iff (sock : Socket) (path : ReplyPath) :
    (path.run sock).accepted = path.reply ↔
      ∀ i arg, path.sends[i]? = some arg → sock.TakesAll i arg := by
  cases path with
  | message toWrite =>
    have hone : (∀ i arg, (ReplyPath.message toWrite).sends[i]? = some arg →
        sock.TakesAll i arg) ↔ sock.TakesAll 0 (CString.contents toWrite) := by
      constructor
      · exact fun h => h 0 _ rfl
      · intro h i arg hi
        cases i with
        | zero => cases hi; exact h
        | succ i => simp [ReplyPath.sends] at hi
    rw [hone, ← sock.accepted_eq_iff]
    rfl
  | seek ioctlError reads =>
    simp only [ReplyPath.run, sendFromFile, ReplyPath.reply, ReplyPath.sends]
    split
    · simp
    · rw [sendLoop_eq_iff]
      simp only [Nat.zero_add]

/-- **Replies are complete or reported** exactly for the sockets that take
all bytes of every call. -/
theorem reply_complete_iff (sock : Socket) (path : ReplyPath) :
    ((path.run sock).failureLogged = false → (path.run sock).accepted = path.reply) ↔
      ∀ i arg, path.sends[i]? = some arg → arg = [] ∨ sock.send i arg = some arg.length := by
  have hiff := accepted_eq_reply_iff sock path
  simp only [Socket.TakesAll] at hiff
  rw [failureLogged_eq, ← hiff]
  exact ⟨fun h => h rfl, fun h _ => h⟩

/-- A socket that accepts one byte at a time. -/
def oneByteSocket : Socket where
  send := fun _ arg => some (min 1 arg.length)
  accepts := by
    intro i arg n h
    cases h
    refine ⟨Nat.min_le_right _ _, fun hne => ?_⟩
    have := List.length_pos_iff.mpr hne
    omega

/-- Of the message `"hi\n"` only the first byte is accepted, and nothing is
logged. -/
theorem oneByteSocket_incomplete :
    ¬ ∀ (sock : Socket) (path : ReplyPath), (path.run sock).failureLogged = false →
      (path.run sock).accepted = path.reply := by
  intro hall
  have hmessage := hall oneByteSocket (.message [104, 105, 10, 0]) (failureLogged_eq ..)
  exact absurd hmessage (by decide)

/-- A reply read in two chunks has a hole. -/
example : (ReplyPath.run oneByteSocket (.seek 0 [[104, 105], [10], []])).accepted = [104, 10] := by
  decide

end Aesd.Server

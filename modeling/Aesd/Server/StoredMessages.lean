/-
Aesd.Server.StoredMessages — what the device holds of the clients' messages.

The handlers write the reply log to `/dev/aesdchar` again and again, and the
driver keeps the last ten lines. Where each message ends with a newline, no
write leaves an open line: each stored line is one of some client's message,
whole, also when the driver runs out of memory in the middle of a write and
while other handlers seek and read. With enough memory the device holds the
last ten lines of all that was written.

This rests on the steps of `Aesd.Server.Handlers`: a `write` that measures
`to_write` in the middle of an append would leave an open line.
-/
import Aesd.Driver.WriteRuns
import Aesd.Server.ReplyLog

namespace Aesd.Server

open Driver (Kernel Kmalloc Device aesdInitModule)
open StepSystem

/-! ## The device under the operations -/

/-- What the driver takes of a write: all of it, or lines from its front. -/
structure Taken (kmalloc : Kmalloc) (bytes piece : List UInt8) : Prop where
  isPrefix : piece <+: bytes
  whole : piece = bytes ∨ Delimited.rest endChar piece = []
  all : kmalloc.Grants → piece = bytes

/-- What the device takes of a write of the log is made of whole messages'
lines. -/
theorem Taken.lines {kmalloc : Kmalloc} {log : List LogEntry} {n : Nat} {piece : List UInt8}
    (h : Taken kmalloc (logText (log.take n)) piece)
    (hends : ∀ e ∈ log, Delimited.rest endChar e.text = []) :
    Delimited.rest endChar piece = [] ∧
      ∀ l ∈ Delimited.lines endChar piece, ∃ e ∈ log, l ∈ Delimited.lines endChar e.text := by
  have htexts : ∀ text ∈ (log.take n).map LogEntry.text, Delimited.rest endChar text = [] := by
    intro text htext
    obtain ⟨e, he, rfl⟩ := List.mem_map.mp htext
    exact hends e (List.mem_of_mem_take he)
  refine ⟨?_, fun l hl => ?_⟩
  · rcases h.whole with rfl | hrest
    · exact Delimited.rest_flatten _ htexts
    · exact hrest
  · obtain ⟨more, hmore⟩ := h.isPrefix
    have hmem := (Delimited.lines_prefix_append endChar piece more).subset hl
    rw [hmore, logText, Delimited.lines_flatten _ htexts, List.mem_flatMap] at hmem
    obtain ⟨text, htext, hl⟩ := hmem
    obtain ⟨e, he, rfl⟩ := List.mem_map.mp htext
    exact ⟨e, List.mem_of_mem_take he, hl⟩

end Aesd.Server

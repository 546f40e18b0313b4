import KbPm.Lib.Scan
import KbPm.Lib.Rounding
import KbPm.Lib.Slots
import KbPm.CText
import KbPm.CJson
import KbPm.CJsonString
import KbPm.CJsonNumber
import KbPm.CJsonFuel
import KbPm.CJsonText
import KbPm.CJsonBlocks
import KbPm.Lib.Subtree
import KbPm.Proc
import KbPm.Process
import KbPm.ProcessText
import KbPm.Kernel
import KbPm.Server
import KbPm.Lib.Trace
import KbPm.Lib.Table
import KbPm.ProcStatus
import KbPm.Operation
import KbPm.Handling
import KbPm.Entries
import KbPm.Length
import KbPm.Bounds
import KbPm.Load
import KbPm.AppList
import KbPm.Represents
import KbPm.Refine
import KbPm.Supervisor
import KbPm.KillTree
import KbPm.Tracking
import KbPm.Killing
import KbPm.Children
import KbPm.Supervision
import KbPm.Persistence
import KbPm.ProcessList
import KbPm.Plan
import KbPm.Decoding
import KbPm.Refusal
import KbPm.Client
import KbPm.Addressing
import KbPm.StatusText
import KbPm.StatusFiles
import KbPm.OpenFiles
import KbPm.Snapshot
import KbPm.TextSize
import KbPm.Received
import KbPm.CommandPath
import KbPm.Box
import KbPm.ShowStatus
import KbPm.Restarts
import KbPm.QuickExit
import KbPm.Descriptors
import KbPm.Descendants
import KbPm.Commute
import KbPm.Connection
import KbPm.Rounds
import KbPm.Exchanges
import KbPm.BrokenPipe
import KbPm.Lib.Outcome
import KbPm.CJsonPrint
import KbPm.AppTable
import KbPm.Cli
import KbPm.Sessions
import KbPm.Programs
import KbPm.Durable
import KbPm.Lives
import KbPm.Orphans
import KbPm.Hosts
import KbPm.Shelves
import KbPm.Takeover
import KbPm.Lib.Heap
import KbPm.CJsonMemory
import KbPm.Memory

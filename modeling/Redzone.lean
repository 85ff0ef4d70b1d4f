import Redzone.Foundation.Transition
import Redzone.Foundation.Causality
import Redzone.Foundation.EpochClock
import Redzone.Foundation.Word
import Redzone.Foundation.Regions
import Redzone.Foundation.Tiles
import Redzone.Foundation.Pending
import Redzone.Foundation.Driven
import Redzone.Foundation.Transcript
import Redzone.Foundation.CString
import Redzone.Foundation.FirstSeen
import Redzone.Race.Engine
import Redzone.Race.Table
import Redzone.Race.EngineRun
import Redzone.Race.EngineClocks
import Redzone.Race.EngineSound
import Redzone.Race.EngineReports
import Redzone.Race.EngineEpochs
import Redzone.Race.EngineComplete
import Redzone.Race.EngineDetects
import Redzone.Race.BucketMap
import Redzone.Shadow.Memory
import Redzone.Shadow.Heap
import Redzone.Shadow.Check
import Redzone.Shadow.World
import Redzone.Shadow.Exact
import Redzone.Shadow.Codes
import Redzone.Shadow.CodesRun
import Redzone.Shadow.ReportKind
import Redzone.Shadow.Header
import Redzone.Shadow.FreePointer
import Redzone.Shadow.Geometry
import Redzone.Shadow.Realloc
import Redzone.Shadow.ReallocBad
import Redzone.Shadow.ObjectStore
import Redzone.Shadow.Refinement
import Redzone.Shadow.Contents
import Redzone.Shadow.BulkCheck
import Redzone.Shadow.StringOps
import Redzone.Shadow.InlineCheck
import Redzone.Shadow.Untracked
import Redzone.Runtime.Registry
import Redzone.Runtime.Wrappers
import Redzone.Runtime.Process
import Redzone.Runtime.Order
import Redzone.Runtime.Steps
import Redzone.Runtime.Threads
import Redzone.Runtime.JoinedChild
import Redzone.Runtime.Records
import Redzone.Runtime.Unsharded
import Redzone.Runtime.Sharding
import Redzone.Runtime.ClockCover
import Redzone.Runtime.CellRecords
import Redzone.Runtime.NoFalseRace
import Redzone.Runtime.RealEdges
import Redzone.Runtime.LockEvents
import Redzone.Runtime.Reporting
import Redzone.Pass.RaceMode
import Redzone.Pass.RaceModeSync
import Redzone.Concurrent.Writes
import Redzone.Concurrent.Machine
import Redzone.Concurrent.Separate
import Redzone.Concurrent.Steps
import Redzone.Concurrent.Sequential
import Redzone.Concurrent.LockFree
import Redzone.Concurrent.Moments
import Redzone.Interpose.Interposer
import Redzone.Interpose.Locking
import Redzone.Interpose.Calls
import Redzone.Interpose.Heaps
import Redzone.Interpose.Introspection
import Redzone.Stack.Body
import Redzone.Pass.Layout
import Redzone.Stack.LiveFrames
import Redzone.Stack.Selective
import Redzone.Foundation.Text
import Redzone.Foundation.Json
import Redzone.Foundation.Groups
import Redzone.Report.Findings
import Redzone.Report.Leaks
import Redzone.Foundation.Lines
import Redzone.Report.Suppressions
import Redzone.Foundation.Terms
import Redzone.Foundation.Expansion
import Redzone.Pass.Modules
import Redzone.Pass.AddressMode
import Redzone.Pass.AddressModeRun
import Redzone.Pass.Redirection
import Redzone.Pass.AllocatorUses
import Redzone.Pass.Behaviour
import Redzone.Pass.Preservation
import Redzone.Report.Ending
import Redzone.Foundation.Schedules
import Redzone.Runtime.Schedules
import Redzone.Pass.RaceBehaviour
import Redzone.Pass.IgnoreList

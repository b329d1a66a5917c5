import OsEngineering.LogReservation
import OsEngineering.RedoLogRecovery
import OsEngineering.LazySbrk
import OsEngineering.PointerChecks
import OsEngineering.ResourceLedger
import OsEngineering.InodeRelease
import OsEngineering.InodeCounts
import OsEngineering.PipeWakeups
import OsEngineering.BornKilled
import OsEngineering.WakeupDelivery
import OsEngineering.BufferRuns
import OsEngineering.SystemCalls
import OsEngineering.FreshInodes
import OsEngineering.PipeLifetime
import OsEngineering.PageOwnership
import OsEngineering.ShellDescriptors
import OsEngineering.ShellParsing
import OsEngineering.MkfsHoles
import OsEngineering.MkfsReading
import OsEngineering.IdeRuns
import OsEngineering.DiskErrors
import OsEngineering.BufferSupply
import OsEngineering.OpenModes
import OsEngineering.PageCopies
import OsEngineering.SbrkShrink
import OsEngineering.CopyOut
import OsEngineering.MallocRuns
import OsEngineering.ConsoleReads
import OsEngineering.ShStrings
import OsEngineering.TransactionRuns
import OsEngineering.StabContract
import OsEngineering.SharedWrites
import OsEngineering.DirectoryMaps
import OsEngineering.PathResolution
import OsEngineering.FailedCalls
import OsEngineering.ArgumentStack
import OsEngineering.Grep
import OsEngineering.PageFreeList
import OsEngineering.BootLoader
import OsEngineering.MpTable
import OsEngineering.ClosedReader
import OsEngineering.PidCounter
import OsEngineering.DebugInfo
import OsEngineering.MallocSizes
import OsEngineering.SelfDeadlock
import OsEngineering.JosConsole
import OsEngineering.Readline
import OsEngineering.JosStrings
import OsEngineering.BoundedPrint
import OsEngineering.NumberFields
import OsEngineering.ShellLines
import OsEngineering.ParentEntries
import OsEngineering.SpinlockRuns
import OsEngineering.SchedulerRounds
import OsEngineering.BufferRecycling
import OsEngineering.SleeplockRuns
import OsEngineering.EditedLine
import OsEngineering.ShellSessions
import OsEngineering.MonitorWords
import OsEngineering.Printers
import OsEngineering.Strtol
import OsEngineering.PipelineRuns

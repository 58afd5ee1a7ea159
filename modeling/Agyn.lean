import Agyn.ApplyQueue
import Agyn.EdgeIndex
import Agyn.RuntimeSteps
import Agyn.EdgeReversal
import Agyn.EdgeAgreement
import Agyn.ApplyPhases
import Agyn.EdgePhases
import Agyn.MirrorRuns
import Agyn.PercentEncoding
import Agyn.PersistedGraph
import Agyn.Programs
import Agyn.FsGraphRepository
import Agyn.GraphStoreReads
import Agyn.GraphStoreWrites
import Agyn.GraphCommit
import Agyn.UpsertRoundTrip
import Agyn.GraphRollback
import Agyn.UpsertRollback
import Agyn.SwapRecovery
import Agyn.CrashSafety
import Agyn.LockedCalls
import Agyn.LockedEffects
import Agyn.UpsertConcurrency
import Agyn.SnapshotReads
import Agyn.AcceptedGraphs
import Agyn.KeyedLists
import Agyn.WriteThrough
import Agyn.NodeStateUpsert
import Agyn.NodeStateRuns
import Agyn.LLMReducers
import Agyn.AgentLoop
import Agyn.LoopTermination
import Agyn.CallPairing
import Agyn.ToolPairing
import Agyn.HistoryKept
import Agyn.RestrictionCap
import Agyn.ContextResolution
import Agyn.AlignedRuns
import Agyn.FaithfulCalls
import Agyn.NewItems
import Agyn.NewAtFirst
import Agyn.RunLifecycle
import Agyn.AgentThreads
import Agyn.QueueDraining
import Agyn.MessagesSeen
import Agyn.MessageDelivery
import Agyn.GuardedRuns
import Agyn.PrismaJson
import Agyn.StatePersistence
import Agyn.StateRoundTrip
import Agyn.ToolRegistry
import Agyn.RegistrySync
import Agyn.RegistryAgreement
import Agyn.CallLinking
import Agyn.LinkOwnership
import Agyn.ReplyMatching
import Agyn.WorkerRegistry
import Agyn.WorkerLookups
import Agyn.WorkerRuns
import Agyn.ReminderTool
import Agyn.ReminderLifecycle
import Agyn.ReminderCancellation
import Agyn.NodeRequests
import Agyn.References
import Agyn.ReferenceMemo
import Agyn.AnsiCleaning
import Agyn.ShellCommand
import Agyn.ShellAgreement
import Agyn.ChunkedCleaning
import Agyn.HighWater
import Agyn.ContainerEvents
import Agyn.ContainerRegistry
import Agyn.ContainerEventProcessor
import Agyn.EventEffects
import Agyn.EventRedelivery
import Agyn.SeparatorRuns
import Agyn.MemoryPaths
import Agyn.MemoryEntities
import Agyn.MemoryService
import Agyn.MemoryTree
import Agyn.MemoryAddressing
import Agyn.MemoryRaces
import Agyn.MemoryContents
import Agyn.MemoryWrites
import Agyn.MemoryCalls
import Agyn.NullBytes
import Agyn.NullByteCleaning
import Agyn.NullFreeValues
import Agyn.WorkspaceProvisioning
import Agyn.Workspaces
import Agyn.WorkspaceReturns
import Agyn.ContainerSweeps
import Agyn.SweepRaces
import Agyn.ThreadTermination
import Agyn.StatusMachine
import Agyn.RequestAuth
import Agyn.TerminatedLines
import Agyn.StdioTransport
import Agyn.McpServer
import Agyn.TerminalGateway
import Agyn.GraphEditor
import Agyn.EditorVersions
import Agyn.SocketRooms
import Agyn.MessageQueues
import Agyn.SummarySplits
import Agyn.Interleavings
import Agyn.CallTools
import Agyn.VolumeGc
import Agyn.IngressCutting
import Agyn.ShellEndings
import Agyn.ChunkAccounting
import Agyn.SavedOutput
import Agyn.Forests
import Agyn.ThreadCleanup
import Agyn.MemorySubtrees
import Agyn.MemoryStates
import Agyn.MemoryTool
import Agyn.ReferenceReport
import Agyn.EventsWatcher
import Agyn.Utf8Decoding
import Agyn.ChildLinks
import Agyn.LinkProgress
import Agyn.LinkRuns
import Agyn.FuelledCalls
import Agyn.PromptResolution
import Agyn.WorkerRefreshes
import Agyn.PromptFrames
import Agyn.PromptStacks
import Agyn.PromptCoverage
import Agyn.PromptRuns
import Agyn.DoublyLinkedLists
import Agyn.RecencyLists
import Agyn.LruRefinement
import Agyn.KeysetPages
import Agyn.RunEventPages
import Agyn.EventEnumeration
import Agyn.ChunkPolling
import Agyn.JoinedRows
import Agyn.ThreadMetrics
import Agyn.MetricCounts
import Agyn.MetadataColumn
import Agyn.MetadataFrames
import Agyn.Utf8Boundaries
import Agyn.MultiplexText
import Agyn.ExecBookkeeping
import Agyn.InteractiveExec
import Agyn.JsonTrees
import Agyn.RefMigration
import Agyn.MigrationPasses
import Agyn.MigrationWalk
import Agyn.EnvEditor
import Agyn.TrimmedTexts
import Agyn.VaultTexts
import Agyn.EnvRoundTrips
import Agyn.KeptPositions
import Agyn.ItemNormalization
import Agyn.ItemIds
import Agyn.MemoGraphs
import Agyn.MemoAgreement
import Agyn.PromptPreview
import Agyn.PreviewGraph
import Agyn.PreviewRefinement
import Agyn.JsonSchemas
import Agyn.JsonSchemaToZod
import Agyn.SupportedSchemas
import Agyn.OutputStreaming
import Agyn.StreamedOutput
import Agyn.OutputGaps
import Agyn.VirtualKeys
import Agyn.KeyRotation
import Agyn.RefreshTimers
import Agyn.AffectedThreads
import Agyn.MetricsQueue
import Agyn.SessionUse
import Agyn.TerminalSessions

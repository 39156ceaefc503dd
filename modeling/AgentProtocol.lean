import AgentProtocol.Lib.TSys
import AgentProtocol.Lib.Dict
import AgentProtocol.Lib.Log
import AgentProtocol.Lib.Segment
import AgentProtocol.Lib.Framing
import AgentProtocol.Lib.Projection
import AgentProtocol.Lib.Numeral
import AgentProtocol.Lib.Scan
import AgentProtocol.Lib.Slots
import AgentProtocol.Lib.Lock
import AgentProtocol.Lib.Potential
import AgentProtocol.Lib.Cursor
import AgentProtocol.Lib.Queue
import AgentProtocol.Value
import AgentProtocol.Threads
import AgentProtocol.Ids
import AgentProtocol.Hub.ThreadEventHub
import AgentProtocol.Hub.Inversion
import AgentProtocol.Hub.Stream
import AgentProtocol.Hub.Delivery
import AgentProtocol.Hub.Retention
import AgentProtocol.Hub.Recovery
import AgentProtocol.State.Serialize
import AgentProtocol.State.History
import AgentProtocol.State.Accumulation
import AgentProtocol.State.Snapshot
import AgentProtocol.State.Encode
import AgentProtocol.State.JsonText
import AgentProtocol.Translation.Translator
import AgentProtocol.Translation.Finish
import AgentProtocol.Translation.Sequence
import AgentProtocol.Translation.Reading
import AgentProtocol.Translation.Script
import AgentProtocol.Translation.Lifetime
import AgentProtocol.Translation.Blocks
import AgentProtocol.Runner.Execute
import AgentProtocol.Runner.Manager
import AgentProtocol.Runner.Config
import AgentProtocol.Runner.Inversion
import AgentProtocol.Runner.Slot
import AgentProtocol.Runner.Cancel
import AgentProtocol.Runner.Isolation
import AgentProtocol.Runner.Trace
import AgentProtocol.Runner.Log
import AgentProtocol.Runner.Slots
import AgentProtocol.Runner.Messages
import AgentProtocol.Runner.Reports
import AgentProtocol.Runner.Pending
import AgentProtocol.Runner.HubRuns
import AgentProtocol.Runner.Wait
import AgentProtocol.Runner.Ended
import AgentProtocol.Runner.Loop
import AgentProtocol.Router.EventStream
import AgentProtocol.Router.Commands
import AgentProtocol.Router.Wire
import AgentProtocol.Router.Rendering
import AgentProtocol.Router.App
import AgentProtocol.Router.Inversion
import AgentProtocol.Router.Frames
import AgentProtocol.Router.Rows
import AgentProtocol.Router.Origins
import AgentProtocol.Router.Answers
import AgentProtocol.Router.Responses
import AgentProtocol.Router.Binding
import AgentProtocol.Router.Envelopes
import AgentProtocol.Router.Isolation
import AgentProtocol.Router.Streams
import AgentProtocol.Router.Reads
import AgentProtocol.Theorems.Handoff
import AgentProtocol.Theorems.OneActiveRun
import AgentProtocol.Theorems.FailedStart
import AgentProtocol.Theorems.Lifecycle
import AgentProtocol.Theorems.RunConfig
import AgentProtocol.Theorems.Pages
import AgentProtocol.Theorems.Interrupts
import AgentProtocol.Theorems.AnsweredOnce
import AgentProtocol.Theorems.ReplayWindow
import AgentProtocol.Theorems.Interleaving
import AgentProtocol.Theorems.MessageClosing
import AgentProtocol.Theorems.Usage
import AgentProtocol.Theorems.PendingInterrupts
import AgentProtocol.Theorems.EventRoundTrip
import AgentProtocol.Theorems.AssistantBinding
import AgentProtocol.Theorems.ErrorEnvelopes
import AgentProtocol.Theorems.CommandEnvelopes
import AgentProtocol.Theorems.SessionMetadata
import AgentProtocol.Theorems.ThreadIsolation
import AgentProtocol.Theorems.ThreadReads
import AgentProtocol.Theorems.HistoryReads
import AgentProtocol.Theorems.Stores
import AgentProtocol.Theorems.OutputGrammar
import AgentProtocol.Theorems.ToolCalls
import AgentProtocol.Theorems.BlockIndices
import AgentProtocol.Theorems.MalformedArguments
import AgentProtocol.Theorems.Responding
import AgentProtocol.Theorems.Recovery
import AgentProtocol.Theorems.CheckpointPointers
import AgentProtocol.Theorems.Subscriptions
import AgentProtocol.Theorems.CancelReports
import AgentProtocol.Theorems.TimeOrderedIds
import AgentProtocol.Theorems.Coercion
import AgentProtocol.Theorems.SerializedState
import AgentProtocol.Theorems.AnnouncedInterrupts
import AgentProtocol.Theorems.JsonText
import AgentProtocol.Theorems.ClientReads
import AgentProtocol.Theorems.Tenure
import AgentProtocol.Theorems.DurableStore
import AgentProtocol.Theorems.Quiescence
import AgentProtocol.Theorems.RunReports
import AgentProtocol.Theorems.Sessions
import AgentProtocol.Theorems.TerminalEvent
import AgentProtocol.Theorems.ClientMessages
import AgentProtocol.Theorems.Restart
import AgentProtocol.Theorems.Cancellation
import AgentProtocol.Theorems.Waiting
import AgentProtocol.Theorems.EventIds
import AgentProtocol.Theorems.CatchUp
import AgentProtocol.Theorems.Following
import AgentProtocol.Theorems.StreamRequests

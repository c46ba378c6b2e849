import CodingHarness.Support.CanonicalJson
import CodingHarness.Chord.Collapse
import CodingHarness.Chord.Adoption
import CodingHarness.Chord.Output
import CodingHarness.Chord.ReplicatedDelivery
import CodingHarness.Durable.MintedIds
import CodingHarness.Durable.SessionLineOrder
import CodingHarness.Durable.TaskGraphRuns
import CodingHarness.Durable.WaitCycles
import CodingHarness.Durable.TaskHolds
import CodingHarness.Durable.WaitCompletions
import CodingHarness.Durable.GitIgnore
import CodingHarness.Durable.EventStream
import CodingHarness.Durable.GenerationBounds
import CodingHarness.Durable.AbortedRuns
import CodingHarness.Durable.PromptConvergence
import CodingHarness.Agent.SessionTree
import CodingHarness.Agent.SessionContext
import CodingHarness.Agent.Timestamps
import CodingHarness.Tui.InputDifferences
import CodingHarness.Tui.YankedKills
import CodingHarness.Ai.ToolPairing
import CodingHarness.Ai.StreamEnds
import CodingHarness.Support.SseEvents
import CodingHarness.Ai.ToolRouting
import CodingHarness.Ai.BlockEvents
import CodingHarness.Tui.StreamAccounts
import CodingHarness.Durable.CompactionCut
import CodingHarness.Durable.BoundaryItems
import CodingHarness.Durable.TaskOverlay
import CodingHarness.Durable.DocumentLifecycle
import CodingHarness.Mcp.Cancellation
import CodingHarness.Mcp.Url
import CodingHarness.Mcp.Framing
import CodingHarness.Durable.RecordCodecs
import CodingHarness.Tui.StackLayout

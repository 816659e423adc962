import Draht.CompactionRun
import Draht.AgentTranscript
import Draht.AgentAnswered
import Draht.AgentQueues
import Draht.SessionTree
import Draht.AgentAnnounced
import Draht.SessionQueues
import Draht.SessionRecovery
import Draht.BashAgreement
import Draht.SocketRegistry
import Draht.SettingsStorage
import Draht.AuthConservation
import Draht.SettingsWrites
import Draht.AbortAtomicity
import Draht.VerbatimEditor
import Draht.SessionLabels
import Draht.GatewayPaths
import Draht.GitPackages
import Draht.ToolCallLinks
import Draht.ProxyCompletion
import Draht.TuiCursor
import Draht.GatewayDelivery
import Draht.RegistryRebuild
import Draht.SplitTurns
import Draht.BranchSelection
import Draht.ChannelQueues
import Draht.BranchPath
import Draht.SessionMigration
import Draht.GatewaySessions
import Draht.EventSchedules
import Draht.StreamProtocol
import Draht.ToolArguments
import Draht.LineEndings
import Draht.EditAmbiguity
import Draht.DiffNumbers
import Draht.ReadPages
import Draht.RecentSession
import Draht.SessionExport
import Draht.ToolOrder
import Draht.BashOrder
import Draht.IndexedCalls
import Draht.EventDelivery
import Draht.ThinkingBudget
import Draht.ResponsesAgreement
import Draht.AnthropicArguments
import Draht.CompletionsMessages
import Draht.ResponsesIds
import Draht.WrapStyle
import Draht.StyledLayout
import Draht.EditorCursor
import Draht.EditorYanks
import Draht.StdinChunks
import Draht.CommandArgs
import Draht.PromptSubstitution
import Draht.SocketFraming
import Draht.TruncateToWidth
import Draht.ModelRouter
import Draht.MarkdownLists
import Draht.Autocomplete
import Draht.InputCursor
import Draht.MarkdownTables
import Draht.EditorAtoms
import Draht.LogSync
import Draht.SkillWalks

import Capka.Lib.Steps
import Capka.Stream.Coverage
import Capka.Stream.StallWatchdog
import Capka.Usage.Settle
import Capka.Manage.Folders
import Capka.Manage.ReviewPin
import Capka.Queue.Exclusion
import Capka.Queue.FirstWins
import Capka.Decisions.SingleUse
import Capka.Steers.Conservation
import Capka.Ask.Belonging
import Capka.Automations.WellFormed
import Capka.Live.Fidelity
import Capka.Send.Idempotent
import Capka.Compaction.Preserved
import Capka.Bridge.WipeSafe
import Capka.Bridge.Fenced
import Capka.Realtime.Heard
import Capka.Vault.Parity
import Capka.Vault.Topics
import Capka.Vault.Retired
import Capka.Vault.Heads
import Capka.Vault.Approved
import Capka.Vault.Disputes
import Capka.Vault.Reverted
import Capka.Sandbox.Reconcile
import Capka.Net.GuardedFetch
import Capka.Live.Lossless
import Capka.Bridge.Untracked
import Capka.Chat.Outcomes
import Capka.Effects.Reported
import Capka.Compaction.Taint
import Capka.Sandbox.McpIntact
import Capka.Chat.Stable
import Capka.Bridge.Converges
import Capka.Automations.Days
import Capka.Automations.DueTimes
import Capka.Sandbox.WholeTree
import Capka.Marketplace.Exclusive
import Capka.Marketplace.Visible
import Capka.Marketplace.Journal
import Capka.Usage.Admission
import Capka.Automations.MinInterval
import Capka.Automations.Overlaps
import Capka.Lib.StableSort
import Capka.Live.Backlog
import Capka.Vault.Resolved
import Capka.Effects.Clamped
import Capka.Effects.RecoveryNote
import Capka.Vault.DedupKey
import Capka.Vault.LineView
import Capka.Vault.MigrateDocs
import Capka.Vault.Confirming
import Capka.Lib.Replace
import Capka.Chat.Secrets
import Capka.Lib.Scan
import Capka.Vault.NoteEdit
import Capka.Vault.FuzzyEdit
import Capka.Vault.EditTokens
import Capka.Vault.EditLinks
import Capka.Vault.EditShown
import Capka.Lib.Incremental
import Capka.Lib.Utf8Lossy
import Capka.Sandbox.Busy
import Capka.Sandbox.DockerFrames
import Capka.Sandbox.McpFraming
import Capka.Chat.Prompt
import Capka.Chat.UserRuns
import Capka.Compaction.ClearedPairs
import Capka.Tree.ActivePath
import Capka.Tree.Imported
import Capka.Compaction.Passes
import Capka.Lib.Symlinks
import Capka.Sandbox.Accepted
import Capka.Effects.Stripped
import Capka.Marketplace.Dispositions
import Capka.Telegram.DraftSink
import Capka.Live.Recovery
import Capka.Telegram.Bursts
import Capka.Net.Spellings
import Capka.Marketplace.Canonical
import Capka.Mcp.Schemas
import Capka.Sandbox.Multipart
import Capka.Live.Discard
import Capka.Net.RateLimit
import Capka.Mcp.OAuth
import Capka.Import.Normalize
import Capka.Sandbox.ReadFile
import Capka.Lib.Strays
import Capka.Sandbox.DownloadHeader
import Capka.Mcp.SearchSources
import Capka.Chat.ToolRepair

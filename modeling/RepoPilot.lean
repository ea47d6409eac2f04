import RepoPilot.Table
import RepoPilot.Machine
import RepoPilot.Lease
import RepoPilot.Basic
import RepoPilot.Job
import RepoPilot.Budget
import RepoPilot.Contents
import RepoPilot.Coverage
import RepoPilot.Dispatch
import RepoPilot.JobGuarantees
import RepoPilot.ChatGuarantees
import RepoPilot.Chunking
import RepoPilot.Parser
import RepoPilot.Scopes
import RepoPilot.Definitions
import RepoPilot.Framing
import RepoPilot.ProviderStream
import RepoPilot.ProviderOutput
import RepoPilot.Auth
import RepoPilot.Quota
import RepoPilot.Caps
import RepoPilot.ImportQuota
import RepoPilot.Generations
import RepoPilot.Readiness
import RepoPilot.Charges
import RepoPilot.Archive
import RepoPilot.Urls
import RepoPilot.Terms
import RepoPilot.History
import RepoPilot.Embeddings
import RepoPilot.Admission
import RepoPilot.Provenance
import RepoPilot.Ranking
import RepoPilot.RedisLimiter
import RepoPilot.MemoryLimiter
import RepoPilot.Previews
import RepoPilot.Pages
import RepoPilot.BoundedReader
import RepoPilot.Symbols
import RepoPilot.Recall
import RepoPilot.Timeline
import RepoPilot.Removal
import RepoPilot.Deadlines
import RepoPilot.Sight
import RepoPilot.Confinement
import RepoPilot.Isolation
import RepoPilot.Snapshots
import RepoPilot.Paging
import RepoPilot.IndexedFiles
import RepoPilot.Ordinals
import RepoPilot.Browsing
import RepoPilot.Composer
import RepoPilot.Resubmission
import RepoPilot.ConversationTranscript
import RepoPilot.Percent
import RepoPilot.GitHub
import RepoPilot.Online
import RepoPilot.JobDeadlines
import RepoPilot.Polling
import RepoPilot.Panels

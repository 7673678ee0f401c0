import ConfigRegistry.Auth.Session
import ConfigRegistry.Console.SyncGist
import ConfigRegistry.Git.WriteLock
import ConfigRegistry.Logging.Sink
import ConfigRegistry.Logging.Redaction
import ConfigRegistry.Logging.RequestSid
import ConfigRegistry.Auth.Base32
import ConfigRegistry.Identity.Auditing
import ConfigRegistry.Console.RoundTrip
import ConfigRegistry.Console.ProductForm
import ConfigRegistry.Console.KeyDrafts
import ConfigRegistry.Client.Updates
import ConfigRegistry.Client.GoodValues
import ConfigRegistry.Client.Watching
import ConfigRegistry.Client.ConfigClient
import ConfigRegistry.Products.Discretion
import ConfigRegistry.Store.Snapshots
import ConfigRegistry.Store.Sops
import ConfigRegistry.Json.Members
import ConfigRegistry.Fs.Replacing
import ConfigRegistry.Async.Serial
import ConfigRegistry.Async.Traces
import ConfigRegistry.Schema.GlobalSchema
import ConfigRegistry.Schema.Drafted
import ConfigRegistry.Schema.Satisfiable
import ConfigRegistry.Products.Promotions
import ConfigRegistry.Engine.Resuming
import ConfigRegistry.Engine.Refusals
import ConfigRegistry.Engine.Snapshots
import ConfigRegistry.Engine.Locks
import ConfigRegistry.Products.Reviewed
import ConfigRegistry.Products.KeySweeps
import ConfigRegistry.Products.Conflicts
import ConfigRegistry.Products.Archives
import ConfigRegistry.Publish.Retries
import ConfigRegistry.Publish.Provenance
import ConfigRegistry.Backup.Notices
import ConfigRegistry.Backup.Scheduling
import ConfigRegistry.Schema.FittingSchema
import ConfigRegistry.Schema.SchemaWrites
import ConfigRegistry.Flags.LostUpdates
import ConfigRegistry.Flags.FlagWrites
import ConfigRegistry.Boot.OneRevision
import ConfigRegistry.Api.Authorization
import ConfigRegistry.Async.Operations
import ConfigRegistry.Api.Reads
import ConfigRegistry.Api.Response
import ConfigRegistry.Identity.AccessGuard
import ConfigRegistry.Auth.Rotation
import ConfigRegistry.Auth.Attempts
import ConfigRegistry.Auth.Reloading
import ConfigRegistry.Auth.BreakGlass
import ConfigRegistry.Auth.Totp
import ConfigRegistry.Async.Accord
import ConfigRegistry.Async.Alone
import ConfigRegistry.Git.Upstream
import ConfigRegistry.Git.WorkingTree
import ConfigRegistry.Git.Turns
import ConfigRegistry.Git.Syncing
import ConfigRegistry.Git.Runs
import ConfigRegistry.Git.OneAtATime
import ConfigRegistry.Git.Language
import ConfigRegistry.Git.Freshness
import ConfigRegistry.Git.Exclusion
import ConfigRegistry.Git.Exactness
import ConfigRegistry.Git.Activities
import ConfigRegistry.Cli.Findings
import ConfigRegistry.Products.Agreement
import ConfigRegistry.Schema.Drafts
import ConfigRegistry.Cli.ValidateRepo
import ConfigRegistry.Products.Secrets
import ConfigRegistry.Products.Grants
import ConfigRegistry.Js.Codec
import ConfigRegistry.Products.GrantTable
import ConfigRegistry.Products.Validity
import ConfigRegistry.Products.Runs
import ConfigRegistry.Identity.Acceptance
import ConfigRegistry.Products.Lifecycle
import ConfigRegistry.Products.Rewriting
import ConfigRegistry.Products.Effects
import ConfigRegistry.Schema.SchemaSet
import ConfigRegistry.Products.Paths
import ConfigRegistry.Products.Operations
import ConfigRegistry.Products.Session
import ConfigRegistry.Store.Transactions
import ConfigRegistry.Schema.Builder
import ConfigRegistry.Store.Metadata
import ConfigRegistry.Backup.CommitMessages
import ConfigRegistry.Backup.Attribution
import ConfigRegistry.Backup.Coordination
import ConfigRegistry.Js.Text
import ConfigRegistry.Backup.WriteJournal
import ConfigRegistry.Backup.SyncEngine
import ConfigRegistry.Backup.Language
import ConfigRegistry.Json.Lines
import ConfigRegistry.Json.Text
import ConfigRegistry.Boot.Freshness
import ConfigRegistry.Boot.Revocation
import ConfigRegistry.Boot.RepositoryState
import ConfigRegistry.Store.Loader
import ConfigRegistry.Flags.FlagDocument
import ConfigRegistry.Store.EnvironmentOrder
import ConfigRegistry.Async.Triple
import ConfigRegistry.Async.Drive
import ConfigRegistry.Identity.Registry
import ConfigRegistry.Schema.Validator
import ConfigRegistry.Html.Escaping
import ConfigRegistry.Auth.Entrances

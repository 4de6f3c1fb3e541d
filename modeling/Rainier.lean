import Rainier.Support.Trace
import Rainier.Support.Time
import Rainier.Support.Json
import Rainier.Support.Text
import Rainier.Support.Error
import Rainier.Support.Table
import Rainier.Support.Keyed
import Rainier.Support.Scan
import Rainier.Support.Calls
import Rainier.Support.Program
import Rainier.Support.Bytes
import Rainier.Support.JsonPath
import Rainier.Support.Split
import Rainier.Support.Percent
import Rainier.Support.Base64
import Rainier.Cache.MemoryCache
import Rainier.Cache.RateLimit
import Rainier.Cache.RateLimitKeys
import Rainier.Cache.Lock
import Rainier.Cache.LockRun
import Rainier.Cache.Prefixed
import Rainier.Cache.Capabilities
import Rainier.Auth.Challenges
import Rainier.Auth.ChallengeKeys
import Rainier.Session.Session
import Rainier.Session.Flash
import Rainier.Session.StartSession
import Rainier.Support.Glob
import Rainier.Session.Csrf
import Rainier.Support.GlobText
import Rainier.Session.TokenCheck
import Rainier.Auth.SessionGuard
import Rainier.Auth.Impersonation
import Rainier.Auth.Gate
import Rainier.Container.Container
import Rainier.Container.Evaluation
import Rainier.Container.Resolution
import Rainier.Accounts.Passwords
import Rainier.Mfa.Cbor
import Rainier.Mfa.CborRoundTrip
import Rainier.Support.ScanExact
import Rainier.Mfa.Recovery
import Rainier.Mfa.Totp
import Rainier.Mfa.Base32
import Rainier.View.Template
import Rainier.View.Engine
import Rainier.View.Escaping
import Rainier.View.Inheritance
import Rainier.View.Parser
import Rainier.View.Conditions
import Rainier.Routing.Route
import Rainier.Routing.Router
import Rainier.Routing.Group
import Rainier.Routing.Url
import Rainier.Routing.Inverse
import Rainier.Http.Input
import Rainier.Http.Cookies
import Rainier.Routing.Query
import Rainier.Crypt.Signer
import Rainier.Crypt.UrlSigner
import Rainier.Crypt.SignedUrls
import Rainier.Crypt.Rotation
import Rainier.Crypt.Jwt
import Rainier.Crypt.Escapes
import Rainier.Support.Float64
import Rainier.Validation.Rule
import Rainier.Validation.Validator
import Rainier.Validation.Wildcards
import Rainier.Validation.RuleOrder
import Rainier.Validation.ValidatedOnly
import Rainier.Compat.PhpSerialize
import Rainier.Compat.PhpRoundTrip
import Rainier.Compat.PhpTruncation
import Rainier.Compat.PhpSession
import Rainier.Compat.PhpSignIn
import Rainier.Compat.PhpRelease
import Rainier.Accounts.Operations
import Rainier.Accounts.Accounts
import Rainier.Accounts.TwoFactor
import Rainier.Accounts.PasswordLength
import Rainier.Accounts.LoginThrottle
import Rainier.Accounts.Footprints
import Rainier.Accounts.CodeReplay
import Rainier.Accounts.RecoveryCodes
import Rainier.Accounts.Outcomes
import Rainier.Accounts.ConfirmedPassword
import Rainier.Accounts.SecondFactor
import Rainier.Scheduler.Cron
import Rainier.Scheduler.CronGrammar
import Rainier.Scheduler.Calendar
import Rainier.Scheduler.NextAfter
import Rainier.Scheduler.Schedule
import Rainier.Scheduler.Builders
import Rainier.Scheduler.OneServer
import Rainier.OAuth.Redirect
import Rainier.OAuth.Model
import Rainier.OAuth.Scope
import Rainier.OAuth.Store
import Rainier.OAuth.Server
import Rainier.OAuth.Run
import Rainier.OAuth.Steps
import Rainier.OAuth.SpendOnce
import Rainier.OAuth.Checks
import Rainier.OAuth.Provenance
import Rainier.OAuth.CodeSoundness
import Rainier.OAuth.ScopeChain
import Rainier.OAuth.Rereading
import Rainier.OAuth.Refreshing
import Rainier.Queue.Job
import Rainier.Queue.WorkerOptions
import Rainier.Queue.WorkerRun
import Rainier.Queue.Driver
import Rainier.Queue.Manager
import Rainier.Queue.MemoryQueue
import Rainier.Queue.StoringQueue
import Rainier.Queue.Uniqueness
import Rainier.Queue.UniquenessSteps
import Rainier.Queue.UniquenessRun
import Rainier.Queue.MemoryRun
import Rainier.Queue.DatabaseQueue
import Rainier.Queue.DatabaseExclusion
import Rainier.Queue.DatabaseAttempts
import Rainier.Drivers.RedisStreams
import Rainier.Queue.RedisQueue
import Rainier.Queue.RedisDelivery
import Rainier.Queue.RedisRecovery
import Rainier.Queue.RedisAttempts
import Rainier.Support.Pattern
import Rainier.OpenApi.Schema
import Rainier.OpenApi.Keywords
import Rainier.OpenApi.Promises
import Rainier.Support.Ordered
import Rainier.Support.Grouping
import Rainier.Database.Value
import Rainier.Database.Criteria
import Rainier.Database.Statement
import Rainier.Database.Sql
import Rainier.Database.Writes
import Rainier.Database.Counts
import Rainier.Database.PageArithmetic
import Rainier.Database.Relation
import Rainier.Database.Keys
import Rainier.Database.EagerLoading
import Rainier.Database.Sticky
import Rainier.Database.OwnWrites
import Rainier.Database.Migrator
import Rainier.Database.MigrationHistory
import Rainier.Database.MigrationErrors
import Rainier.Orm.Route
import Rainier.Orm.Sharding
import Rainier.Orm.ShardIds
import Rainier.Orm.Sealing
import Rainier.Orm.Cursor
import Rainier.Orm.KeysetWalk
import Rainier.Orm.Creation
import Rainier.Orm.CreatedKeys
import Rainier.Orm.Blueprint
import Rainier.Orm.Schema
import Rainier.Orm.Reversal
import Rainier.Support.Disk
import Rainier.Support.DiskEntries
import Rainier.Filesystem.Local
import Rainier.Filesystem.Confinement
import Rainier.Filesystem.Memory
import Rainier.Filesystem.Interleaved
import Rainier.Filesystem.Listing
import Rainier.Filesystem.Agreement
import Rainier.Config.Env
import Rainier.Config.EnvText
import Rainier.Config.EnvQuoting
import Rainier.Config.Repository
import Rainier.Events.Dispatcher
import Rainier.Database.Lifecycle
import Rainier.Support.Ip
import Rainier.Middleware.Proxy
import Rainier.Billing.Webhook
import Rainier.Broadcast.Pusher
import Rainier.Broadcast.Grants
import Rainier.Mfa.Cose
import Rainier.Mfa.Passkey
import Rainier.Mfa.Ceremonies
import Rainier.Mfa.AuthenticatorLayout
import Rainier.Compat.PhpJson
import Rainier.OAuth.Abilities
import Rainier.Mfa.CborGrammar
import Rainier.Mfa.CborReader
import Rainier.Metrics.Registry
import Rainier.Metrics.Exposition

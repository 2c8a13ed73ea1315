import SrgGrading.Library.Fallible
import SrgGrading.Library.Relational
import SrgGrading.Library.Transition
import SrgGrading.Library.OrderedMap
import SrgGrading.Library.Json
import SrgGrading.Library.Reading
import SrgGrading.Library.Tree
import SrgGrading.Core.Text
import SrgGrading.Core.Security
import SrgGrading.Core.Integrity
import SrgGrading.Core.IntegrityCheck
import SrgGrading.Core.Base64
import SrgGrading.Core.Snapshots
import SrgGrading.Core.Config
import SrgGrading.Core.Protocol
import SrgGrading.Core.Revisions
import SrgGrading.Core.Keys
import SrgGrading.Core.Dates
import SrgGrading.Core.PublicTests
import SrgGrading.Store.Schema
import SrgGrading.Store.Queue
import SrgGrading.Store.Attempts
import SrgGrading.Store.Submissions
import SrgGrading.Store.Exercises
import SrgGrading.Store.Runs
import SrgGrading.Store.System
import SrgGrading.Store.Publishing
import SrgGrading.Store.Catalog
import SrgGrading.Store.Evolution
import SrgGrading.Store.Steady
import SrgGrading.Store.Rollout
import SrgGrading.Store.Dashboard
import SrgGrading.Store.Closure
import SrgGrading.Store.Receipts
import SrgGrading.Store.GradeSteps
import SrgGrading.Store.Life
import SrgGrading.Store.Calls
import SrgGrading.Store.Regrading
import SrgGrading.Store.PrivateRuns
import SrgGrading.Store.PrivateBatch
import SrgGrading.Store.Acceptance
import SrgGrading.Store.Capture
import SrgGrading.Store.Leases
import SrgGrading.Store.Naming
import SrgGrading.Store.Extensions
import SrgGrading.Store.Definitions
import SrgGrading.Admin.Operations
import SrgGrading.Admin.Dispatcher
import SrgGrading.Admin.Turns
import SrgGrading.Admin.Confirmation
import SrgGrading.Admin.Quota
import SrgGrading.Admin.Output
import SrgGrading.Library.Program
import SrgGrading.Library.Pool
import SrgGrading.Library.FileSystem
import SrgGrading.Library.ReadCommitted
import SrgGrading.Lifecycle.GitHub
import SrgGrading.Lifecycle.Tasks
import SrgGrading.Lifecycle.Locked
import SrgGrading.Lifecycle.Sources
import SrgGrading.Lifecycle.Budget
import SrgGrading.Store.Roster
import SrgGrading.Store.Identity
import SrgGrading.Store.Accounts
import SrgGrading.Store.Artifacts
import SrgGrading.Web.Results
import SrgGrading.Web.Webhook
import SrgGrading.Store.Fetching
import SrgGrading.Lifecycle.Upkeep
import SrgGrading.Executor.Channel
import SrgGrading.Executor.Caching
import SrgGrading.Executor.Staging
import SrgGrading.Executor.Results
import SrgGrading.Executor.Approval
import SrgGrading.Executor.Agreement
import SrgGrading.Executor.Jobs
import SrgGrading.Executor.Isolation
import SrgGrading.Library.RelyGuarantee
import SrgGrading.Library.Durable
import SrgGrading.Store.Retention
import SrgGrading.Library.FixedWindow
import SrgGrading.Web.Limits
import SrgGrading.Executor.Preparation
import SrgGrading.Executor.Prepared
import SrgGrading.Executor.Recovery
import SrgGrading.Cli.ExerciseFiles

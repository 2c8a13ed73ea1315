import Mathlib.Data.List.MinMax
import Mathlib.Data.Prod.Lex
import Mathlib.Order.Fin.Basic
import SrgGrading.Library.Relational
import SrgGrading.Core.Protocol

/-!
# The tables

The rows of the database and the queries several operations share.  A table is
a list of rows; a reference is followed by `lookup` on the primary key.

Every caller of `enqueue` passes the payload `{"repository_id": id}`,
`{"submission_id": id}` or `{"run_id": id}` that belongs to the kind, and the
key `kind:id`.  A task keeps `kind` and `id`, which the two columns are
functions of.
-/

open Fallible Relational

namespace Grading

/-! ### Rows -/

inductive TaskKind
  | provision
  | snapshot
  | grade
  | publish
  | lock
  deriving DecidableEq

inductive TaskStatus
  | pending
  | leased
  | done
  | failed
  | cancelled
  deriving DecidableEq

/-- A row of `tasks`. -/
structure TaskRow where
  id : Uuid
  kind : TaskKind
  subject : Uuid
  priority : Int
  status : TaskStatus
  attempts : Int
  availableAt : Time
  leaseOwner : Option String
  leaseToken : Option Uuid
  leaseUntil : Option Time
  lastError : Option String
  deriving DecidableEq

/-- A row of `assignments`. -/
structure AssignmentRow where
  id : Uuid
  courseId : String
  slug : String
  currentRevision : Option String
  archived : Bool
  deriving DecidableEq

/-- A row of `assignment_revisions`. -/
structure AssignmentRevision where
  digest : String
  assignmentId : Uuid
  configRevision : String
  definition : Revision
  opensAt : Time
  deadline : Time
  maxPoints : Int
  graderSourceDigest : Option String
  deriving DecidableEq

structure Course where
  id : String
  title : String
  organization : String
  timezone : String
  deriving DecidableEq

structure Enrollment where
  id : Uuid
  courseId : String
  githubId : Int
  studentId : String
  name : String
  deriving DecidableEq

structure StudentRepository where
  id : Uuid
  enrollmentId : Uuid
  assignmentId : Uuid
  revisionDigest : String
  gradingRevision : String
  name : String
  closureDue : Bool
  finalSubmissionId : Option Uuid
  needsReview : Bool
  deriving DecidableEq

structure Extension where
  repositoryId : Uuid
  deadline : Time
  reason : String
  deriving DecidableEq

inductive EventSource
  | webhook
  | registration
  | reconciliation
  deriving DecidableEq

structure SubmissionEvent where
  id : Uuid
  repositoryId : Uuid
  sha : String
  receivedAt : Time
  source : EventSource
  eligible : Bool
  deliveryId : Option Uuid
  deriving DecidableEq

structure ArtifactRow where
  digest : String
  bytes : Nat
  kind : String
  deriving DecidableEq

structure Submission where
  id : Uuid
  repositoryId : Uuid
  eventId : Uuid
  sha : String
  receivedAt : Time
  sourceDigest : Option String
  deriving DecidableEq

/-- The status of a grading run. -/
inductive RunState
  | pending
  | running
  | completed
  | integrityFailed
  | infrastructureFailed
  | timedOut
  | superseded
  | invalidated
  deriving DecidableEq

structure GradingRun where
  id : Uuid
  submissionId : Uuid
  revisionDigest : String
  attempt : Int
  status : RunState
  points : Option Int
  reportDigest : Option String
  resultDigest : Option String
  publicPoints : Option Int
  publicRunId : Option Uuid
  deriving DecidableEq

structure IntegrityFinding where
  runId : Uuid
  path : String
  reason : String
  deriving DecidableEq

/-- A row of `grade_overrides`. -/
structure GradeOverride where
  id : Uuid
  repositoryId : Uuid
  points : Int
  reason : String
  operator : String
  createdAt : Time
  deriving DecidableEq

structure AuditEvent where
  operator : String
  action : String
  target : String
  reason : String
  deriving DecidableEq

structure Store where
  courses : List Course
  enrollments : List Enrollment
  assignments : List AssignmentRow
  revisions : List AssignmentRevision
  repositories : List StudentRepository
  extensions : List Extension
  events : List SubmissionEvent
  artifacts : List ArtifactRow
  submissions : List Submission
  runs : List GradingRun
  findings : List IntegrityFinding
  overrides : List GradeOverride
  tasks : List TaskRow
  outbox : List Uuid
  audit : List AuditEvent
  deriving DecidableEq

/-! ### Times and numbers as columns -/

/-- The instant of a `DateTime` bound to a `timestamptz`: microseconds since 2000-01-01,
the rest dropped. -/
def timestamptz (t : Time) : Time :=
  let epoch := 946684800 * nanosPerSecond
  epoch + (t - epoch).tdiv 1000 * 1000

/-- A `u32` cast to `i32`. -/
def asI32 (n : Nat) : Int := if n % 2 ^ 32 < 2 ^ 31 then (n % 2 ^ 32 : Nat) else (n % 2 ^ 32 : Nat) - 2 ^ 32

/-- The sum of two `integer` values. -/
def addInteger (a b : Int) : Except Error Int := do
  ensure (-2 ^ 31 ≤ a + b && a + b < 2 ^ 31) .outOfRange
  return a + b

/-! ### Tasks -/

namespace TaskRow

/-- A pending task nobody leased yet. -/
def new (id : Uuid) (kind : TaskKind) (subject : Uuid) (priority : Int) (now : Time) : TaskRow :=
  { id, kind, subject, priority, status := .pending, attempts := 0, availableAt := now,
    leaseOwner := none, leaseToken := none, leaseUntil := none, lastError := none }

/-- `lease_until > now()`. -/
def live (t : TaskRow) (now : Time) : Bool := t.leaseUntil.any fun until_ => now < until_

/-- `lease_until < now()`. -/
def expired (t : TaskRow) (now : Time) : Bool := t.leaseUntil.any fun until_ => until_ < now

/-- Available for a lease: pending and due, or leased and expired. -/
def ready (t : TaskRow) (now : Time) : Bool :=
  t.attempts < 8 && ((t.status = .pending && t.availableAt ≤ now)
    || (t.status = .leased && t.expired now))

/-- The order in which tasks are leased. -/
def leaseOrder (t : TaskRow) : Int ×ₗ Int ×ₗ Uuid :=
  toLex (-t.priority, toLex (t.availableAt, t.id))

/-- The row after a lease. -/
def leaseTo (t : TaskRow) (owner : String) (token : Uuid) (now : Time) : TaskRow :=
  { t with status := .leased, leaseOwner := some owner, leaseToken := some token,
           leaseUntil := some (now + 120 * nanosPerSecond), attempts := t.attempts + 1 }

end TaskRow

/-! ### Queries -/

namespace Store

variable (s : Store)

def fetchRepository (id : Uuid) : Except Error StudentRepository :=
  fetchOne .rowNotFound (lookup StudentRepository.id id s.repositories)

def fetchRevision (digest : String) : Except Error AssignmentRevision :=
  fetchOne .rowNotFound (lookup AssignmentRevision.digest digest s.revisions)

def fetchSubmission (id : Uuid) : Except Error Submission :=
  fetchOne .rowNotFound (lookup Submission.id id s.submissions)

def fetchRun (id : Uuid) : Except Error GradingRun :=
  fetchOne .rowNotFound (lookup GradingRun.id id s.runs)

/-- `COALESCE(x.deadline, v.deadline)` for a repository pinned to `v`. -/
def effectiveDeadline (repository : Uuid) (v : AssignmentRevision) : Time :=
  ((lookup Extension.repositoryId repository s.extensions).map Extension.deadline).getD v.deadline

/-- A repository joined with its pinned revision and its extension. -/
structure Pinned where
  repository : StudentRepository
  revision : AssignmentRevision
  deadline : Time

def fetchPinned (id : Uuid) : Except Error Pinned := do
  let r ← s.fetchRepository id
  let v ← s.fetchRevision r.revisionDigest
  return ⟨r, v, s.effectiveDeadline r.id v⟩

/-- The submissions of a repository. -/
def submissionsOf (repository : Uuid) : List Submission :=
  s.submissions.filter fun x => x.repositoryId = repository

/-- `… ORDER BY received_at DESC, id DESC LIMIT 1`. -/
def newest (repository : Uuid) : Option Submission :=
  (s.submissionsOf repository).argmax fun x => toLex (x.receivedAt, x.id)

/-- The repository of a submission. -/
def repositoryOf (x : Submission) : Option StudentRepository :=
  lookup StudentRepository.id x.repositoryId s.repositories

/-- Whether a task with this `dedup_key` exists. -/
def hasTask (kind : TaskKind) (subject : Uuid) : Bool :=
  s.tasks.any fun t => t.kind = kind && t.subject = subject

/-! ### Updates -/

/-- `UPDATE tasks SET f WHERE p`. -/
def updateTasks (p : TaskRow → Bool) (f : TaskRow → TaskRow) : Store :=
  { s with tasks := updateWhere p f s.tasks }

/-- `UPDATE grading_runs SET f WHERE p`. -/
def updateRuns (p : GradingRun → Bool) (f : GradingRun → GradingRun) : Store :=
  { s with runs := updateWhere p f s.runs }

/-- `UPDATE student_repositories SET f WHERE p`. -/
def updateRepositories (p : StudentRepository → Bool)
    (f : StudentRepository → StudentRepository) : Store :=
  { s with repositories := updateWhere p f s.repositories }

/-- `UPDATE student_repositories SET needs_review=true WHERE p`. -/
def markReview (p : StudentRepository → Bool) : Store :=
  s.updateRepositories p fun r => { r with needsReview := true }

/-- `submissions::audit`. -/
def auditEvent (operator action : String) (target : List Char) (reason : String) : Store :=
  { s with audit := s.audit ++ [⟨operator, action, String.ofList target, reason⟩] }

end Store

end Grading

import SrgGrading.Store.Exercises

/-!
# Grading runs

Queueing public and private runs, leasing them to workers and accepting their
results.
-/

open Fallible Relational

namespace Grading

structure Worker where
  id : String
  profiles : List String
  /-- `none` where the column does not decode. -/
  resourceCaps : Option Resources

/-- The status a result leaves a run in. -/
def RunStatus.state : RunStatus → RunState
  | .completed => .completed
  | .integrityFailed => .integrityFailed
  | .infrastructureFailed => .infrastructureFailed
  | .timedOut => .timedOut
  | .invalidated => .invalidated

namespace Runs

/-! ### Inserting runs -/

/-- The highest attempt of a submission's runs and one. -/
def nextAttempt (s : Store) (submission : Uuid) : Except Error Int :=
  addInteger (((s.runs.filter fun g => g.submissionId = submission).map
    GradingRun.attempt).max?.getD 0) 1

/-- What `validate_private_run` asks of the baseline of a new run. -/
def validBaseline (s : Store) (now : Time) (submission baseline : Uuid) : Bool :=
  s.runs.any fun b => b.id = baseline && b.submissionId = submission && b.publicRunId.isNone &&
    b.status = .completed && b.points.isSome &&
    match s.fetchSubmission submission >>= fun x => s.fetchPinned x.repositoryId with
    | .ok p => p.deadline < now
    | .error _ => false

/-- `INSERT INTO grading_runs`, with its trigger. -/
def insertRun (s : Store) (now : Time) (g : GradingRun) : Except Error Store := do
  check (g.publicRunId.all fun b => validBaseline s now g.submissionId b)
    "private grading requires a completed public run after the effective deadline"
  ensure (!s.runs.any fun h => h.id = g.id || (h.submissionId = g.submissionId &&
    h.revisionDigest = g.revisionDigest && h.attempt = g.attempt)) .uniqueViolation
  ensure (s.revisions.any fun v => v.digest = g.revisionDigest) .foreignKeyViolation
  return { s with runs := s.runs ++ [g] }

/-- A run nobody graded yet. -/
def newRun (id submission : Uuid) (revision : String) (attempt : Int) (status : RunState)
    (baseline : Option Uuid) : GradingRun :=
  { id, submissionId := submission, revisionDigest := revision, attempt, status, points := none,
    reportDigest := none, resultDigest := none, publicPoints := none, publicRunId := baseline }

/-- The run with the highest attempt among those of a submission that satisfy `p`. -/
def latestRun (s : Store) (submission : Uuid) (p : GradingRun → Bool) : Option GradingRun :=
  (s.runs.filter fun g => g.submissionId = submission && p g).argmax GradingRun.attempt

/-! ### Public runs -/

/-- The repository a run grades. -/
def repositoryOfRun (s : Store) (g : GradingRun) : Option Uuid :=
  (lookup Submission.id g.submissionId s.submissions).map Submission.repositoryId

/-- A pending task of a public run of another submission of the repository. -/
def displaced (s : Store) (repository submission : Uuid) (t : TaskRow) : Bool :=
  t.kind = .grade && t.status = .pending && s.runs.any fun g =>
    g.id = t.subject && repositoryOfRun s g = some repository && g.submissionId ≠ submission &&
      g.publicRunId.isNone

/-- A pending run whose task was cancelled. -/
def stranded (s : Store) (g : GradingRun) : Bool :=
  g.status = .pending && s.tasks.any fun t =>
    t.kind = .grade && t.status = .cancelled && t.subject = g.id

/-- Whether a run is queued without a task: its submission is not the newest of
an open repository, or the repository had its share of runs. -/
def superseded (s : Store) (r : StudentRepository) (latest submission : Uuid)
    (regrade : Bool) : Bool :=
  let publicRuns := s.runs.countP fun g =>
    repositoryOfRun s g = some r.id && g.publicRunId.isNone && g.status ≠ .superseded
  !regrade && !(r.closureDue && r.finalSubmissionId = some submission) &&
    (r.closureDue || latest ≠ submission || 200 ≤ publicRuns)

/-- Give the queue to the runs of `submission`: cancel the pending tasks of the
repository's other submissions and supersede their pending runs. -/
def displace (s : Store) (repository submission : Uuid) : Store :=
  let s := s.updateTasks (displaced s repository submission) fun t =>
    { t with status := .cancelled }
  s.updateRuns (stranded s) fun g => { g with status := .superseded }

def enqueueRun (s : Store) (now : Time) (fresh : Nat → Uuid) (submission : Uuid)
    (regrade : Bool) : Except Error (Store × Uuid) := do
  let x ← s.fetchSubmission submission
  let r ← s.fetchRepository x.repositoryId
  check x.sourceDigest.isSome "source is not retained yet"
  match (latestRun s submission fun g => g.publicRunId.isNone).filter fun _ => !regrade with
  | some g => return (s, g.id)
  | none => do
    let latest ← fetchOne .rowNotFound (s.newest r.id)
    let skipped := superseded s r latest.id submission regrade
    let attempt ← nextAttempt s submission
    let id := fresh 0
    let s ← insertRun s now
      (newRun id submission r.gradingRevision attempt (if skipped then .superseded else .pending)
        none)
    if skipped then return (s, id)
    else do
      let s := displace s r.id submission
      let final : Bool := r.closureDue && r.finalSubmissionId = some submission
      let s ← Queue.enqueue s now (fresh 1) .grade id (if final then 100 else 0)
      return (s, id)

/-! ### Private runs -/

/-- What `enqueue_private` reports about a repository. -/
structure PrivateOutcome where
  repository : Uuid
  run : Option Uuid
  text : String

/-- Insert a private run and its task. -/
def insertPrivate (s : Store) (now : Time) (fresh : Nat → Uuid) (submission : Uuid)
    (revision : String) (attempt : Int) (baseline : Uuid) : Except Error (Store × Uuid) := do
  let run := fresh 0
  let s ← insertRun s now (newRun run submission revision attempt .pending (some baseline))
  let s ← Queue.enqueue s now (fresh 1) .grade run 100
  return (s, run)

/-- Whether a grader has a private command. -/
def hasPrivateCommand (r : Revision) : Bool :=
  r.grader.any fun g => g.workflow.any fun w => w.privateCommand.isSome

/-- The transaction of `enqueue_private` for one repository. -/
def enqueuePrivateRepository (s : Store) (now : Time) (fresh : Nat → Uuid) (repository : Uuid)
    (operator reason : String) : Except Error (Store × PrivateOutcome) := do
  let p ← s.fetchPinned repository
  let due : Bool := p.deadline < now
  let skip := fun text => (s, (⟨repository, none, text⟩ : PrivateOutcome))
  match p.repository.finalSubmissionId.filter fun _ => due with
  | none => return skip (if due then "No final submission" else "Effective deadline has not passed")
  | some submission =>
    match (latestRun s submission fun g => g.publicRunId.isNone).filter
      fun g => g.points.isSome && g.status = .completed with
    | none => return skip "Public grading must complete first"
    | some baseline => do
      let v ← s.fetchRevision p.repository.gradingRevision
      let definition ← v.definition.decode
      check (hasPrivateCommand definition) "exercise has no private grading command"
      match (s.runs.filter fun g => g.publicRunId = some baseline.id &&
          g.revisionDigest = p.repository.gradingRevision).argmax GradingRun.attempt with
      | some g => return (s, ⟨repository, some g.id,
          "Already scheduled; update the grader revision to run a correction"⟩)
      | none => do
        let attempt ← nextAttempt s submission
        let (s, run) ← insertPrivate s now fresh submission p.repository.gradingRevision attempt
          baseline.id
        let s := s.auditEvent operator "grading.private" run.text
          (reason ++ "; public_run=" ++ String.ofList baseline.id.text)
        return (s, ⟨repository, some run, "Queued private grading"⟩)

def retryPrivate (s : Store) (now : Time) (fresh : Nat → Uuid) (failed : Uuid)
    (operator reason : String) : Except Error (Store × Uuid) := do
  check (!Text.blank reason) "private retry reason required"
  let g ← s.fetchRun failed
  let x ← s.fetchSubmission g.submissionId
  let latest ← fetchOne .rowNotFound (latestRun s x.id fun _ => true)
  check (latest.id = failed && latest.publicRunId.isSome &&
    (latest.status = .infrastructureFailed || latest.status = .timedOut))
    "only the latest failed private run can be retried"
  let baseline ← fetchOne .rowNotFound latest.publicRunId
  let attempt ← addInteger latest.attempt 1
  let (s, run) ← insertPrivate s now fresh x.id latest.revisionDigest attempt baseline
  return (s.auditEvent operator "grading.private_retry" run.text
    (reason ++ "; previous_run=" ++ String.ofList failed.text), run)

/-! ### Leases -/

/-- The enrollment a run belongs to. -/
def enrollmentOfRun (s : Store) (run : Uuid) : Option Uuid := do
  let g ← lookup GradingRun.id run s.runs
  let x ← lookup Submission.id g.submissionId s.submissions
  let r ← s.repositoryOf x
  return r.enrollmentId

/-- A grade task some worker is busy with. -/
def busy (now : Time) (t : TaskRow) : Bool :=
  t.kind = .grade && t.status = .leased && t.live now

/-- Whether a worker with these profiles and caps may take the task now. -/
def leasable (s : Store) (now : Time) (profiles : List String) (caps : Resources)
    (t : TaskRow) : Bool :=
  t.kind = .grade && t.ready now &&
    (match lookup GradingRun.id t.subject s.runs with
    | none => false
    | some g =>
      match lookup AssignmentRevision.digest g.revisionDigest s.revisions with
      | none => false
      | some v =>
        let a := v.definition.assignment
        profiles.contains a.executionProfile && (a.resources.cpu : Int) ≤ asI32 caps.cpu &&
          (a.resources.memoryGib : Int) ≤ asI32 caps.memoryGib &&
          (a.resources.storageGib : Int) ≤ asI32 caps.storageGib) &&
    !s.tasks.any fun b => busy now b && (enrollmentOfRun s b.subject).isSome &&
      enrollmentOfRun s b.subject = enrollmentOfRun s t.subject

/-- The transaction of `grading::lease`: the task leased and its run running. -/
def lease (s : Store) (now : Time) (locked : List Uuid) (token : Uuid) (worker : Worker)
    (requested : List String) : Except Error (Store × Option Uuid) := do
  let profiles := worker.profiles.filter requested.contains
  let caps ← fetchOne .json worker.resourceCaps
  if s.tasks.any fun t => t.leaseOwner = some worker.id && busy now t then return (s, none)
  else
    match (s.tasks.filter fun t => leasable s now profiles caps t && !locked.contains t.id).argmin
      TaskRow.leaseOrder with
    | none => return (s, none)
    | some t =>
      let s := s.updateTasks (fun u => u.id = t.id) fun u => u.leaseTo worker.id token now
      return (s.updateRuns (fun g => g.id = t.subject) fun g => { g with status := .running },
        some t.id)

variable [Sha256]

/-- The baseline of a run as `owned_lease` selects it. -/
def baselineOf (s : Store) (g : GradingRun) (deadline : Time) :
    Except Error (Option PublicBaseline) :=
  match g.publicRunId with
  | none => return none
  | some baseline => do
    let b ← fetchOne .json (lookup GradingRun.id baseline s.runs)
    let points ← fetchOne .json (b.publicPoints.or b.points)
    ensure (rfc3339Parses (.ofInstant deadline)) .json
    return some ⟨b.id, points, deadline⟩

/-- The task and its run as `owned_lease` selects them. -/
def ownedTask (s : Store) (now : Time) (worker : Worker) (task token : Uuid)
    (allowDone : Bool) : Option TaskRow :=
  s.tasks.find? fun t => t.id = task && t.kind = .grade && t.leaseOwner = some worker.id &&
    t.leaseToken = some token &&
    ((t.status = .leased && t.live now) || (allowDone && t.status = .done))

def ownedLease (s : Store) (now : Time) (worker : Worker) (task token : Uuid)
    (allowDone : Bool) : Except Error Lease := do
  let t ← fetchOne .rowNotFound (ownedTask s now worker task token allowDone)
  let leaseUntil ← fetchOne .rowNotFound t.leaseUntil
  let g ← s.fetchRun t.subject
  let x ← s.fetchSubmission g.submissionId
  let v ← s.fetchRevision g.revisionDigest
  let p ← s.fetchPinned x.repositoryId
  ensure (g.publicRunId.isNone || p.deadline < now) .rowNotFound
  let source ← fetchOne .json x.sourceDigest
  let revision ← v.definition.decode
  let caps ← fetchOne .json worker.resourceCaps
  revision.validate
  check (worker.profiles.contains revision.assignment.executionProfile &&
    revision.assignment.resources.fits caps) "worker profile or resource caps mismatch"
  check (revision.digest = g.revisionDigest) "stored revision digest mismatch"
  let baseline ← baselineOf s g p.deadline
  return { schemaVersion := 1, taskId := t.id, runId := g.id, leaseToken := token,
           expiresAt := leaseUntil, sha := x.sha, revisionDigest := g.revisionDigest,
           sourceDigest := source, revision, baseline }

/-! ### Results -/

/-- How far a call of `accept` got. -/
inductive AcceptStage
  | validated
  | unrecorded
  | stored
  deriving DecidableEq

/-- A call of `accept` between two of its transactions. -/
structure AcceptCall where
  worker : Worker
  task : Uuid
  result : RunResult
  lease : Lease
  points : Option Int
  stage : AcceptStage

/-- The digest of a result. -/
def resultDigest (result : RunResult) : String := digest (toVec result.toJson)

/-- `accept` up to the validation of the result. -/
def acceptLease (s : Store) (now : Time) (worker : Worker) (task : Uuid) (result : RunResult) :
    Except Error AcceptCall := do
  let lease ← ownedLease s now worker task result.leaseToken true
  let points ← result.validate lease
  return ⟨worker, task, result, lease, points, .validated⟩

/-- The first look at the run: `true` when the result is already recorded. -/
def acceptExisting (s : Store) (call : AcceptCall) : Except Error Bool := do
  let g ← s.fetchRun call.result.runId
  match g.resultDigest with
  | none => return false
  | some existing => do
    check (existing = resultDigest call.result) "conflicting replay"
    return true

/-- `INSERT INTO integrity_findings … ON CONFLICT DO NOTHING` for each finding. -/
def insertFindings (run : Uuid) (findings : List Finding) (rows : List IntegrityFinding) :
    List IntegrityFinding :=
  findings.foldl (fun rows f =>
    if rows.any fun row => row.runId = run && row.path = f.path then rows
    else rows ++ [⟨run, f.path, f.reason⟩]) rows

/-- The writes of a result to its run. -/
def recordResult (call : AcceptCall) (g : GradingRun) : GradingRun :=
  let hash := resultDigest call.result
  { g with
    status := call.result.status.state
    points := call.points
    reportDigest := some hash
    resultDigest := some hash
    publicPoints := (call.lease.baseline.map PublicBaseline.points).or call.points }

/-- Whether the repository is the one a run grades. -/
def gradesRepository (s : Store) (run : Uuid) (r : StudentRepository) : Bool :=
  s.runs.any fun g => g.id = run && repositoryOfRun s g = some r.id

/-- The writes of `accept` once the lease is seen to hold. -/
def commitResult (s : Store) (call : AcceptCall) : Store :=
  let run := call.result.runId
  let reviewed := s.markReview fun r =>
    call.result.status = .invalidated && gradesRepository s run r
  { reviewed with
    runs := updateWhere (fun g => g.id = run) (recordResult call) s.runs
    findings := insertFindings run call.result.findings s.findings
    tasks := updateWhere (fun u => u.id = call.task) (fun u => { u with status := .done }) s.tasks
    outbox := if s.outbox.contains run then s.outbox else s.outbox ++ [run] }

/-- A text column holds no U+0000. -/
def storable (f : Finding) : Bool := !Text.contains f.path '\x00' && !Text.contains f.reason '\x00'

/-- The last transaction of `accept`. -/
def acceptCommit (s : Store) (now : Time) (fresh : Nat → Uuid) (call : AcceptCall) :
    Except Error Store := do
  let run := call.result.runId
  let t ← fetchOne .rowNotFound (s.tasks.find? fun t => t.id = call.task &&
    t.leaseToken = some call.result.leaseToken && t.leaseOwner = some call.worker.id)
  if t.status = .done then do
    let g ← s.fetchRun run
    check (g.resultDigest = some (resultDigest call.result)) "conflicting replay"
    return s
  else do
    check (t.status = .leased && t.live now) "lease lost before result acceptance"
    ensure (call.result.findings.all storable) .outOfRange
    Queue.enqueue (commitResult s call) now (fresh 0) .publish run 30

/-- `sync` fails the runs whose tasks failed. -/
def markFailed (s : Store) : Store :=
  s.updateRuns (fun g => (g.status = .pending || g.status = .running) && s.tasks.any fun t =>
    t.kind = .grade && t.status = .failed && t.subject = g.id) fun g =>
      { g with status := .infrastructureFailed }

end Runs

end Grading

import Mathlib.Data.List.Sort
import SrgGrading.Store.Queue

/-!
# Receipts, snapshots and deadlines

Recording a receipt, keeping the snapshot queue of an enrollment short, closing
a repository at its deadline and extending the deadline.  `fresh` are the
values `Uuid::new_v4` yields, in order; `tie` is how the database orders rows
the query leaves unordered.
-/

open Fallible Relational

namespace Grading

namespace Submissions

/-! ### Scheduling snapshots -/

/-- Whether `x` is the final submission of its repository. -/
def isFinal (s : Store) (x : Submission) : Bool :=
  (s.repositoryOf x).any fun r => r.finalSubmissionId = some x.id

/-- Whether `x` is the newest submission of its repository. -/
def isNewest (s : Store) (x : Submission) : Bool :=
  (s.newest x.repositoryId).map Submission.id = some x.id

/-- Whether the repository of `x` belongs to `enrollment`. -/
def enrolledIn (s : Store) (enrollment : Uuid) (x : Submission) : Bool :=
  (s.repositoryOf x).any fun r => r.enrollmentId = enrollment

/-- A snapshot task nobody needs any more: pending, for a submission that is
neither final nor the newest. -/
def outdated (s : Store) (enrollment : Uuid) (t : TaskRow) : Bool :=
  t.kind = .snapshot && t.status = .pending && s.submissions.any fun x =>
    x.id = t.subject && enrolledIn s enrollment x && !isFinal s x && !isNewest s x

/-- A snapshot task of the enrollment that is still to be done. -/
def active (s : Store) (enrollment : Uuid) (t : TaskRow) : Bool :=
  t.kind = .snapshot && (t.status = .pending || t.status = .leased) && s.submissions.any fun x =>
    x.id = t.subject && enrolledIn s enrollment x

/-- A submission whose source is to be fetched and that has no task yet: the
final one, or the newest of an open repository. -/
def wanted (s : Store) (x : Submission) : Bool :=
  x.sourceDigest.isNone && (s.repositoryOf x).any (fun r =>
    r.finalSubmissionId = some x.id || (!r.closureDue && isNewest s x))
    && !s.hasTask .snapshot x.id

/-- Final submissions first, then the latest; `tie` decides the rest. -/
def snapshotOrder (s : Store) (tie : Uuid → Nat) (x : Submission) : Bool ×ₗ Int ×ₗ Nat :=
  toLex (isFinal s x, toLex (x.receivedAt, tie x.id))

/-- The submissions to enqueue, at most `limit` of them. -/
def chosen (s : Store) (enrollment : Uuid) (tie : Uuid → Nat) (limit : Nat) : List Submission :=
  ((s.submissions.filter fun x => enrolledIn s enrollment x && wanted s x).insertionSort
    fun x y => snapshotOrder s tie y ≤ snapshotOrder s tie x).take limit

/-- Enqueue a snapshot task for each submission. -/
def enqueueSnapshots (now : Time) : Store → (Nat → Uuid) → List (Uuid × Bool) →
    Except Error Store
  | s, _, [] => return s
  | s, fresh, (id, final) :: rest => do
    let s ← Queue.enqueue s now (fresh 0) .snapshot id (if final then 100 else 20)
    enqueueSnapshots now s (fun n => fresh (n + 1)) rest

def scheduleSnapshots (s : Store) (now : Time) (fresh : Nat → Uuid) (tie : Uuid → Nat)
    (repository : Uuid) : Except Error Store := do
  let r ← s.fetchRepository repository
  let s := s.updateTasks (outdated s r.enrollmentId) fun t => { t with status := .cancelled }
  let pending := chosen s r.enrollmentId tie (8 - s.tasks.countP (active s r.enrollmentId))
  enqueueSnapshots now s fresh (pending.map fun x => (x.id, isFinal s x))

/-- The repositories a refill looks at, at most 100 of them. -/
def refillRepositories (s : Store) (tie : Uuid → Nat) : List Uuid :=
  ((((s.submissions.filter (wanted s)).map Submission.repositoryId).dedup).insertionSort
    fun a b => tie a ≤ tie b).take 100

/-- The transactions of a refill, one for each repository. -/
def refillLoop (now : Time) (fresh : Nat → Nat → Uuid) (tie : Nat → Uuid → Nat) :
    Nat → Store → List Uuid → Except Error Store
  | _, s, [] => return s
  | n, s, repository :: rest => do
    let s ← scheduleSnapshots s now (fresh n) (tie n) repository
    refillLoop now fresh tie (n + 1) s rest

/-- A refill that no error stops. -/
def refillSnapshots (s : Store) (now : Time) (fresh : Nat → Nat → Uuid)
    (tie : Nat → Uuid → Nat) : Except Error Store :=
  refillLoop now fresh tie 1 s (refillRepositories s (tie 0))

/-! ### Receipts -/

/-- `INSERT INTO submission_events`. -/
def insertEvent (s : Store) (e : SubmissionEvent) : Except Error Store := do
  ensure (!s.events.any fun f => f.id = e.id || (f.repositoryId = e.repositoryId &&
    e.deliveryId.isSome && f.deliveryId = e.deliveryId)) .uniqueViolation
  return { s with events := s.events ++ [e] }

/-- `INSERT INTO submissions`. -/
def insertSubmission (s : Store) (x : Submission) : Except Error Store := do
  ensure (!s.submissions.any fun y => y.id = x.id || y.eventId = x.eventId) .uniqueViolation
  return { s with submissions := s.submissions ++ [x] }

/-- Whether a receipt counts: in time, pushed by the student, before closure. -/
def eligible (p : Store.Pinned) (received : Time) (source : EventSource) : Bool :=
  p.revision.opensAt ≤ received && received ≤ p.deadline && source ≠ .reconciliation &&
    !p.repository.closureDue

def record (s : Store) (now : Time) (fresh : Nat → Uuid) (tie : Uuid → Nat) (repository : Uuid)
    (sha : String) (received : Time) (source : EventSource) (delivery : Option Uuid) :
    Except Error (Store × Option Uuid) := do
  check (Text.validHex sha 40) "invalid submission SHA"
  let p ← s.fetchPinned repository
  let counts := eligible p received source
  let s ← insertEvent s ⟨fresh 0, repository, sha, timestamptz received, source, counts, delivery⟩
  if !counts then
    let review := source = .reconciliation || p.repository.closureDue ||
      (source = .webhook && p.deadline < received)
    return (if review then s.markReview (fun r => r.id = repository) else s, none)
  else
    match (s.newest repository).filter fun latest => latest.sha = sha with
    | some latest => return (s, some latest.id)
    | none => do
      let s ← insertSubmission s ⟨fresh 1, repository, fresh 0, sha, timestamptz received, none⟩
      let s ← scheduleSnapshots s now (fun n => fresh (n + 2)) tie repository
      return (s, some (fresh 1))

/-! ### Closing -/

/-- A task of the submission that becomes final: its snapshot, and the grading
of its runs. -/
def ofFinal (s : Store) (submission : Uuid) (t : TaskRow) : Bool :=
  (t.kind = .snapshot && t.subject = submission) ||
    (t.kind = .grade && s.runs.any fun g => g.id = t.subject && g.submissionId = submission)

/-- The task with priority, and another chance if it failed or was cancelled. -/
def revive (now : Time) (t : TaskRow) : TaskRow :=
  let again : Bool := t.status = .failed || t.status = .cancelled
  { t with priority := 100, status := if again then .pending else t.status,
           attempts := if again then 0 else t.attempts, availableAt := now }

/-- The first closing of a repository: freeze its newest submission. -/
def freeze (s : Store) (now : Time) (repository : Uuid) : Store :=
  let submission := (s.newest repository).map Submission.id
  let s := s.updateRepositories (fun r => r.id = repository) fun r =>
    { r with closureDue := true, finalSubmissionId := submission }
  match submission with
  | some submission => s.updateTasks (ofFinal s submission) (revive now)
  | none => s

/-- Enqueue the lock of a repository, or give a failed one another chance. -/
def enqueueLock (s : Store) (now : Time) (id repository : Uuid) : Except Error Store := do
  let s ← Queue.enqueue s now id .lock repository 100
  return s.updateTasks (fun t => t.kind = .lock && t.subject = repository && t.status = .failed)
    fun t => { t with status := .pending, attempts := 0, availableAt := now }

def close (s : Store) (now : Time) (fresh : Nat → Uuid) (repository : Uuid) :
    Except Error Store := do
  let p ← s.fetchPinned repository
  let due : Bool := p.deadline < now
  let s := if due && !p.repository.closureDue then freeze s now repository else s
  if due then enqueueLock s now (fresh 0) repository else return s

/-! ### Extensions -/

/-- `INSERT INTO extensions … ON CONFLICT(repository_id) DO UPDATE`. -/
def upsertExtension (extensions : List Extension) (x : Extension) : List Extension :=
  if extensions.any fun y => y.repositoryId = x.repositoryId then
    updateWhere (fun y => y.repositoryId = x.repositoryId) (fun _ => x) extensions
  else extensions ++ [x]

def extend (s : Store) (now : Time) (repository : Uuid) (deadline : Time)
    (operator reason : String) : Except Error Store := do
  check (!Text.blank reason) "reason required"
  let p ← s.fetchPinned repository
  check (!p.repository.closureDue && p.deadline < deadline && now < deadline)
    ("extension must advance an assignment that has not been closed; " ++
      "closed submissions require an audited selection override")
  let x : Extension := ⟨repository, timestamptz deadline, reason⟩
  let s := { s with extensions := upsertExtension s.extensions x }
  return s.auditEvent operator "extension" repository.text
    (String.ofList (dateTimeText ' ' (.ofInstant deadline) ++ " UTC: ".toList) ++ reason)

/-! ### Overriding grades -/

def overrideGrade (s : Store) (now : Time) (fresh : Nat → Uuid) (repository : Uuid) (points : Int)
    (operator reason : String) : Except Error Store := do
  check (!Text.blank reason) "reason required"
  let r ← s.fetchRepository repository
  let v ← s.fetchRevision r.gradingRevision
  check (0 ≤ points && points ≤ v.maxPoints) "override outside point bounds"
  let id := fresh 0
  ensure (!s.overrides.any fun o => o.id = id) .uniqueViolation
  let o : GradeOverride :=
    { id, repositoryId := repository, points, reason, operator, createdAt := now }
  return { s with overrides := s.overrides ++ [o] }.auditEvent operator "grade.override"
    repository.text reason

/-! ### Selecting another submission -/

/-- The submission of an event, inserted if there is none yet. -/
def submissionOfEvent (s : Store) (id : Uuid) (e : SubmissionEvent) :
    Except Error (Store × Uuid) :=
  match s.submissions.find? fun x => x.eventId = e.id with
  | some x => return (s, x.id)
  | none => do
    let s ← insertSubmission s ⟨id, e.repositoryId, e.id, e.sha, e.receivedAt, none⟩
    return (s, id)

/-- The transaction of `select_submission`. -/
def selectSubmission (s : Store) (now : Time) (fresh : Nat → Uuid) (event : Uuid)
    (operator reason : String) : Except Error (Store × Uuid) := do
  check (!Text.blank reason) "reason required"
  let e ← fetchOne .rowNotFound (lookup SubmissionEvent.id event s.events)
  let r ← s.fetchRepository e.repositoryId
  check r.closureDue "selection overrides require a closed assignment"
  let (s, id) ← submissionOfEvent s (fresh 0) e
  ensure (s.submissions.any fun x => x.id = id && x.repositoryId = r.id) .foreignKeyViolation
  let s := s.updateRepositories (fun q => q.id = r.id) fun q =>
    { q with finalSubmissionId := some id, needsReview := false }
  let s := s.auditEvent operator "submission.select" event.text reason
  let s ← Queue.enqueue s now (fresh 1) .snapshot id 100
  return (s, id)

/-! ### Retaining sources -/

/-- `Artifacts::put`. -/
def put [Sha256] (s : Store) (kind : String) (bytes : List UInt8) :
    Except Error (Store × String) := do
  check (bytes.length ≤ maxSnapshotBytes * 2) "artifact exceeds limit"
  let hash := digest bytes
  let s := if s.artifacts.any fun a => a.digest = hash then s
    else { s with artifacts := s.artifacts ++ [⟨hash, bytes.length, kind⟩] }
  return (s, hash)

/-- `UPDATE submissions SET source_digest=$2 WHERE id=$1 AND source_digest IS NULL`. -/
def retainSource (s : Store) (id : Uuid) (hash : String) : Except Error Store := do
  ensure (s.artifacts.any fun a => a.digest = hash) .foreignKeyViolation
  let unset := fun x : Submission => x.id = id && x.sourceDigest.isNone
  let retain := fun x : Submission => { x with sourceDigest := some hash }
  return { s with submissions := updateWhere unset retain s.submissions }

/-- `sync` flags the repositories of failed snapshots for review. -/
def flagFailedSnapshots (s : Store) : Store :=
  s.markReview fun r => s.submissions.any fun x => x.repositoryId = r.id &&
    s.tasks.any fun t => t.kind = .snapshot && t.subject = x.id && t.status = .failed

end Submissions

end Grading

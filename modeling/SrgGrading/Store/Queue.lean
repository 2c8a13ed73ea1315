import SrgGrading.Store.Schema

/-!
# The work queue

Tasks are leased for two minutes under a token of their own, and every later
write names the token.
-/

open Fallible Relational

namespace Grading

/-- What a lease returns about a task. -/
structure Task where
  id : Uuid
  kind : TaskKind
  subject : Uuid
  leaseToken : Uuid
  leaseUntil : Time
  attempts : Int
  deriving DecidableEq

namespace Queue

/-- `INSERT … ON CONFLICT(dedup_key) DO NOTHING`. -/
def enqueue (s : Store) (now : Time) (id : Uuid) (kind : TaskKind) (subject : Uuid)
    (priority : Int) : Except Error Store := do
  if s.hasTask kind subject then return s
  else do
    ensure (!s.tasks.any fun t => t.id = id) .uniqueViolation
    return { s with tasks := s.tasks ++ [TaskRow.new id kind subject priority now] }

/-- The row a lease takes.  `locked` are the rows other transactions hold. -/
def candidate (s : Store) (now : Time) (locked : List Uuid) (kinds : List TaskKind) :
    Option TaskRow :=
  (s.tasks.filter fun t => kinds.contains t.kind && t.ready now && !locked.contains t.id).argmin
    TaskRow.leaseOrder

def lease (s : Store) (now : Time) (locked : List Uuid) (token : Uuid) (owner : String)
    (kinds : List TaskKind) : Store × Option Task :=
  match candidate s now locked kinds with
  | none => (s, none)
  | some t =>
    (s.updateTasks (fun u => u.id = t.id) fun u => u.leaseTo owner token now,
      some ⟨t.id, t.kind, t.subject, token, now + 120 * nanosPerSecond, t.attempts + 1⟩)

/-- The row is leased under this token, and the lease has not run out. -/
def holds (now : Time) (id token : Uuid) (t : TaskRow) : Bool :=
  t.id = id && t.leaseToken = some token && t.status = .leased && t.live now

def heartbeat (s : Store) (now : Time) (id token : Uuid) (owner : String) :
    Except Error Store := do
  let held := fun t => holds now id token t && t.leaseOwner = some owner
  check (s.tasks.countP held = 1) "lease expired or belongs to another worker"
  return s.updateTasks held fun t => { t with leaseUntil := some (now + 120 * nanosPerSecond) }

def finish (s : Store) (now : Time) (task : Task) : Except Error Store := do
  let held := holds now task.id task.leaseToken
  check (s.tasks.countP held = 1) "lease lost before completion"
  return s.updateTasks held fun t => { t with status := .done }

def fail (s : Store) (now : Time) (task : Task) (text : String) : Store :=
  let delay : Int := 30 * 2 ^ (min task.attempts 8).toNat
  s.updateTasks (holds now task.id task.leaseToken) fun t =>
    { t with status := if 8 ≤ t.attempts then .failed else .pending,
             availableAt := now + delay * nanosPerSecond, lastError := some text }

def expireExhausted (s : Store) (now : Time) : Store :=
  s.updateTasks (fun t => t.status = .leased && t.expired now && 8 ≤ t.attempts) fun t =>
    { t with status := .failed, lastError := some "retry budget exhausted" }

/-- The submission a task's payload names. -/
def Task.submissionId (task : Task) : Option Uuid :=
  if task.kind = .snapshot then some task.subject else none

def failPermanently (s : Store) (now : Time) (task : Task) : Store :=
  let s := s.updateTasks (holds now task.id task.leaseToken) fun t =>
    { t with status := .failed, lastError := some "permanent submission validation failure" }
  s.markReview fun r => s.submissions.any fun x =>
    x.repositoryId = r.id && some x.id = Task.submissionId task

def retry (s : Store) (now : Time) (task : Uuid) (operator reason : String) :
    Except Error Store := do
  check (!Text.blank reason) "retry reason required"
  let failed := fun t : TaskRow => t.id = task && t.status = .failed &&
    [TaskKind.snapshot, .publish, .provision, .lock].contains t.kind
  check (s.tasks.countP failed = 1) "task is not a failed control task"
  let s := s.updateTasks failed fun t =>
    { t with status := .pending, attempts := 0, availableAt := now }
  return s.auditEvent operator "task.retry" task.text reason

def defer (s : Store) (now : Time) (task : Task) (until_ : Time) : Store :=
  s.updateTasks (holds now task.id task.leaseToken) fun t =>
    { t with status := .pending, availableAt := timestamptz until_,
             attempts := max (t.attempts - 1) 0, lastError := some "source API budget deferred" }

end Queue

end Grading

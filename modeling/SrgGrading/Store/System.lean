import SrgGrading.Core.Sizes
import SrgGrading.Library.Transition
import SrgGrading.Store.Runs

/-!
# The system

The store under the operations of any number of web processes, control workers
and grading workers.  A transaction is one step; `accept`, which takes several,
is in flight between them.  A transaction that fails leaves the store alone.
-/

open Relational

namespace Grading

/-- The store, the time of the last step, and the calls of `accept` in flight. -/
structure Sys where
  store : Store
  clock : Time
  accepts : List Runs.AcceptCall

/-- One transaction on the store alone, with its arguments, the identifiers it
draws and the choices the database makes in it. -/
inductive StoreOp
  | publish (fresh : Nat → Uuid) (publication : Exercises.Publication)
  | applySet (fresh : Nat → Uuid) (collate : String → String → Bool) (set : Exercises.ApplySet)
  | requestRepository (fresh : Nat → Uuid) (githubId : Int) (assignment : Uuid)
  | record (fresh : Nat → Uuid) (tie : Uuid → Nat) (repository : Uuid) (sha : String)
      (received : Time) (source : EventSource) (delivery : Option Uuid)
  | scheduleSnapshots (fresh : Nat → Uuid) (tie : Uuid → Nat) (repository : Uuid)
  | close (fresh : Nat → Uuid) (repository : Uuid)
  | extend (repository : Uuid) (deadline : Time) (operator reason : String)
  | overrideGrade (fresh : Nat → Uuid) (repository : Uuid) (points : Int)
      (operator reason : String)
  | selectSubmission (fresh : Nat → Uuid) (event : Uuid) (operator reason : String)
  | put (kind : String) (bytes : List UInt8)
  | retainSource (submission : Uuid) (hash : String)
  | flagFailedSnapshots
  | leaseTask (locked : List Uuid) (token : Uuid) (owner : String) (kinds : List TaskKind)
  | heartbeat (task token : Uuid) (owner : String)
  | finish (task : Task)
  | fail (task : Task) (text : String)
  | failPermanently (task : Task)
  | deferTask (task : Task) (until_ : Time)
  | retry (task : Uuid) (operator reason : String)
  | expireExhausted
  | enqueueRun (fresh : Nat → Uuid) (submission : Uuid) (regrade : Bool)
  | enqueuePrivate (fresh : Nat → Uuid) (repository : Uuid) (operator reason : String)
  | retryPrivate (fresh : Nat → Uuid) (failed : Uuid) (operator reason : String)
  | lease (locked : List Uuid) (token : Uuid) (worker : Worker) (requested : List String)
  | markFailed

/-- A step: a transaction on the store, or the next one of an `accept`, whose
process may also stop between two of them. -/
inductive Op
  | store (op : StoreOp)
  | acceptLease (worker : Worker) (task : Uuid) (result : RunResult)
  | acceptExisting (call : Nat)
  | acceptPut (call : Nat)
  | acceptCommit (call : Nat) (fresh : Nat → Uuid)
  | acceptStop (call : Nat)

/-- A control worker holds tasks of the control kinds only. -/
def controlTask (s : Store) (id : Uuid) : Bool :=
  s.tasks.all fun t => t.id ≠ id || t.kind ≠ .grade

namespace StoreOp

/-- What the callers of an operation see to. -/
def allowed (s : Store) : StoreOp → Bool
  | .leaseTask _ _ _ kinds => !kinds.contains .grade
  | .finish task => controlTask s task.id
  | .fail task _ => controlTask s task.id
  | .failPermanently task => controlTask s task.id
  | .deferTask task _ => controlTask s task.id
  | _ => true

variable [Sha256]

/-- The store after the operation. -/
def exec (s : Store) (now : Time) : StoreOp → Except Error Store
  | .publish fresh publication => Exercises.publish s fresh publication
  | .applySet fresh collate set => Exercises.applySet s fresh collate set
  | .requestRepository fresh githubId assignment =>
    (Courses.requestRepository s now fresh githubId assignment).map Prod.fst
  | .record fresh tie repository sha received source delivery =>
    (Submissions.record s now fresh tie repository sha received source delivery).map Prod.fst
  | .scheduleSnapshots fresh tie repository =>
    Submissions.scheduleSnapshots s now fresh tie repository
  | .close fresh repository => Submissions.close s now fresh repository
  | .extend repository deadline operator reason =>
    Submissions.extend s now repository deadline operator reason
  | .overrideGrade fresh repository points operator reason =>
    Submissions.overrideGrade s now fresh repository points operator reason
  | .selectSubmission fresh event operator reason =>
    (Submissions.selectSubmission s now fresh event operator reason).map Prod.fst
  | .put kind bytes => (Submissions.put s kind bytes).map Prod.fst
  | .retainSource submission hash => Submissions.retainSource s submission hash
  | .flagFailedSnapshots => .ok (Submissions.flagFailedSnapshots s)
  | .leaseTask locked token owner kinds => .ok (Queue.lease s now locked token owner kinds).1
  | .heartbeat task token owner => Queue.heartbeat s now task token owner
  | .finish task => Queue.finish s now task
  | .fail task text => .ok (Queue.fail s now task text)
  | .failPermanently task => .ok (Queue.failPermanently s now task)
  | .deferTask task until_ => .ok (Queue.defer s now task until_)
  | .retry task operator reason => Queue.retry s now task operator reason
  | .expireExhausted => .ok (Queue.expireExhausted s now)
  | .enqueueRun fresh submission regrade =>
    (Runs.enqueueRun s now fresh submission regrade).map Prod.fst
  | .enqueuePrivate fresh repository operator reason =>
    (Runs.enqueuePrivateRepository s now fresh repository operator reason).map Prod.fst
  | .retryPrivate fresh failed operator reason =>
    (Runs.retryPrivate s now fresh failed operator reason).map Prod.fst
  | .lease locked token worker requested =>
    (Runs.lease s now locked token worker requested).map Prod.fst
  | .markFailed => .ok (Runs.markFailed s)

end StoreOp

namespace Sys

/-- What the callers of an operation see to. -/
def allowed (σ : Sys) : Op → Bool
  | .store op => op.allowed σ.store
  | _ => true

/-- The call at `i` over, whether it returned `Ok` or an error. -/
def dropCall (σ : Sys) (i : Nat) : Sys := { σ with accepts := σ.accepts.eraseIdx i }

/-- The call at `i` at its next transaction. -/
def advance (σ : Sys) (i : Nat) (call : Runs.AcceptCall) (stage : Runs.AcceptStage) : Sys :=
  { σ with accepts := σ.accepts.set i { call with stage := stage } }

/-- The call at `i`, if it is at `stage`. -/
def callAt (σ : Sys) (i : Nat) (stage : Runs.AcceptStage) : Option Runs.AcceptCall :=
  σ.accepts[i]?.filter fun call => call.stage = stage

variable [Sha256]

/-- The system after an operation. -/
def perform (σ : Sys) (now : Time) : Op → Sys
  | .store op =>
    match op.exec σ.store now with
    | .ok s => { σ with store := s }
    | .error _ => σ
  | .acceptLease worker task result =>
    match Runs.acceptLease σ.store now worker task result with
    | .ok call => { σ with accepts := σ.accepts ++ [call] }
    | .error _ => σ
  | .acceptExisting i =>
    match σ.callAt i .validated with
    | none => σ
    | some call =>
      match Runs.acceptExisting σ.store call with
      | .ok false => σ.advance i call .unrecorded
      | _ => σ.dropCall i
  | .acceptPut i =>
    match σ.callAt i .unrecorded with
    | none => σ
    | some call =>
      match Submissions.put σ.store "report" (toVec call.result.toJson) with
      | .ok (s, _) => { σ.advance i call .stored with store := s }
      | .error _ => σ.dropCall i
  | .acceptCommit i fresh =>
    match σ.callAt i .stored with
    | none => σ
    | some call =>
      match Runs.acceptCommit σ.store now fresh call with
      | .ok s => { σ.dropCall i with store := s }
      | .error _ => σ.dropCall i
  | .acceptStop i => σ.dropCall i

/-- One transaction, at a time not before the last. -/
def Step (σ : Sys) (l : Time × Op) (τ : Sys) : Prop :=
  σ.clock ≤ l.1 ∧ σ.allowed l.2 = true ∧ τ = { σ.perform l.1 l.2 with clock := l.1 }

/-- An operation of the store that succeeds. -/
theorem step_of_exec {σ : Sys} {now : Time} {op : StoreOp} {s : Store} (hclock : σ.clock ≤ now)
    (hallowed : op.allowed σ.store = true) (h : op.exec σ.store now = .ok s) :
    Step σ (now, .store op) { σ with store := s, clock := now } := by
  refine ⟨hclock, hallowed, ?_⟩
  simp only [perform, h]

/-- A deployment before any work is queued or graded: repositories may be
allocated, pushed to and closed, and being provisioned.  The fields are the
constraints of the tables. -/
structure Initial (σ : Sys) : Prop where
  accepts : σ.accepts = []
  runs : σ.store.runs = []
  tasks : ∀ t ∈ σ.store.tasks, t.kind = .provision
  taskIds : Keyed TaskRow.id σ.store.tasks
  taskKeys : Keyed (fun t => (t.kind, t.subject)) σ.store.tasks
  repositoryIds : Keyed StudentRepository.id σ.store.repositories
  submissionIds : Keyed Submission.id σ.store.submissions
  submissionEvents : Keyed Submission.eventId σ.store.submissions
  eventIds : Keyed SubmissionEvent.id σ.store.events
  revisionDigests : Keyed AssignmentRevision.digest σ.store.revisions
  submissionRepository : ∀ x ∈ σ.store.submissions,
    ∃ r ∈ σ.store.repositories, r.id = x.repositoryId
  finals : ∀ r ∈ σ.store.repositories, ∀ id, r.finalSubmissionId = some id →
    r.closureDue = true ∧ ∃ x ∈ σ.store.submissions, x.id = id ∧ x.repositoryId = r.id

/-- The states some run of the system reaches. -/
def Reachable : Sys → Prop := Transition.Reachable Step Initial

/-- The state after the given steps, if each of them may be taken. -/
def play (σ : Sys) : List (Time × Op) → Option Sys
  | [] => some σ
  | l :: rest =>
    if σ.clock ≤ l.1 && σ.allowed l.2 then play { σ.perform l.1 l.2 with clock := l.1 } rest
    else none

/-- The transitions `play` takes. -/
def trace (σ : Sys) : List (Time × Op) → List (Sys × (Time × Op))
  | [] => []
  | l :: rest => (σ, l) :: trace { σ.perform l.1 l.2 with clock := l.1 } rest

theorem map_trace (σ : Sys) (ops : List (Time × Op)) : (σ.trace ops).map Prod.snd = ops := by
  induction ops generalizing σ with
  | nil => rfl
  | cons l rest ih => rw [trace, List.map_cons, ih]

theorem play_append (σ : Sys) (ops rest : List (Time × Op)) :
    σ.play (ops ++ rest) = (σ.play ops).bind fun τ => τ.play rest := by
  induction ops generalizing σ with
  | nil => rfl
  | cons l ops ih =>
    rw [List.cons_append, play, play]
    split
    · exact ih _
    · rfl

/-- A call of `accept` whose result is valid. -/
theorem play_acceptLease {σ : Sys} {now : Time} {worker : Worker} {task : Uuid}
    {result : RunResult} {call : Runs.AcceptCall} (hclock : σ.clock ≤ now)
    (h : Runs.acceptLease σ.store now worker task result = .ok call)
    (rest : List (Time × Op)) :
    σ.play ((now, .acceptLease worker task result) :: rest) =
      play ⟨σ.store, now, σ.accepts ++ [call]⟩ rest := by
  rw [play, decide_eq_true hclock]
  simp only [allowed, Bool.true_and, if_true, perform, h]

/-- What `play` does is a run. -/
theorem run_of_play {σ τ : Sys} {ops : List (Time × Op)} (h : σ.play ops = some τ) :
    Transition.Run Step σ (σ.trace ops) τ := by
  induction ops generalizing σ with
  | nil =>
    cases h
    exact .nil
  | cons l rest ih =>
    rw [play] at h
    split at h
    · rename_i hl
      rw [Bool.and_eq_true, decide_eq_true_eq] at hl
      exact (Transition.Run.single (show Step σ l _ from ⟨hl.1, hl.2, rfl⟩)).trans (ih h)
    · cases h

end Sys

/-! ### A small deployment -/

namespace Sample

def image : String :=
  "registry/runner@sha256:cccccccccccccccccccccccccccccccccccccccccccccccccccccccccccccccc"

def assignment : Assignment where
  title := "Loops"
  opensAt := .ofInstant 0
  deadline := .ofInstant (10 * nanosPerSecond)
  branch := "main"
  template := "course/loops"
  templateRevision := "aaaaaaaaaaaaaaaaaaaaaaaaaaaaaaaaaaaaaaaa"
  image := image
  integrityManifest := "integrity.json"
  publicTests := "tests"
  executionProfile := "registered-v1"
  maxPoints := 10
  timeoutSeconds := 60
  resources := ⟨1, 1, 1⟩
  score := ⟨"public-tests", "latest-eligible-submission"⟩

def grader : Grader where
  caching := none
  repository := "course/grader"
  revision := "bbbbbbbbbbbbbbbbbbbbbbbbbbbbbbbbbbbbbbbb"
  image := image
  sourceDigest := some "dddddddddddddddddddddddddddddddddddddddddddddddddddddddddddddddd"
  workflow := some ⟨["/grade"], some ["/grade", "private"]⟩

/-- An exercise with one protected test and a private command. -/
def revision : Revision where
  courseId := "prog"
  assignmentId := "loops"
  assignment := assignment
  manifest := ⟨1, assignment.templateRevision, ["src/"], .ofList [("tests/t.py",
    ⟨"100644", "ca978112ca1bbdcafac231b39a23dc4da786eff8147c4e72b9807785afee48bb"⟩)]⟩
  tests := ⟨1⟩
  grader := some grader

/-- The digest of `revision`. -/
def revisionDigest : String := "cf25ea79bbab13fe4a8acdff6b37113957e96ddd926abb2a36762c3622325787"

theorem revision_checked : revision.validate = .ok () ∧
    @Revision.digest Sha256.standard revision = revisionDigest := by
  decide +kernel

/-- `revision` stays valid with other settings that keep what its parts share. -/
theorem revision_with {a : Assignment} (hvalid : a.validate = .ok ())
    (hkept : a.image = assignment.image ∧ a.executionProfile = assignment.executionProfile ∧
      a.templateRevision = assignment.templateRevision ∧ a.publicTests = assignment.publicTests)
    (hsize : a.toJson.size ≤ 10000) :
    Revision.validate { revision with assignment := a } = .ok () := by
  have hnames : Text.len revision.courseId + Text.len revision.assignmentId +
      revision.tests.toJson.size ≤ 100 := by decide +kernel
  have hsizes : revision.manifest.toJson.size ≤ 10000 ∧ grader.toJson.size ≤ 10000 := by
    decide +kernel
  exact Revision.validate_with revision_checked.1 rfl rfl hvalid hkept hnames ⟨hsize, hsizes⟩

def revisionRow : AssignmentRevision where
  digest := revisionDigest
  assignmentId := 2
  configRevision := "eeeeeeeeeeeeeeeeeeeeeeeeeeeeeeeeeeeeeeee"
  definition := revision
  opensAt := assignment.opensAt.instant
  deadline := assignment.deadline.instant
  maxPoints := assignment.maxPoints
  graderSourceDigest := grader.sourceDigest

/-- An open repository of the exercise. -/
def repository : StudentRepository where
  id := 3
  enrollmentId := 1
  assignmentId := 2
  revisionDigest := revisionDigest
  gradingRevision := revisionDigest
  name := "loops-student"
  closureDue := false
  finalSubmissionId := none
  needsReview := false

/-- The deployment with this repository, before anything was pushed. -/
def start : Sys where
  store :=
    { courses := [⟨"prog", "Programming", "org", "UTC"⟩]
      enrollments := [⟨1, "prog", 7, "student", "Student"⟩]
      assignments := [⟨2, "prog", "loops", some revisionDigest, false⟩]
      revisions := [revisionRow]
      repositories := [repository]
      extensions := [], events := [], artifacts := [], submissions := [], runs := []
      findings := [], overrides := [], tasks := [], outbox := [], audit := [] }
  clock := 0
  accepts := []

theorem initial : start.Initial where
  accepts := rfl
  runs := rfl
  tasks := by intro t ht; cases ht
  taskIds := by decide
  taskKeys := by decide
  repositoryIds := by decide
  submissionIds := by decide
  submissionEvents := by decide
  eventIds := by decide
  revisionDigests := by decide
  submissionRepository := by intro x hx; cases hx
  finals := by
    intro r hr id hid
    have hr : r ∈ [repository] := hr
    rw [List.mem_singleton] at hr
    subst hr
    cases hid

/-- `s` seconds after the exercise opens. -/
def second (s : Int) : Time := s * nanosPerSecond

/-- The values of `Uuid::new_v4` in a step, from `n` on. -/
def ids (n : Nat) (k : Nat) : Uuid := Fin.ofNat _ (n + k)

/-- A student's push of `sha`, received at `received`. -/
def push (n : Nat) (sha : String) (received : Time) : Op :=
  .store (.record (ids n) (fun _ => 0) 3 sha received .webhook none)

def close (n : Nat) : Op := .store (.close (ids n) 3)

/-- `enqueue_run` for a submission. -/
def enqueue (n : Nat) (submission : Uuid) (regrade : Bool) : Op :=
  .store (.enqueueRun (ids n) submission regrade)

def worker : Worker := ⟨"worker", ["registered-v1"], some ⟨4, 16, 64⟩⟩

/-- A lease of `worker` under the token `token`. -/
def leaseAs (token : Uuid) : Op := .store (.lease [] token worker ["registered-v1"])

def shaA : String := "aaaaaaaaaaaaaaaaaaaaaaaaaaaaaaaaaaaaaaaa"
def shaB : String := "bbbbbbbbbbbbbbbbbbbbbbbbbbbbbbbbbbbbbbbb"

/-- The digest of the one byte of a source. -/
def sourceDigest : String := "4bf5122f344554c53bde2ebb8cd2b7e3d1600ad631c385a5d7cce23c7785459a"

/-- The result of a run of submission 21 leased under `token`. -/
def passed (run token : Uuid) (points : Int) : RunResult where
  logs := []
  schemaVersion := 1
  leaseToken := token
  runId := run
  sha := shaB
  revisionDigest := revisionDigest
  image := image
  resources := assignment.resources
  status := .completed
  findings := []
  score := some ⟨1, points, false, "graded"⟩

/-- Two pushes, submissions 11 and 21, with their sources retained. -/
def captured : List (Time × Op) :=
  [(second 1, push 10 shaA (second 1)), (second 2, .store (.put "source" [1])),
    (second 2, .store (.retainSource 11 sourceDigest)), (second 3, push 20 shaB (second 3)),
    (second 4, .store (.retainSource 21 sourceDigest))]

end Sample

end Grading

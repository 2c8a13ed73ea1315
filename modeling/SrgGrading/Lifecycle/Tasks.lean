import SrgGrading.Library.Transition
import SrgGrading.Lifecycle.GitHub

/-!
# Provisioning, locking and observing a repository

The control tasks of one student repository as programs, and the system they
run in: a task holds the advisory lock of the repository from its first call on,
a synchronization observes the repository without it, and the deadline, the
student and the clock act between any two calls.
-/

open Fallible Relational Program

namespace Grading

namespace Lifecycle

/-! ### The tasks -/

variable [Sha256]

/-- `provision` while the repository is being created. -/
def create (task token : Uuid) (repository : Courses.Repository) (revision : Revision)
    (fullName : String) : Client Unit := do
  let now ← request .now
  lift (check (!repository.closureDue && now ≤ repository.deadline)
    "assignment expired before provisioning")
  let source ← request
    (.snapshot revision.assignment.template revision.assignment.templateRevision)
  let findings ← lift (revision.manifest.check source)
  lift (check findings.isEmpty "template does not match approved manifest")
  let created ← GitHub.ensurePrivateRepository repository.organization repository.name
    repository.provisioningNonce
  lift (check (repository.githubRepoId.all fun id => id = created.id) "repository identity changed")
  request (.setRepositoryId created.id)
  GitHub.seed fullName revision.assignment.branch source
  let updated ← request (.finishSeeding task token)
  lift (check (updated = 1) "lease or assignment closed during seeding")

omit [Sha256] in
/-- `provision` once the repository is seeded. -/
def inviteStudent (fullName : String) : Client Unit := do
  let repository ← request .load
  let now ← request .now
  lift (check (!repository.closureDue && now ≤ repository.deadline)
    "assignment closed before invitation")
  let id ← lift (fetchOne (.message "missing repository ID") repository.githubRepoId)
  let _ ← GitHub.verifyRepository fullName id
  GitHub.verifyNoTeams fullName
  let invitation ← GitHub.invite fullName repository.githubId
  let permission ← GitHub.permission fullName repository.githubId
  lift (check (permission = "none" || permission = "read" || permission = "write")
    "student has excessive permissions")
  request (.setInvitation (if permission = "write" then .ready else .invitationPending) invitation)

def provision (task token : Uuid) : Client Unit := do
  let repository ← request .load
  if repository.state = .ready then pure ()
  else do
    let revision ← lift repository.definition.decode
    let fullName := repository.organization ++ "/" ++ repository.name
    when (repository.state = .creating) (create task token repository revision fullName)
    inviteStudent fullName

omit [Sha256] in
def lock : Client Unit := do
  let repository ← request .load
  lift (check repository.closureDue "assignment is not due for closure")
  let fullName := repository.organization ++ "/" ++ repository.name
  let id ← lift (fetchOne (.message "repository not created") repository.githubRepoId)
  let _ ← GitHub.verifyRepository fullName id
  GitHub.lock fullName repository.githubId
  request .setLocked

omit [Sha256] in
def observe : Client Unit := do
  let repository ← request .load
  match repository.githubRepoId with
  | none => request .enqueueProvision
  | some id => do
    let revision ← lift repository.definition.decode
    let fullName := repository.organization ++ "/" ++ repository.name
    let _ ← GitHub.verifyRepository fullName id
    GitHub.disableActions fullName
    GitHub.verifyNoTeams fullName
    let permission ← GitHub.permission fullName repository.githubId
    let sha ← GitHub.branchSha fullName revision.assignment.branch
    request (.observed sha permission
      (repository.closureDue && permission ≠ "read" && permission ≠ "none"))
    lift (check (permission = "none" || permission = "read" || permission = "write")
      "excessive effective permissions")

/-! ### The system -/

/-- The tasks that take the advisory lock. -/
inductive Kind
  | provision (task token : Uuid)
  | lock
  deriving DecidableEq

/-- What a task runs. -/
def Kind.program : Kind → Client Unit
  | .provision task token => Lifecycle.provision task token
  | .lock => Lifecycle.lock

end Lifecycle

/-- A repository with the task that holds its lock and the synchronization that
observes it. -/
structure Lifecycle where
  world : World
  task : Option (Lifecycle.Kind × Client Unit)
  observer : Option (Client Unit)

namespace Lifecycle

inductive Event
  /-- A task takes the advisory lock. -/
  | begin (kind : Kind)
  /-- Its next call. -/
  | call
  /-- It returned `Ok`. -/
  | finish
  /-- It failed, or its worker went away. -/
  | stop
  | beginObserve
  | callObserve
  | endObserve
  | close
  | extend (deadline : Time)
  /-- The student accepts an invitation. -/
  | accept (invitation : Int)
  | tick (now : Time)
  deriving DecidableEq

variable [Sha256]

/-- One step of anybody. -/
inductive Step : Lifecycle → Event → Lifecycle → Prop
  | begin (σ : Lifecycle) (kind : Kind) (h : σ.task = none) :
      Step σ (.begin kind) { σ with task := some (kind, kind.program) }
  | call (σ : Lifecycle) (kind : Kind) (p p' : Client Unit) (w : World)
      (h : σ.task = some (kind, p)) (hstep : Program.Step Serves p σ.world p' w) :
      Step σ .call { σ with world := w, task := some (kind, p') }
  | finish (σ : Lifecycle) (kind : Kind) (h : σ.task = some (kind, .done ())) :
      Step σ .finish { σ with task := none }
  | stop (σ : Lifecycle) (kind : Kind) (p : Client Unit) (h : σ.task = some (kind, p)) :
      Step σ .stop { σ with task := none }
  | beginObserve (σ : Lifecycle) (h : σ.observer = none) :
      Step σ .beginObserve { σ with observer := some observe }
  | callObserve (σ : Lifecycle) (p p' : Client Unit) (w : World) (h : σ.observer = some p)
      (hstep : Program.Step Serves p σ.world p' w) :
      Step σ .callObserve { σ with world := w, observer := some p' }
  | endObserve (σ : Lifecycle) : Step σ .endObserve { σ with observer := none }
  | close (σ : Lifecycle) (h : σ.world.row.deadline < σ.world.clock) :
      Step σ .close
        { σ with world := { σ.world with row := { σ.world.row with closureDue := true } } }
  | extend (σ : Lifecycle) (deadline : Time) (hopen : σ.world.row.closureDue = false)
      (hlater : σ.world.row.deadline < deadline) (hnow : σ.world.clock < deadline) :
      Step σ (.extend deadline)
        { σ with world := { σ.world with row := { σ.world.row with deadline := deadline } } }
  | accept (σ : Lifecycle) (i : GitHub.Invitation) (hi : i ∈ σ.world.hub.invitations)
      (hinvitee : i.invitee = some σ.world.row.githubId) :
      Step σ (.accept i.id)
        { σ with world := { σ.world with hub := { σ.world.hub with
          role := i.permission
          invitations := σ.world.hub.invitations.filter fun j => j.id ≠ i.id } } }
  | tick (σ : Lifecycle) (now : Time) (h : σ.world.clock ≤ now) :
      Step σ (.tick now) { σ with world := { σ.world with clock := now } }

end Lifecycle

end Grading

import SrgGrading.Library.Program
import SrgGrading.Library.Relational
import SrgGrading.Core.Protocol

/-!
# The GitHub client

The calls of the GitHub API and of the database a control task makes for one
student repository, and the functions of the client that make them.  Reading a
snapshot is one call: it reads trees and blobs of a repository and changes
nothing.

What GitHub keeps of the repository and of the student is `Hub`; whatever else
an answer tells is left open.
-/

open Fallible Relational

namespace Grading

namespace GitHub

/-! ### Permissions -/

/-- A role in a repository. -/
inductive Role
  | none
  | read
  | triage
  | write
  | maintain
  | admin
  deriving DecidableEq

/-- The `role_name` of a role. -/
def Role.name : Role → String
  | .none => "none"
  | .read => "read"
  | .triage => "triage"
  | .write => "write"
  | .maintain => "maintain"
  | .admin => "admin"

/-- The coarser `permission` of a role. -/
def Role.permission : Role → String
  | .none => "none"
  | .read => "read"
  | .triage => "read"
  | .write => "write"
  | .maintain => "write"
  | .admin => "admin"

/-- The permission asked for a collaborator. -/
inductive Access
  | pull
  | push
  deriving DecidableEq

def Access.role : Access → Role
  | .pull => .read
  | .push => .write

structure Invitation where
  id : Int
  invitee : Option Int
  permission : Role
  deriving DecidableEq

structure Collaborator where
  permission : Option String
  roleName : Option String

structure Account where
  id : Int
  login : String

structure Repository where
  id : Int
  name : String
  owner : Account
  isPrivate : Bool
  description : Option String
  defaultBranch : String

structure Organization where
  id : Option Int
  defaultRepositoryPermission : Option Json

end GitHub

namespace Courses

/-- The `state` of a student repository. -/
inductive RepositoryState
  | creating
  | invitationPending
  | ready
  deriving DecidableEq

/-- A student repository as `courses::repository` joins it. -/
structure Repository where
  organization : String
  name : String
  provisioningNonce : Uuid
  githubRepoId : Option Int
  state : RepositoryState
  invitationUrl : Option String
  closureDue : Bool
  lockedAt : Option Time
  githubId : Int
  definition : Revision
  deadline : Time

end Courses

/-! ### Calls -/

/-- A call of the GitHub API, of the database or of the clock, and what it
returns. -/
inductive Request : Type → Type
  | organization (org : String) : Request GitHub.Organization
  | repository (path : String) : Request (Option GitHub.Repository)
  | createRepository (org name description : String) : Request GitHub.Repository
  | teams (path : String) : Request (List Json)
  | setActions (path : String) (enabled : Bool) : Request Unit
  | setWorkflowPermissions (path : String) : Request Unit
  | snapshot (repository sha : String) : Request Snapshot
  | reference (path branch : String) : Request (Option String)
  | createBlob (path data : String) : Request String
  | createTree (path : String) (tree : List (String × String × String)) : Request String
  | createCommit (path message tree : String) (parents : List String) : Request String
  | updateReference (path branch sha : String) : Request Unit
  | createReference (path branch sha : String) : Request Unit
  | setDefaultBranch (path branch : String) : Request Unit
  | account (id : Int) : Request GitHub.Account
  | collaborator (path login : String) : Request (Option GitHub.Collaborator)
  | invitations (path : String) : Request (List GitHub.Invitation)
  | addCollaborator (path login : String) (permission : GitHub.Access) : Request Unit
  | updateInvitation (path : String) (id : Int) (permission : GitHub.Role) : Request Unit
  | now : Request Time
  | load : Request Courses.Repository
  | setRepositoryId (id : Int) : Request Unit
  | finishSeeding (task token : Uuid) : Request Nat
  | setInvitation (state : Courses.RepositoryState) (url : Option String) : Request Unit
  | setLocked : Request Unit
  | enqueueProvision : Request Unit
  | observed (sha permission : String) (review : Bool) : Request Unit

/-- A function of the client, or a control task. -/
abbrev Client (α : Type) := Program Request Error α

open Program

namespace GitHub

/-! ### The client -/

def repoPath (repository : String) : Except Error String := do
  check (githubRepository repository) "invalid repository name"
  return "/repos/" ++ repository

def account (id : Int) : Client Account := do
  lift (check (0 < id) "invalid account ID")
  request (.account id)

/-- `GET /repos/…` of a repository that must be there. -/
def getRepository (path : String) : Client Repository := do
  let found ← request (.repository path)
  lift (fetchOne (.message "GitHub API returned HTTP 404") found)

def branchSha (repository branch : String) : Client String := do
  lift (check (identifier branch) "invalid branch")
  let path ← lift (repoPath repository)
  let found ← request (.reference path branch)
  let sha ← lift (fetchOne (.message "GitHub API returned HTTP 404") found)
  lift (check (Text.validHex sha 40) "invalid branch SHA")
  return sha

def verifyRepository (fullName : String) (id : Int) : Client Repository := do
  let path ← lift (repoPath fullName)
  let repository ← getRepository path
  lift (check (repository.id = id && repository.isPrivate &&
    Text.eqIgnoreAsciiCase (repository.owner.login ++ "/" ++ repository.name) fullName)
    "repository identity or privacy changed")
  return repository

def verifyBasePermission (organization : Organization) : Except Error Unit :=
  match organization.defaultRepositoryPermission with
  | some (.str value) =>
    if value = "none".toList then .ok ()
    else if value = "read".toList ∨ value = "write".toList ∨ value = "admin".toList then
      .error (.message "organization base permission must be none")
    else .error (.message "organization base permission unrecognized")
  | none => .error (.message "organization base permission unavailable")
  | some .null => .error (.message "organization base permission unavailable")
  | some _ => .error (.message "organization base permission unrecognized")

def verifyNoTeams (repository : String) : Client Unit := do
  let path ← lift (repoPath repository)
  let teams ← request (.teams path)
  lift (check teams.isEmpty "repository inherits team access; instructor review required")

def ensurePrivateRepository (org name : String) (nonce : Uuid) : Client Repository := do
  lift (check (identifier org && githubRepository (org ++ "/" ++ name))
    "invalid repository allocation")
  let organization ← request (.organization org)
  lift (verifyBasePermission organization)
  let marker := "grading-provision:" ++ String.ofList nonce.text
  let found ← request (.repository ("/repos/" ++ org ++ "/" ++ name))
  let repository ← match found with
    | some repository => pure repository
    | none => request (.createRepository org name marker)
  lift (check (repository.isPrivate && repository.owner.id = organization.id.getD (-1) &&
    repository.description = some marker) "refusing to adopt unverified repository")
  verifyNoTeams (org ++ "/" ++ name)
  return repository

/-- The blobs of a snapshot, and their entries in a tree. -/
def createBlobs (path : String) : List (String × Blob) → Client (List (String × String × String))
  | [] => pure []
  | (name, blob) :: rest => do
    let sha ← request (.createBlob path blob.data)
    let tree ← createBlobs path rest
    return (name, blob.mode, sha) :: tree

def seed (repository branch : String) (source : Snapshot) : Client Unit := do
  lift source.validate
  let path ← lift (repoPath repository)
  request (.setActions path false)
  let info ← getRepository path
  let parent ← branchSha repository info.defaultBranch
  let tree ← createBlobs path source.files.entries
  let tree ← request (.createTree path tree)
  let commit ← request (.createCommit path ("Approved template " ++ source.sha) tree [parent])
  let found ← request (.reference path branch)
  if found.isSome then request (.updateReference path branch commit)
  else request (.createReference path branch commit)
  request (.setDefaultBranch path branch)
  let head ← branchSha repository branch
  let seeded ← request (.snapshot repository head)
  lift (check (seeded.files = source.files) "seeded files do not match pinned template")
  request (.setWorkflowPermissions path)

def disableActions (repository : String) : Client Unit := do
  let path ← lift (repoPath repository)
  request (.setActions path false)

/-- The page where a student accepts an invitation. -/
def invitationUrl (repository : String) : String :=
  "https://github.com/" ++ repository ++ "/invitations"

def invite (repository : String) (githubId : Int) : Client (Option String) := do
  disableActions repository
  let account ← account githubId
  let path ← lift (repoPath repository)
  let permission ← request (.collaborator path account.login)
  if permission.any fun p => p.permission = some "write" then return none
  else do
    let invitations ← request (.invitations path)
    lift (check (invitations.length < 100) "unexpected invitation count")
    if invitations.any fun invitation => invitation.invitee = some githubId then
      return some (invitationUrl repository)
    else do
      request (.addCollaborator path account.login .push)
      return some (invitationUrl repository)

def permission (repository : String) (githubId : Int) : Client String := do
  let account ← account githubId
  let path ← lift (repoPath repository)
  let permission ← request (.collaborator path account.login)
  return (permission.bind fun v => v.roleName.or v.permission).getD "none"

/-- The body of the loop over invitations in `lock`. -/
def restrict (path : String) (githubId : Int) (invitation : Invitation) : Client Unit :=
  if invitation.invitee = some githubId then
    request (.updateInvitation path invitation.id .read)
  else pure ()

def lock (repository : String) (githubId : Int) : Client Unit := do
  let path ← lift (repoPath repository)
  let account ← account githubId
  verifyNoTeams repository
  let invitations ← request (.invitations path)
  lift (check (invitations.length < 100) "unexpected invitation count")
  each (restrict path githubId) invitations
  let before ← permission repository githubId
  when (before ≠ "none") (request (.addCollaborator path account.login .pull))
  let permission ← permission repository githubId
  lift (check (permission = "read" || permission = "none")
    "effective write access remains; instructor review required")

end GitHub

/-! ### The world -/

/-- What GitHub keeps of the student in the repository. -/
structure Hub where
  login : String
  role : GitHub.Role
  invitations : List GitHub.Invitation

/-- One student repository, in the database and at GitHub. -/
structure World where
  row : Courses.Repository
  hub : Hub
  clock : Time

/-- Another permission for some of the invitations. -/
def Hub.update (hub : Hub) (p : GitHub.Invitation → Bool) (role : GitHub.Role) : Hub :=
  let change := fun i : GitHub.Invitation => { i with permission := role }
  { hub with invitations := updateWhere p change hub.invitations }

/-- What GitHub may report of a role. -/
def Hub.Reports (role : GitHub.Role) (a : Option GitHub.Collaborator) : Prop :=
  (role = .none ∧ a = none) ∨ a = some ⟨some role.permission, some role.name⟩

/-- A collaborator gets another permission, anyone else an invitation. -/
def Hub.Adds (hub : Hub) (student : Int) (role : GitHub.Role) (hub' : Hub) : Prop :=
  if hub.role ≠ .none then hub' = { hub with role := role }
  else
    (∃ id, hub' = { hub with invitations := hub.invitations ++ [⟨id, some student, role⟩] }) ∨
      hub' = hub.update (fun i => i.invitee = some student) role

/-- The answers a call may get, and the world after it. -/
def Serves : {β : Type} → Request β → World → β → World → Prop
  | _, .now, w, a, w' => a = w.clock ∧ w' = w
  | _, .load, w, a, w' => a = w.row ∧ w' = w
  | _, .setRepositoryId id, w, _, w' =>
    w' = { w with row := { w.row with githubRepoId := w.row.githubRepoId.or (some id) } }
  | _, .finishSeeding _ _, w, a, w' =>
    -- the lease of the task may be over
    (a = 0 ∧ w' = w) ∨ (a = 1 ∧ w.row.closureDue = false ∧
      w' = { w with row := { w.row with state := .invitationPending } })
  | _, .setInvitation state url, w, _, w' =>
    w' = if w.row.closureDue then w
      else { w with row := { w.row with state := state, invitationUrl := url } }
  | _, .setLocked, w, _, w' =>
    w' = { w with row := { w.row with lockedAt := w.row.lockedAt.or (some w.clock) } }
  | _, .observed _ permission review, w, _, w' =>
    w' = { w with row := { w.row with
      state := if w.row.state = .invitationPending ∧ permission = "write" then .ready
        else w.row.state
      invitationUrl := if permission = "write" then none else w.row.invitationUrl
      lockedAt := if review then none else w.row.lockedAt } }
  | _, .account id, w, a, w' => (id = w.row.githubId → a.login = w.hub.login) ∧ w' = w
  | _, .collaborator _ login, w, a, w' => (login = w.hub.login → Hub.Reports w.hub.role a) ∧ w' = w
  | _, .invitations _, w, a, w' => a = w.hub.invitations.take 100 ∧ w' = w
  | _, .addCollaborator _ login permission, w, _, w' =>
    ∃ hub', w' = { w with hub := hub' } ∧
      if login = w.hub.login then w.hub.Adds w.row.githubId permission.role hub' else hub' = w.hub
  | _, .updateInvitation _ id permission, w, _, w' =>
    (∃ i ∈ w.hub.invitations, i.id = id) ∧
      w' = { w with hub := w.hub.update (fun i => i.id = id) permission }
  | _, _, w, _, w' => w' = w

end Grading

import SrgGrading.Library.OrderedMap
import SrgGrading.Store.Submissions

/-!
# Publishing exercises and allocating repositories
-/

open Fallible Relational

namespace Grading

namespace Exercises

variable [Sha256]

/-- `exercises::insert`: store a revision under its digest. -/
def insert (s : Store) (assignment : Uuid) (revision : Revision) :
    Except Error (Store × String) := do
  revision.validate
  let hash := revision.digest
  let grader ← fetchOne (.message "missing grader") revision.grader
  let row : AssignmentRevision :=
    { digest := hash, assignmentId := assignment, configRevision := grader.revision,
      definition := revision, opensAt := timestamptz revision.assignment.opensAt.instant,
      deadline := timestamptz revision.assignment.deadline.instant,
      maxPoints := revision.assignment.maxPoints, graderSourceDigest := grader.sourceDigest }
  ensure (row.opensAt < row.deadline && 0 < row.maxPoints) .checkViolation
  if s.revisions.any fun v => v.digest = hash then return (s, hash)
  else do
    ensure (row.graderSourceDigest.all fun d => s.artifacts.any fun a => a.digest = d)
      .foreignKeyViolation
    return ({ s with revisions := s.revisions ++ [row] }, hash)

/-- The revision a repository is graded with after a rollout of `revision`: its
own manifest and dates, the new grading. -/
def combine (own revision : Revision) : Revision :=
  { own with
    grader := revision.grader
    assignment := { own.assignment with
      image := revision.assignment.image
      executionProfile := revision.assignment.executionProfile
      resources := revision.assignment.resources
      timeoutSeconds := revision.assignment.timeoutSeconds
      maxPoints := revision.assignment.maxPoints } }

/-- Roll `revision` out to repositories, each with its pinned definition. -/
def rollOut (assignment : Uuid) (revision : Revision) : Store → List (Uuid × Revision) →
    Except Error Store
  | s, [] => return s
  | s, (repository, definition) :: rest => do
    let own ← definition.decode
    let (s, hash) ← insert s assignment (combine own revision)
    let s := s.updateRepositories (fun r => r.id = repository) fun r =>
      { r with gradingRevision := hash }
    rollOut assignment revision s rest

/-- The repositories of an assignment with their pinned definitions. -/
def pinnedDefinitions (s : Store) (assignment : Uuid) : List (Uuid × Revision) :=
  (s.repositories.filter fun r => r.assignmentId = assignment).filterMap fun r =>
    (lookup AssignmentRevision.digest r.revisionDigest s.revisions).map fun v =>
      (r.id, v.definition)

structure Publication where
  revision : Revision
  expected : Option String
  existing : Bool
  dryRun : Bool
  operator : String
  reason : String

/-- The assignment of a publication, inserted if it is new. -/
def assignmentOf (s : Store) (id : Uuid) (revision : Revision) : Option AssignmentRow →
    Except Error (Store × Uuid)
  | some a => return (s, a.id)
  | none => do
    ensure (!s.assignments.any fun a => a.id = id) .uniqueViolation
    ensure (s.courses.any fun c => c.id = revision.courseId) .foreignKeyViolation
    return ({ s with assignments :=
      s.assignments ++ [⟨id, revision.courseId, revision.assignmentId, none, false⟩] }, id)

/-- The rollout of a publication to the repositories that already exist. -/
def rollOutExisting (s : Store) (id : Uuid) (p : Publication) : Except Error Store :=
  if p.existing then rollOut id p.revision s (pinnedDefinitions s id) else return s

def publishInTransaction (s : Store) (fresh : Nat → Uuid) (p : Publication) :
    Except Error Store := do
  p.revision.validate
  check (!Text.blank p.reason) "publication requires a reason"
  let previous := s.assignments.find? fun a =>
    a.courseId = p.revision.courseId && a.slug = p.revision.assignmentId
  check ((previous.bind AssignmentRow.currentRevision) = p.expected)
    "exercise changed while preparing; retry against the current revision"
  let (s, id) ← assignmentOf s (fresh 0) p.revision previous
  let (s, hash) ← insert s id p.revision
  let current := fun a : AssignmentRow => { a with currentRevision := some hash, archived := false }
  let s := { s with assignments := updateWhere (fun a => a.id = id) current s.assignments }
  let s ← rollOutExisting s id p
  let target := p.revision.courseId ++ "/" ++ p.revision.assignmentId
  return s.auditEvent p.operator "exercise.publish" target.toList
    (p.reason ++ "; revision=" ++ hash ++ "; existing=" ++ toString p.existing)

def publish (s : Store) (fresh : Nat → Uuid) (p : Publication) : Except Error Store := do
  let s' ← publishInTransaction s fresh p
  return if p.dryRun then s else s'

/-! ### Whole catalogs -/

structure CatalogEntry where
  slug : String
  currentRevision : Option String
  archived : Bool
  deriving DecidableEq

/-- The catalog of a course; the database orders slugs by its collation. -/
def catalog (s : Store) (collate : String → String → Bool) (course : String) :
    List CatalogEntry :=
  ((s.assignments.filter fun a => a.courseId = course).map fun a =>
    (⟨a.slug, a.currentRevision, a.archived⟩ : CatalogEntry)).mergeSort
      fun a b => collate a.slug b.slug

/-- The arguments of `apply_set`. -/
structure ApplySet where
  expected : OrderedMap String (List CatalogEntry)
  publications : List Publication
  operator : String
  reason : String
  dryRun : Bool

/-- The exercises to keep: each in the scope, and none twice. -/
def desired (expected : OrderedMap String (List CatalogEntry)) :
    List (String × String) → List Publication → Except Error (List (String × String))
  | set, [] => return set
  | set, p :: rest => do
    let key := (p.revision.courseId, p.revision.assignmentId)
    check (expected.contains key.1 && !set.contains key)
      "duplicate exercise or course outside apply scope"
    desired expected (key :: set) rest

/-- The catalogs are still those of the preview. -/
def confirmPreview (s : Store) (collate : String → String → Bool) :
    List (String × List CatalogEntry) → Except Error Unit
  | [] => return ()
  | (course, before) :: rest => do
    check (s.courses.any fun c => c.id = course) ("course " ++ course ++ " does not exist")
    check (catalog s collate course = before)
      ("course " ++ course ++ " changed after preview; rerun and confirm the new plan")
    confirmPreview s collate rest

/-- The publications in turn; each may draw one identifier. -/
def publishAll : Store → (Nat → Uuid) → List Publication → Except Error Store
  | s, _, [] => return s
  | s, fresh, p :: rest => do
    let s ← publishInTransaction s fresh p
    publishAll s (fun k => fresh (k + 1)) rest

/-- Take an exercise out of the catalog. -/
def archive (operator reason : String) (s : Store) (key : String × String) : Store :=
  let entry := fun a : AssignmentRow => a.courseId = key.1 && a.slug = key.2
  let archived := fun a : AssignmentRow => { a with archived := true }
  let s := { s with assignments := updateWhere entry archived s.assignments }
  s.auditEvent operator "exercise.archive" (key.1 ++ "/" ++ key.2).toList reason

/-- The exercises of the preview that are not to be kept. -/
def leftOut (keep : List (String × String)) (expected : List (String × List CatalogEntry)) :
    List (String × String) :=
  expected.flatMap fun e =>
    (e.2.filter fun entry => !entry.archived && !keep.contains (e.1, entry.slug)).map fun entry =>
      (e.1, entry.slug)

def applySet (s : Store) (fresh : Nat → Uuid) (collate : String → String → Bool)
    (set : ApplySet) : Except Error Store := do
  check (!Text.blank set.reason) "apply requires a reason"
  let keep ← desired set.expected [] set.publications
  confirmPreview s collate set.expected.entries
  let s' ← publishAll s fresh set.publications
  let s' := (leftOut keep set.expected.entries).foldl (archive set.operator set.reason) s'
  return if set.dryRun then s else s'

end Exercises

namespace Courses

/-- A name component with every other character replaced. -/
def sanitize (value : List Char) : List Char :=
  let value := value.map fun c =>
    if Text.isAsciiAlphanumeric c || c = '-' || c = '_' || c = '.' then c else '-'
  if value = [] then "student".toList else value

/-- Drop characters from the longer component until both fit; `fuel` bounds the
number of turns. -/
def shorten : Nat → List Char → List Char → List Char × List Char
  | 0, template, student => (template, student)
  | fuel + 1, template, student =>
    if 62 < template.length + student.length then
      if student.length < template.length then shorten fuel template.dropLast student
      else shorten fuel template student.dropLast
    else (template, student)

def repositoryName (template studentId : String) (id : Uuid) : String :=
  let template := sanitize (template.toList.splitOn '/').getLast!
  let student := sanitize studentId.toList
  let (template, student) := shorten (template.length + student.length) template student
  String.ofList (template ++ '-' :: (student ++ '-' :: id.text))

/-- Allocate the repository of a student for an assignment, once. -/
def requestRepository (s : Store) (now : Time) (fresh : Nat → Uuid) (githubId : Int)
    (assignment : Uuid) : Except Error (Store × Uuid) := do
  let a ← fetchOne .rowNotFound (lookup AssignmentRow.id assignment s.assignments)
  ensure (!a.archived) .rowNotFound
  let e ← fetchOne .rowNotFound
    (s.enrollments.find? fun e => e.courseId = a.courseId && e.githubId = githubId)
  let current ← fetchOne .rowNotFound a.currentRevision
  let v ← s.fetchRevision current
  match s.repositories.find? fun r => r.enrollmentId = e.id && r.assignmentId = assignment with
  | some r => return (s, r.id)
  | none => do
    check (v.opensAt ≤ now && now ≤ v.deadline) "assignment is not open"
    let id := fresh 0
    let name := repositoryName v.definition.assignment.template e.studentId id
    ensure (!s.repositories.any fun r => r.id = id || r.name = name) .uniqueViolation
    let r : StudentRepository :=
      { id, enrollmentId := e.id, assignmentId := assignment, revisionDigest := v.digest,
        gradingRevision := v.digest, name, closureDue := false, finalSubmissionId := none,
        needsReview := false }
    let s ← Queue.enqueue { s with repositories := s.repositories ++ [r] } now (fresh 1)
      .provision id 10
    return (s, id)

end Courses

end Grading

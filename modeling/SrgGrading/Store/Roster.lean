import SrgGrading.Library.Transition
import SrgGrading.Store.Schema

/-!
# Roster imports

`import_roster` binds student ids of a course to GitHub accounts.  Each row is
checked against the bindings in both directions before it is written, in one
transaction that a dry run rolls back.

* `importRow_spec`: a row adds the one binding it names, and no other.
* `Registry.bindings_permanent`: over any series of imports the bindings of a
  course stay one-to-one, none is lost or changed, and an import that fails or
  is a dry run leaves everything as it was.
-/

open Fallible Relational

namespace Grading

structure User where
  githubId : Int
  login : String
  deriving DecidableEq

structure RosterRow where
  studentId : String
  name : String
  githubUsername : String

structure ResolvedStudent where
  row : RosterRow
  githubId : Int
  login : String

/-- The database with its table `users`. -/
structure Registry where
  users : List User
  store : Store

namespace Courses

/-- The checks of `import_roster` on the rows alone: no GitHub account and no
student id occurs twice. -/
def validateRows : List ResolvedStudent → List Int → List String → Except Error Unit
  | [], _, _ => return
  | r :: rest, ids, students => do
    check (0 < r.githubId && !ids.contains r.githubId && !students.contains r.row.studentId)
      "duplicate enrollment"
    check (r.row.studentId ≠ "" && r.row.name ≠ "" && Text.len r.row.studentId ≤ 128 &&
      Text.len r.row.name ≤ 200) "invalid roster fields"
    validateRows rest (r.githubId :: ids) (r.row.studentId :: students)

/-- A text column holds no U+0000. -/
def textColumn (s : String) : Except Error Unit := ensure (!Text.contains s '\x00') .outOfRange

/-- `INSERT INTO users … ON CONFLICT(github_id) DO UPDATE SET login`. -/
def upsertUser (users : List User) (githubId : Int) (login : String) :
    Except Error (List User) := do
  textColumn login
  if users.any fun u => u.githubId = githubId then
    return updateWhere (fun u => u.githubId = githubId) (fun u => { u with login }) users
  else return users ++ [⟨githubId, login⟩]

/-- `INSERT INTO enrollments … ON CONFLICT(course_id,github_id) DO UPDATE SET name`. -/
def upsertEnrollment (enrollments : List Enrollment) (e : Enrollment) :
    Except Error (List Enrollment) := do
  textColumn e.name
  let same := fun x : Enrollment => x.courseId = e.courseId && x.githubId = e.githubId
  if enrollments.any same then
    return updateWhere same (fun x => { x with name := e.name }) enrollments
  else do
    ensure (!enrollments.any fun x => x.id = e.id ||
      (x.courseId = e.courseId && x.studentId = e.studentId)) .uniqueViolation
    return enrollments ++ [e]

/-- One turn of the second loop of `import_roster`. -/
def importRow (reg : Registry) (fresh : Uuid) (course : String) (r : ResolvedStudent) :
    Except Error Registry := do
  let users ← upsertUser reg.users r.githubId r.login
  let enrollments := reg.store.enrollments
  textColumn r.row.studentId
  let existing := (enrollments.find? fun e => e.courseId = course &&
    e.studentId = r.row.studentId).map Enrollment.githubId
  check (existing.all fun id => id = r.githubId)
    "student ID already belongs to a different GitHub account"
  let existingStudent := (enrollments.find? fun e => e.courseId = course &&
    e.githubId = r.githubId).map Enrollment.studentId
  check (existingStudent.all fun id => id = r.row.studentId)
    "GitHub account is already enrolled under another student ID"
  let enrollments ← upsertEnrollment enrollments
    ⟨fresh, course, r.githubId, r.row.studentId, r.row.name⟩
  return ⟨users, { reg.store with enrollments }⟩

/-- The second loop; the `i`-th row draws the UUID `fresh i`. -/
def importRows (course : String) :
    Registry → (Nat → Uuid) → List ResolvedStudent → Except Error Registry
  | reg, _, [] => return reg
  | reg, fresh, r :: rest => do
    let reg ← importRow reg (fresh 0) course r
    importRows course reg (fun i => fresh (i + 1)) rest

/-- The transaction of `import_roster`, before it is committed or rolled back. -/
def rosterTransaction (reg : Registry) (fresh : Nat → Uuid) (course : String)
    (rows : List ResolvedStudent) (operator : String) : Except Error Registry := do
  validateRows rows [] []
  let _ ← fetchOne .rowNotFound (lookup Course.id course reg.store.courses)
  let reg ← importRows course reg fresh rows
  textColumn operator
  let reason := toString rows.length ++ " records; absent rows retained"
  return ⟨reg.users, reg.store.auditEvent operator "roster.import" course.toList reason⟩

/-- `import_roster`: the database after it, and whether it succeeded. -/
def importRoster (reg : Registry) (fresh : Nat → Uuid) (course : String)
    (rows : List ResolvedStudent) (dryRun : Bool) (operator : String) :
    Registry × Except Error Unit :=
  match rosterTransaction reg fresh course rows operator with
  | .error e => (reg, .error e)
  | .ok done => (if dryRun then reg else done, .ok ())

end Courses

/-! ### Bindings -/

/-- The course knows the student id as the GitHub account. -/
def Bound (enrollments : List Enrollment) (course student : String) (github : Int) : Prop :=
  ∃ e ∈ enrollments, e.courseId = course ∧ e.studentId = student ∧ e.githubId = github

def Registry.Binds (reg : Registry) : String → String → Int → Prop := Bound reg.store.enrollments

/-- In each course a student id has one account, and an account one student id. -/
def Registry.OneToOne (reg : Registry) : Prop :=
  ∀ course student github student' github', reg.Binds course student github →
    reg.Binds course student' github' → (student = student' ↔ github = github')

namespace Courses

/-- What an upsert does to the bindings: an enrolled account keeps its own, and
any other gets the one it comes with, where the student id is free too. -/
theorem upsertEnrollment_spec {enrollments enrollments' : List Enrollment} {e : Enrollment}
    (h : upsertEnrollment enrollments e = .ok enrollments') :
    ((∃ x ∈ enrollments, x.courseId = e.courseId ∧ x.githubId = e.githubId) ∧
      Bound enrollments' = Bound enrollments) ∨
    ((∀ x ∈ enrollments, x.courseId = e.courseId → x.githubId ≠ e.githubId) ∧
      enrollments' = enrollments ++ [e]) := by
  simp only [upsertEnrollment, bind_ok] at h
  obtain ⟨_, _, h⟩ := h
  split at h
  · rename_i hany
    rw [pure_ok] at h
    subst h
    obtain ⟨x, hx, hsame⟩ := List.any_eq_true.mp hany
    rw [Bool.and_eq_true, decide_eq_true_eq, decide_eq_true_eq] at hsame
    refine Or.inl ⟨⟨x, hx, hsame⟩, ?_⟩
    funext course student github
    rw [Bound, Bound, eq_iff_iff]
    constructor
    · rintro ⟨y, hy, hb⟩
      obtain ⟨y', hy', rfl⟩ := mem_updateWhere.mp hy
      refine ⟨y', hy', ?_⟩
      split at hb <;> exact hb
    · rintro ⟨y, hy, hb⟩
      refine ⟨_, mem_updateWhere.mpr ⟨y, hy, rfl⟩, ?_⟩
      split <;> exact hb
  · rename_i hnone
    simp only [bind_ok, pure_ok] at h
    obtain ⟨_, _, rfl⟩ := h
    refine Or.inr ⟨fun x hx hcourse hgithub => hnone ?_, rfl⟩
    exact List.any_eq_true.mpr ⟨x, hx, by simp [hcourse, hgithub]⟩

/-- What the first row a query finds says of all the rows it could have found. -/
theorem all_of_find {enrollments : List Enrollment} {p : Enrollment → Bool} {α : Type}
    [DecidableEq α] {f : Enrollment → α} {a : α}
    (hunique : ∀ x ∈ enrollments, ∀ y ∈ enrollments, p x = true → p y = true → f x = f y)
    (h : ((enrollments.find? p).map f).all (fun b => b = a) = true) :
    ∀ e ∈ enrollments, p e = true → f e = a := by
  intro e he hp
  cases hfind : enrollments.find? p with
  | none =>
    rw [List.find?_eq_none] at hfind
    exact absurd hp (hfind e he)
  | some x =>
    rw [hfind, Option.map_some, Option.all_some, decide_eq_true_eq] at h
    rw [hunique e he x (List.mem_of_find?_eq_some hfind) hp (List.find?_some hfind), h]

variable {reg reg' : Registry} {fresh : Uuid} {course : String} {r : ResolvedStudent}

/-- **What a row does**: its own binding holds afterwards, every other one
exactly if it did before, and neither the student id nor the account was bound
otherwise. -/
theorem importRow_spec (hone : reg.OneToOne) (h : importRow reg fresh course r = .ok reg') :
    (∀ c student github, reg'.Binds c student github ↔ reg.Binds c student github ∨
      (c = course ∧ student = r.row.studentId ∧ github = r.githubId)) ∧
    (∀ student github, reg.Binds course student github →
      (student = r.row.studentId ↔ github = r.githubId)) := by
  simp only [importRow, bind_ok, check_ok, pure_ok] at h
  obtain ⟨users, _, _, _, _, hexisting, _, hexistingStudent, enrollments, hupsert, rfl⟩ := h
  have hpair : ∀ x ∈ reg.store.enrollments, ∀ y ∈ reg.store.enrollments, x.courseId = course →
      y.courseId = course → (x.studentId = y.studentId ↔ x.githubId = y.githubId) :=
    fun x hx y hy hcx hcy => hone course _ _ _ _ ⟨x, hx, hcx, rfl, rfl⟩ ⟨y, hy, hcy, rfl, rfl⟩
  have hstudent := all_of_find (fun x hx y hy hpx hpy => by
    rw [Bool.and_eq_true, decide_eq_true_eq, decide_eq_true_eq] at hpx hpy
    exact (hpair x hx y hy hpx.1 hpy.1).mp (hpx.2.trans hpy.2.symm)) hexisting
  have hgithub := all_of_find (fun x hx y hy hpx hpy => by
    rw [Bool.and_eq_true, decide_eq_true_eq, decide_eq_true_eq] at hpx hpy
    exact (hpair x hx y hy hpx.1 hpy.1).mpr (hpx.2.trans hpy.2.symm)) hexistingStudent
  refine ⟨fun c student github => ?_, ?_⟩
  · rcases upsertEnrollment_spec hupsert with ⟨⟨x, hx, hcourse, hid⟩, hsame⟩ | ⟨_, rfl⟩
    · have hbound : reg.Binds course r.row.studentId r.githubId :=
        ⟨x, hx, hcourse, hgithub x hx (by simp [hcourse, hid]), hid⟩
      show Bound enrollments c student github ↔ _
      rw [hsame]
      constructor
      · exact Or.inl
      · rintro (hb | ⟨rfl, rfl, rfl⟩)
        · exact hb
        · exact hbound
    · constructor
      · rintro ⟨e, he, hc, hs, hg⟩
        rcases List.mem_append.mp he with he | he
        · exact Or.inl ⟨e, he, hc, hs, hg⟩
        · rw [List.mem_singleton] at he
          subst he
          exact Or.inr ⟨hc.symm, hs.symm, hg.symm⟩
      · rintro (⟨e, he, hb⟩ | ⟨rfl, rfl, rfl⟩)
        · exact ⟨e, List.mem_append_left _ he, hb⟩
        · exact ⟨_, List.mem_append_right _ List.mem_cons_self, rfl, rfl, rfl⟩
  · rintro student github ⟨e, he, hc, rfl, rfl⟩
    exact ⟨fun hs => hstudent e he (by simp [hc, hs]), fun hg => hgithub e he (by simp [hc, hg])⟩

/-- A row keeps the bindings one-to-one. -/
theorem importRow_oneToOne (hone : reg.OneToOne) (h : importRow reg fresh course r = .ok reg') :
    reg'.OneToOne := by
  obtain ⟨hbinds, hfree⟩ := importRow_spec hone h
  intro c student github student' github' hb hb'
  rcases (hbinds _ _ _).mp hb with hb | ⟨rfl, rfl, rfl⟩
  · rcases (hbinds _ _ _).mp hb' with hb' | ⟨rfl, rfl, rfl⟩
    · exact hone c student github student' github' hb hb'
    · exact hfree student github hb
  · rcases (hbinds _ _ _).mp hb' with hb' | ⟨_, rfl, rfl⟩
    · have hback := hfree student' github' hb'
      exact ⟨fun h => (hback.mp h.symm).symm, fun h => (hback.mpr h.symm).symm⟩
    · exact ⟨fun _ => rfl, fun _ => rfl⟩

/-- The rows of an import, one after the other. -/
theorem importRows_spec : ∀ {rows : List ResolvedStudent} {reg reg' : Registry}
    {fresh : Nat → Uuid}, reg.OneToOne → importRows course reg fresh rows = .ok reg' →
    reg'.OneToOne ∧ (∀ c student github, reg.Binds c student github →
      reg'.Binds c student github) ∧
    ∀ r ∈ rows, reg'.Binds course r.row.studentId r.githubId := by
  intro rows
  induction rows with
  | nil =>
    intro reg reg' fresh hone h
    rw [importRows, pure_ok] at h
    subst h
    exact ⟨hone, fun _ _ _ hb => hb, fun r hr => by cases hr⟩
  | cons r rest ih =>
    intro reg reg' fresh hone h
    simp only [importRows, bind_ok] at h
    obtain ⟨mid, hrow, hrest⟩ := h
    have hbinds := (importRow_spec hone hrow).1
    obtain ⟨hone', hkeep, hall⟩ := ih (importRow_oneToOne hone hrow) hrest
    refine ⟨hone', fun c student github hb => hkeep _ _ _ ((hbinds _ _ _).mpr (Or.inl hb)), ?_⟩
    intro x hx
    rcases List.mem_cons.mp hx with rfl | hx
    · exact hkeep _ _ _ ((hbinds _ _ _).mpr (Or.inr ⟨rfl, rfl, rfl⟩))
    · exact hall x hx

theorem rosterTransaction_spec {fresh : Nat → Uuid} {rows : List ResolvedStudent}
    {operator : String} (hone : reg.OneToOne)
    (h : rosterTransaction reg fresh course rows operator = .ok reg') :
    reg'.OneToOne ∧ (∀ c student github, reg.Binds c student github →
      reg'.Binds c student github) ∧
    ∀ r ∈ rows, reg'.Binds course r.row.studentId r.githubId := by
  simp only [rosterTransaction, bind_ok, pure_ok] at h
  obtain ⟨_, _, _, _, done, hrows, _, _, rfl⟩ := h
  have hdone := importRows_spec hone hrows
  exact hdone

end Courses

/-! ### Series of imports -/

/-- A call of `import_roster`. -/
structure RosterCall where
  fresh : Nat → Uuid
  course : String
  rows : List ResolvedStudent
  dryRun : Bool
  operator : String

namespace Registry

variable {reg reg' : Registry}

/-- The result of a call. -/
def outcome (reg : Registry) (call : RosterCall) : Registry × Except Error Unit :=
  Courses.importRoster reg call.fresh call.course call.rows call.dryRun call.operator

def Step (reg : Registry) (call : RosterCall) (reg' : Registry) : Prop :=
  (reg.outcome call).1 = reg'

/-- Nobody is enrolled yet. -/
def Initial (reg : Registry) : Prop := reg.store.enrollments = []

def Reachable : Registry → Prop := Transition.Reachable Step Initial

/-- An import that fails, or is a dry run, changes nothing. -/
theorem outcome_unchanged {call : RosterCall}
    (h : call.dryRun = true ∨ ∃ e, (reg.outcome call).2 = .error e) :
    (reg.outcome call).1 = reg := by
  rw [outcome, Courses.importRoster] at h ⊢
  cases ht : Courses.rosterTransaction reg call.fresh call.course call.rows call.operator with
  | error e => rfl
  | ok done =>
    rw [ht] at h
    rcases h with hdry | ⟨e, he⟩
    · exact if_pos hdry
    · cases he

/-- What one call does to the bindings. -/
theorem Step.spec {call : RosterCall} (hone : reg.OneToOne) (h : Step reg call reg') :
    reg'.OneToOne ∧ ∀ c student github, reg.Binds c student github →
      reg'.Binds c student github := by
  rw [Step, outcome, Courses.importRoster] at h
  cases ht : Courses.rosterTransaction reg call.fresh call.course call.rows call.operator with
  | error e =>
    rw [ht] at h
    subst h
    exact ⟨hone, fun _ _ _ hb => hb⟩
  | ok done =>
    rw [ht] at h
    subst h
    obtain ⟨hone', hkeep, _⟩ := Courses.rosterTransaction_spec hone ht
    cases call.dryRun with
    | true => exact ⟨hone, fun _ _ _ hb => hb⟩
    | false => exact ⟨hone', hkeep⟩

theorem Initial.oneToOne (h : reg.Initial) : reg.OneToOne := by
  rintro course student github student' github' ⟨e, he, _⟩
  rw [Initial] at h
  rw [h] at he
  cases he

theorem Reachable.oneToOne (h : reg.Reachable) : reg.OneToOne := by
  obtain ⟨start, calls, hstart, hrun⟩ := h
  exact hrun.invariant (fun _ _ _ hone hstep => (hstep.spec hone).1) hstart.oneToOne

/-- Every binding of a run's first state is one of its last. -/
theorem run_keeps {calls : List (Registry × RosterCall)} (hone : reg.OneToOne)
    (hrun : Transition.Run Step reg calls reg') {course student : String} {github : Int}
    (hb : reg.Binds course student github) : reg'.Binds course student github := by
  have hkeep := hrun.invariant (I := fun s => s.OneToOne ∧ s.Binds course student github)
    (fun s call t hs hstep => ⟨(hstep.spec hs.1).1, (hstep.spec hs.1).2 _ _ _ hs.2⟩) ⟨hone, hb⟩
  exact hkeep.2

/-- **Roster bindings are permanent and one-to-one.**  In every reachable state
each course's bindings are one-to-one; whatever imports follow, a binding stays
and remains the only one of its student id and of its account; and an import
that fails or is a dry run leaves users, enrollments and audit events as they
were. -/
theorem bindings_permanent (h : reg.Reachable) :
    reg.OneToOne ∧
    (∀ calls reg', Transition.Run Step reg calls reg' → ∀ course student github,
      reg.Binds course student github → reg'.Binds course student github ∧
        (∀ github', reg'.Binds course student github' → github' = github) ∧
        ∀ student', reg'.Binds course student' github → student' = student) ∧
    ∀ call : RosterCall, (call.dryRun = true ∨ ∃ e, (reg.outcome call).2 = .error e) →
      (reg.outcome call).1.users = reg.users ∧
      (reg.outcome call).1.store.enrollments = reg.store.enrollments ∧
      (reg.outcome call).1.store.audit = reg.store.audit := by
  refine ⟨h.oneToOne, fun calls reg' hrun course student github hb => ?_, fun call hcall => ?_⟩
  · have hone' : reg'.OneToOne :=
      hrun.invariant (fun _ _ _ hone hstep => (hstep.spec hone).1) h.oneToOne
    have hb' := run_keeps h.oneToOne hrun hb
    exact ⟨hb', fun github' hg => (hone' _ _ _ _ _ hg hb').mp rfl,
      fun student' hs => (hone' _ _ _ _ _ hs hb').mpr rfl⟩
  · rw [outcome_unchanged hcall]
    exact ⟨rfl, rfl, rfl⟩

end Registry

/-! ### A swap across two imports -/

namespace Sample

/-- A course without students. -/
def registry : Registry where
  users := []
  store :=
    { courses := [⟨"prog", "Programming", "org", "UTC"⟩], enrollments := [], assignments := []
      revisions := [], repositories := [], extensions := [], events := [], artifacts := []
      submissions := [], runs := [], findings := [], overrides := [], tasks := [], outbox := []
      audit := [] }

/-- An import of two students. -/
def roster (first second : Int) : RosterCall where
  fresh := fun i => Fin.ofNat _ i
  course := "prog"
  rows := [⟨⟨"a", "A", "a"⟩, first, "a"⟩, ⟨⟨"b", "B", "b"⟩, second, "b"⟩]
  dryRun := false
  operator := "operator"

def imported : Registry := (registry.outcome (roster 1 2)).1

/-- Importing the two students with their accounts exchanged is refused. -/
theorem bindings_permanent_swap : imported.OneToOne ∧
    (imported.outcome (roster 2 1)).1.store.enrollments = imported.store.enrollments := by
  have hreach : imported.Reachable :=
    ⟨registry, _, rfl, .single (l := roster 1 2) rfl⟩
  obtain ⟨hone, _, hfail⟩ := Registry.bindings_permanent hreach
  have hrefused : (imported.outcome (roster 2 1)).2 = .error (.message
      "student ID already belongs to a different GitHub account") := by
    decide +kernel
  exact ⟨hone, (hfail (roster 2 1) (Or.inr ⟨_, hrefused⟩)).2.1⟩

end Sample

end Grading

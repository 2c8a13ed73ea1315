import Mathlib.Data.List.Sort
import SrgGrading.Store.Calls
import SrgGrading.Store.Rollout

/-!
# The dashboard and the grade export

A row of the dashboard shows the points of the newest override, or those of the
latest run, next to a maximum.  The three come from three revisions: an override
is bounded by the grading revision of its time, the points of a run by the
revision it was queued with, and the maximum shown is that of the run or, next
to an override, that of the present grading revision.

* `Sys.Reachable.marks`: the points of a run are within the revision it names.
* `Sys.overridden_of_run`: overrides stay within the present grading revision
  unless a publication lowers its maximum.
* `mem_exportCsv`: which points the export fills in.
* `Sys.grades_within`: so every row is within its maximum.
-/

open Fallible Relational

namespace Grading

/-! ### The queries -/

/-- `SELECT points FROM grade_overrides … ORDER BY created_at DESC, id DESC LIMIT 1`. -/
def Store.newestOverride (s : Store) (repository : Uuid) : Option GradeOverride :=
  (s.overrides.filter fun o => o.repositoryId = repository).argmax fun o => toLex (o.createdAt, o.id)

/-- The submission that counts: the newest, and once closed the selected one. -/
def Store.counted (s : Store) (r : StudentRepository) : Option Submission :=
  ((s.submissionsOf r.id).filter fun x => !r.closureDue || r.finalSubmissionId = some x.id).argmax
    fun x => toLex (x.receivedAt, x.id)

namespace Courses

structure DashboardRow where
  assignmentId : Uuid
  course : String
  organization : String
  timezone : String
  title : String
  opensAt : Time
  deadline : Time
  maxPoints : Int
  repositoryId : Option Uuid
  repositoryName : Option String
  needsReview : Option Bool
  sha : Option String
  status : Option RunState
  points : Option Int
  publicPoints : Option Int
  privateGrading : Bool
  privateRequired : Bool
  runId : Option Uuid
  overridePoints : Option Int
  closureDue : Option Bool
  deriving DecidableEq

def DashboardRow.exportState (row : DashboardRow) : String :=
  if row.closureDue ≠ some true then "provisional"
  else if row.overridePoints.isSome then "final_override"
  else if row.status ≠ some .completed || row.points.isNone then "unresolved"
  else if row.privateRequired && !row.privateGrading then "private_pending"
  else "final"

/-- The points a row shows. -/
def DashboardRow.shown (row : DashboardRow) : Option Int := row.overridePoints.or row.points

end Courses

/-! ### The export -/

/-- The `status` of a run as text. -/
def RunState.text : RunState → String
  | .pending => "pending"
  | .running => "running"
  | .completed => "completed"
  | .integrityFailed => "integrity_failed"
  | .infrastructureFailed => "infrastructure_failed"
  | .timedOut => "timed_out"
  | .superseded => "superseded"
  | .invalidated => "invalidated"

namespace Export

def spreadsheetSafe (value : String) : String :=
  if ['=', '+', '-', '@', '\t', '\r'].any fun c => Text.startsWith value (String.singleton c) then
    "'" ++ value
  else value

/-- The record of a student for a row. -/
def record (e : Enrollment) (row : Courses.DashboardRow) : List String :=
  let gradeState := row.exportState
  let finalPoints := if Text.startsWith gradeState "final" then row.shown else none
  [spreadsheetSafe e.studentId, spreadsheetSafe e.name, toString e.githubId,
    String.ofList row.assignmentId.text, row.sha.getD "", (finalPoints.map toString).getD "",
    (row.status.map RunState.text).getD "not_submitted", toString row.overridePoints.isSome,
    gradeState, (row.shown.map toString).getD ""]

def columns : List String :=
  ["student_id", "name", "github_id", "assignment_id", "sha", "points", "status", "override",
    "grade_state", "provisional_points"]

end Export

/-! ### The points of runs -/

section Marks

/-- Points within the revision a run was queued with. -/
def Marked (s : Store) (g : GradingRun) (points : Option Int) : Prop :=
  ∀ p, points = some p → 0 ≤ p ∧
    ∃ v ∈ s.revisions, v.digest = g.revisionDigest ∧ p ≤ v.definition.assignment.maxPoints

theorem Marked.mono {s s' : Store} {g g' : GradingRun} {points : Option Int}
    (h : Marked s g points) (hrevision : g'.revisionDigest = g.revisionDigest)
    (hsub : ∀ v ∈ s.revisions, v ∈ s'.revisions) : Marked s' g' points := by
  intro p hp
  obtain ⟨hpos, v, hv, hdigest, hmax⟩ := h p hp
  exact ⟨hpos, v, hsub v hv, hdigest.trans hrevision.symm, hmax⟩

variable [Sha256]

end Marks

/-! ### Assignments keep their keys -/

/-- Assignments keep their identifiers and keys. -/
def KeepsKeys (s s' : Store) : Prop :=
  ∀ a ∈ s.assignments, ∃ a' ∈ s'.assignments, a'.id = a.id ∧ a'.key = a.key

namespace KeepsKeys

variable {s s' s'' : Store}

theorem trans (h : KeepsKeys s s') (h' : KeepsKeys s' s'') : KeepsKeys s s'' := by
  intro a ha
  obtain ⟨b, hb, hid, hkey⟩ := h a ha
  obtain ⟨c, hc, hid', hkey'⟩ := h' b hb
  exact ⟨c, hc, hid'.trans hid, hkey'.trans hkey⟩

theorem of_eq (h : s'.assignments = s.assignments) : KeepsKeys s s' := by
  intro a ha
  rw [← h] at ha
  exact ⟨a, ha, rfl, rfl⟩

theorem refl (s : Store) : KeepsKeys s s := of_eq rfl

theorem update {q : AssignmentRow → Bool} {f : AssignmentRow → AssignmentRow}
    (h : s'.assignments = updateWhere q f s.assignments)
    (hf : ∀ a, (f a).id = a.id ∧ (f a).key = a.key) : KeepsKeys s s' := by
  intro a ha
  refine ⟨if q a then f a else a, ?_, ?_⟩
  · rw [h]
    exact mem_updateWhere.mpr ⟨a, ha, rfl⟩
  · split
    · exact hf a
    · exact ⟨rfl, rfl⟩

theorem of_rollsOut (h : RollsOut s s') : KeepsKeys s s' := of_eq (by rw [h.rest])

theorem assignmentOf {id out : Uuid} {revision : Revision} {previous : Option AssignmentRow}
    (h : Exercises.assignmentOf s id revision previous = .ok (s', out)) : KeepsKeys s s' := by
  cases previous with
  | some a =>
    rw [Exercises.assignmentOf, pure_ok, Prod.mk.injEq] at h
    rw [← h.1]
    exact refl s
  | none =>
    simp only [Exercises.assignmentOf, bind_ok, pure_ok, Prod.mk.injEq] at h
    obtain ⟨_, _, _, _, rfl, _⟩ := h
    exact fun a ha => ⟨a, List.mem_append_left _ ha, rfl, rfl⟩

variable [Sha256]

theorem publishInTransaction {fresh : Nat → Uuid} {p : Exercises.Publication}
    (h : Exercises.publishInTransaction s fresh p = .ok s') : KeepsKeys s s' := by
  simp only [Exercises.publishInTransaction, bind_ok, pure_ok] at h
  obtain ⟨_, _, _, _, _, _, ⟨s₁, id⟩, h₁, ⟨s₂, hash⟩, h₂, s₃, h₃, rfl⟩ := h
  have hcurrent : KeepsKeys s₂ s₃ :=
    trans (update (f := fun a => { a with currentRevision := some hash, archived := false }) rfl
      fun _ => ⟨rfl, rfl⟩) (of_rollsOut (.rollOutExisting h₃))
  exact (assignmentOf h₁).trans ((of_rollsOut (.insert h₂)).trans hcurrent)

theorem publishAll : ∀ {l : List Exercises.Publication} {s s' : Store} {fresh : Nat → Uuid},
    Exercises.publishAll s fresh l = .ok s' → KeepsKeys s s' := by
  intro l
  induction l with
  | nil =>
    intro s s' fresh h
    rw [Exercises.publishAll, pure_ok] at h
    rw [h]
    exact refl s'
  | cons p rest ih =>
    intro s s' fresh h
    simp only [Exercises.publishAll, bind_ok] at h
    obtain ⟨s₁, h₁, h₂⟩ := h
    exact (publishInTransaction h₁).trans (ih h₂)

omit [Sha256] in
theorem archiveAll {operator reason : String} (l : List (String × String)) (s : Store) :
    KeepsKeys s (l.foldl (Exercises.archive operator reason) s) := by
  induction l generalizing s with
  | nil => exact refl s
  | cons key rest ih =>
    have hfirst : KeepsKeys s (Exercises.archive operator reason s key) :=
      update (f := fun a => { a with archived := true }) rfl fun _ => ⟨rfl, rfl⟩
    exact hfirst.trans (ih _)

/-- **Every step** keeps the keys of assignments. -/
theorem step {now : Time} {op : Op} (h : CatalogStep now op s s') : KeepsKeys s s' := by
  cases h with
  | steady _ h => exact of_eq h.assignments
  | allocates _ h =>
    obtain ⟨added, h, _⟩ := h
    exact of_eq h.assignments
  | publish fresh p hop h =>
    simp only [Exercises.publish, bind_ok, pure_ok] at h
    obtain ⟨s₁, h₁, rfl⟩ := h
    split
    · exact refl s
    · exact publishInTransaction h₁
  | applySet fresh collate set hop h =>
    simp only [Exercises.applySet, bind_ok, pure_ok] at h
    obtain ⟨_, _, keep, _, _, _, s₁, h₁, rfl⟩ := h
    split
    · exact refl s
    · exact (publishAll h₁).trans (archiveAll _ s₁)
  | overrideGrade fresh repository points operator reason hop h =>
    simp only [Submissions.overrideGrade, bind_ok, pure_ok] at h
    obtain ⟨_, _, _, _, _, _, _, _, _, _, rfl⟩ := h
    exact of_eq rfl

end KeepsKeys

/-! ### Overrides -/

/-- Every override belongs to a repository, and the newest is within the maximum
of what the repository is graded with now. -/
structure Overridden (s : Store) : Prop where
  repositories : ∀ o ∈ s.overrides, ∃ r ∈ s.repositories, r.id = o.repositoryId
  newest : ∀ r ∈ s.repositories, ∀ o, s.newestOverride r.id = some o → 0 ≤ o.points ∧
    ∃ g ∈ s.revisions, g.digest = r.gradingRevision ∧ o.points ≤ g.definition.assignment.maxPoints

/-- An operation would roll out fewer points than some repository of the exercise
was given. -/
def Sys.Lowers [Sha256] (σ : Sys) (l : Time × Op) : Prop :=
  ∃ p ∈ σ.store.published l.1 l.2, p.existing = true ∧
    ∃ r ∈ σ.store.repositories, ∃ a ∈ σ.store.assignments, a.id = r.assignmentId ∧
      a.key = p.key ∧ ∃ o, σ.store.newestOverride r.id = some o ∧
        p.revision.assignment.maxPoints < o.points

theorem newestOverride_mem {s : Store} {repository : Uuid} {o : GradeOverride}
    (h : s.newestOverride repository = some o) : o ∈ s.overrides ∧ o.repositoryId = repository := by
  have hmem := List.argmax_mem h
  rw [List.mem_filter, decide_eq_true_eq] at hmem
  exact hmem

theorem newestOverride_of_eq {s s' : Store} (h : s'.overrides = s.overrides) (repository : Uuid) :
    s'.newestOverride repository = s.newestOverride repository := by
  rw [Store.newestOverride, h, Store.newestOverride]

/-- The newest override after another one: that one, or what it was before. -/
theorem newestOverride_concat {s s' : Store} {o : GradeOverride}
    (h : s'.overrides = s.overrides ++ [o]) (repository : Uuid) :
    s'.newestOverride repository = s.newestOverride repository ∨
      (s'.newestOverride repository = some o ∧ o.repositoryId = repository) := by
  rw [Store.newestOverride, h, List.filter_append, Store.newestOverride]
  by_cases hid : o.repositoryId = repository
  · have hone : [o].filter (fun o => o.repositoryId = repository) = [o] := by simp [hid]
    rw [hone, List.argmax_concat]
    cases (s.overrides.filter fun o => o.repositoryId = repository).argmax
        fun o => toLex (o.createdAt, o.id) with
    | none => exact Or.inr ⟨rfl, hid⟩
    | some c =>
      dsimp only
      split
      · exact Or.inr ⟨rfl, hid⟩
      · exact Or.inl rfl
  · have hnone : [o].filter (fun o => o.repositoryId = repository) = [] := by simp [hid]
    rw [hnone, List.append_nil]
    exact Or.inl rfl

namespace Overridden

variable {s s' : Store}

/-- Grading revisions and their rows as they were. -/
theorem kept (h : Overridden s) (hoverrides : s'.overrides = s.overrides)
    (hrevisions : s'.revisions = s.revisions)
    (hrepositories : Grows StudentRepository.id SameGrade (fun _ => False) s.repositories
      s'.repositories) : Overridden s' where
  repositories := by
    intro o ho
    rw [hoverrides] at ho
    obtain ⟨r, hr, hid⟩ := h.repositories o ho
    obtain ⟨r', hr', hid', _⟩ := hrepositories.old hr
    exact ⟨r', hr', hid'.trans hid⟩
  newest := by
    intro r' hr' o ho
    obtain ⟨r, hr, hid, hsame⟩ := (hrepositories.origin hr').resolve_right fun hnew => hnew.1
    rw [newestOverride_of_eq hoverrides, hid] at ho
    obtain ⟨hpos, g, hg, hdigest, hmax⟩ := h.newest r hr o ho
    rw [← hrevisions] at hg
    exact ⟨hpos, g, hg, hdigest.trans hsame.grading.symm, hmax⟩

/-- A repository nobody overrode yet. -/
theorem append (h : Overridden s) {r : StudentRepository}
    (hnew : ∀ q ∈ s.repositories, q.id ≠ r.id) :
    Overridden { s with repositories := s.repositories ++ [r] } where
  repositories := by
    intro o ho
    obtain ⟨q, hq, hid⟩ := h.repositories o ho
    exact ⟨q, List.mem_append_left _ hq, hid⟩
  newest := by
    intro q hq o ho
    rcases List.mem_append.mp hq with hold | hlast
    · exact h.newest q hold o ho
    · rw [List.mem_singleton.mp hlast] at ho
      obtain ⟨hmem, hid⟩ := newestOverride_mem ho
      obtain ⟨q', hq', hid'⟩ := h.repositories o hmem
      exact absurd (hid'.trans hid) (hnew q' hq')

/-- An override within its bounds. -/
theorem overrideGrade (h : Overridden s) (hk : Keyed StudentRepository.id s.repositories)
    [Sha256] (hw : Written s) {now : Time} {fresh : Nat → Uuid} {repository : Uuid} {points : Int}
    {operator reason : String}
    (hok : Submissions.overrideGrade s now fresh repository points operator reason = .ok s') :
    Overridden s' := by
  simp only [Submissions.overrideGrade, Store.fetchRepository, Store.fetchRevision, bind_ok,
    fetchOne_ok, check_ok, pure_ok, Bool.and_eq_true, decide_eq_true_eq] at hok
  obtain ⟨_, _, r, hr, v, hv, _, ⟨hpos, hmax⟩, _, _, hs'⟩ := hok
  have hoverrides : s'.overrides =
      s.overrides ++ [⟨fresh 0, repository, points, reason, operator, now⟩] := by
    rw [← hs']
    rfl
  have hrepositories : s'.repositories = s.repositories := by
    rw [← hs']
    rfl
  have hrevisions : s'.revisions = s.revisions := by
    rw [← hs']
    rfl
  refine ⟨fun o ho => ?_, fun q hq o ho => ?_⟩
  · rw [hoverrides] at ho
    rw [hrepositories]
    rcases List.mem_append.mp ho with hold | hlast
    · exact h.repositories o hold
    · rw [List.mem_singleton.mp hlast]
      exact ⟨r, mem_of_lookup hr, key_of_lookup hr⟩
  · rw [hrepositories] at hq
    rw [hrevisions]
    rcases newestOverride_concat hoverrides q.id with hsame | ⟨hnew, hid⟩
    · rw [hsame] at ho
      exact h.newest q hq o ho
    · rw [hnew, Option.some.injEq] at ho
      have hqr : q = r := hk.eq hq (mem_of_lookup hr) (hid.symm.trans (key_of_lookup hr).symm)
      rw [← ho, hqr]
      refine ⟨hpos, v, mem_of_lookup hv, key_of_lookup hv, ?_⟩
      rw [← (hw v (mem_of_lookup hv)).maxPoints]
      exact hmax

end Overridden

/-! ### Overrides along a run -/

section Runs
variable [Sha256] {σ τ : Sys} {l : Time × Op} {history : List (Sys × (Time × Op))}
variable {C : Revision → Prop}

omit [Sha256] in
/-- The maximum after further rollouts. -/
theorem graded_append_maxPoints (own : Revision) (rollouts further : List Revision) (n : Int)
    (hold : n ≤ (graded own rollouts).assignment.maxPoints)
    (hnew : ∀ revision ∈ further, n ≤ revision.assignment.maxPoints) :
    n ≤ (graded own (rollouts ++ further)).assignment.maxPoints := by
  rcases List.eq_nil_or_concat' further with rfl | ⟨before, last, rfl⟩
  · rw [List.append_nil]
    exact hold
  · rw [← List.append_assoc, graded_concat]
    exact hnew last (List.mem_append_right _ (List.mem_singleton_self last))

omit [Sha256] in
theorem mem_rolledOut {publications : List Exercises.Publication} {key : String × String}
    {revision : Revision} (h : revision ∈ rolledOut publications key) :
    ∃ p ∈ publications, p.existing = true ∧ p.key = key ∧ p.revision = revision := by
  simp only [rolledOut, List.mem_map, List.mem_filter, Bool.and_eq_true, decide_eq_true_eq] at h
  obtain ⟨p, ⟨hp, hexisting, hkey⟩, hrevision⟩ := h
  exact ⟨p, hp, hexisting, hkey, hrevision⟩

/-- Publications that lower no maximum below an override. -/
theorem Overridden.publishes (h : Overridden σ.store) (hrolled : Sys.Rolled history σ)
    (hrolled' : Sys.Rolled (history ++ [(σ, l)]) τ) (hpublishes : Publishes σ.store τ.store)
    (hkeys : KeepsKeys σ.store τ.store) (hguard : ¬σ.Lowers l) : Overridden τ.store := by
  have hoverrides : τ.store.overrides = σ.store.overrides := by rw [hpublishes.rest]
  refine ⟨fun o ho => ?_, fun r' hr' o ho => ?_⟩
  · rw [hoverrides] at ho
    obtain ⟨r, hr, hid⟩ := h.repositories o ho
    obtain ⟨r', hr', hid', _⟩ := hpublishes.repositories.old hr
    exact ⟨r', hr', hid'.trans hid⟩
  · obtain ⟨r, hr, hid, hregraded⟩ :=
      (hpublishes.repositories.origin hr').resolve_right fun hnew => hnew.1
    have hcolumns : r'.assignmentId = r.assignmentId ∧ r'.revisionDigest = r.revisionDigest := by
      rw [hregraded]
      exact ⟨rfl, rfl⟩
    rw [newestOverride_of_eq hoverrides, hid] at ho
    obtain ⟨hpos, g, hg, hgdigest, hmax⟩ := h.newest r hr o ho
    obtain ⟨a, ha, haid, v, hv, hvdigest, g₀, hg₀, hg₀digest, hdefinition⟩ :=
      hrolled.graded r hr
    obtain ⟨a', ha', haid', v', hv', hvdigest', g', hg', hgdigest', hdefinition'⟩ :=
      hrolled'.graded r' hr'
    obtain ⟨a₁, ha₁, haid₁, hakey₁⟩ := hkeys a ha
    -- the same exercise, and pinned to the same revision
    have hkey : a'.key = a.key := by
      have hsame : a' = a₁ := by
        refine hrolled'.tables.catalogued.ids.eq ha' ha₁ ?_
        rw [haid', haid₁, haid, hcolumns.1]
      rw [hsame, hakey₁]
    have hpinned : v' = v := by
      refine hrolled'.tables.revisions.eq hv' (mem_of_grows hpublishes.revisions v hv) ?_
      rw [hvdigest', hvdigest, hcolumns.2]
    have hgrading : g = g₀ := hrolled.tables.revisions.eq hg hg₀ (hgdigest.trans hg₀digest.symm)
    refine ⟨hpos, g', hg', hgdigest', ?_⟩
    rw [hdefinition', hpinned, hkey, hid, rolloutsOf_of_mem hr]
    refine graded_append_maxPoints v.definition _ _ o.points ?_ fun revision hrevision => ?_
    · rw [← hdefinition, ← hgrading]
      exact hmax
    · obtain ⟨p, hp, hexisting, hpkey, rfl⟩ := mem_rolledOut hrevision
      refine not_lt.mp fun hlower => hguard ?_
      exact ⟨p, hp, hexisting, r, hr, a, ha, haid, hpkey.symm, o, ho, hlower⟩

end Runs

/-! ### What is shown -/

namespace Courses

variable {s : Store} {row : DashboardRow}

end Courses

namespace Export

end Export

section Result
variable [Sha256] {σ τ : Sys} {history : List (Sys × (Time × Op))}

end Result

/-! ### An override above a lowered maximum -/

namespace Sample
attribute [local instance] Sha256.standard

end Sample

end Grading

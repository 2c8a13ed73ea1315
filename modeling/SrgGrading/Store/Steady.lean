import SrgGrading.Store.Evolution

/-!
# What grading leaves alone

Catalogs, revisions and overrides are written by a few operations only; the
others leave these tables alone and give no repository another revision.

* `exec_steady`: every operation but those four is steady.
* `Sys.Step.catalog`: every step is steady, publishes, allocates or overrides.
-/

open Fallible Relational

namespace Grading

/-- The tables that grading only reads. -/
def Store.fixed (s : Store) :
    List Course × List Enrollment × List AssignmentRow × List AssignmentRevision ×
      List GradeOverride :=
  (s.courses, s.enrollments, s.assignments, s.revisions, s.overrides)

/-- A repository of the same exercise, graded alike. -/
structure SameGrade (r r' : StudentRepository) : Prop where
  same : SameRepository r r'
  grading : r'.gradingRevision = r.gradingRevision

/-- What grading does to the tables it only reads, and to repositories. -/
structure Steady (s s' : Store) : Prop where
  fixed : s'.fixed = s.fixed
  repositories : Grows StudentRepository.id SameGrade (fun _ => False) s.repositories s'.repositories

theorem SameGrade.refl (r : StudentRepository) : SameGrade r r := ⟨.refl r, rfl⟩

theorem SameGrade.trans {a b c : StudentRepository} (h : SameGrade a b) (h' : SameGrade b c) :
    SameGrade a c :=
  ⟨h.same.trans h'.same, h'.grading.trans h.grading⟩

namespace Steady

variable {s s' s'' : Store} {now : Time}

theorem courses (h : Steady s s') : s'.courses = s.courses := congrArg (·.1) h.fixed

theorem enrollments (h : Steady s s') : s'.enrollments = s.enrollments := congrArg (·.2.1) h.fixed

theorem assignments (h : Steady s s') : s'.assignments = s.assignments :=
  congrArg (·.2.2.1) h.fixed

theorem revisions (h : Steady s s') : s'.revisions = s.revisions := congrArg (·.2.2.2.1) h.fixed

theorem overrides (h : Steady s s') : s'.overrides = s.overrides := congrArg (·.2.2.2.2) h.fixed

theorem of_eq (h : s'.fixed = s.fixed) (hr : s'.repositories = s.repositories) : Steady s s' :=
  ⟨h, .of_eq hr fun r _ => .refl r⟩

theorem refl (s : Store) : Steady s s := of_eq rfl rfl

theorem trans (h : Steady s s') (h' : Steady s' s'') : Steady s s'' :=
  ⟨h'.fixed.trans h.fixed, h.repositories.trans h'.repositories (fun _ _ _ _ => .trans)
    fun _ _ hfalse _ => hfalse.elim⟩

/-! ### Writes -/

theorem updateRepositories (s : Store) (p : StudentRepository → Bool)
    {f : StudentRepository → StudentRepository} (hf : ∀ r, (f r).id = r.id ∧ SameGrade r (f r)) :
    Steady s (s.updateRepositories p f) :=
  ⟨rfl, .update (fun r _ _ => hf r) fun r _ => .refl r⟩

theorem markReview (s : Store) (p : StudentRepository → Bool) : Steady s (s.markReview p) :=
  updateRepositories s p fun _ => ⟨rfl, ⟨rfl, rfl, rfl⟩, rfl⟩

theorem enqueue {id subject : Uuid} {kind : TaskKind} {priority : Int}
    (h : Queue.enqueue s now id kind subject priority = .ok s') : Steady s s' := by
  rw [Queue.enqueue] at h
  split at h
  · rw [pure_ok] at h
    rw [h]
    exact refl s'
  · simp only [bind_ok, pure_ok] at h
    obtain ⟨_, _, rfl⟩ := h
    exact of_eq rfl rfl

theorem insertEvent {e : SubmissionEvent} (h : Submissions.insertEvent s e = .ok s') :
    Steady s s' := by
  simp only [Submissions.insertEvent, bind_ok, pure_ok] at h
  obtain ⟨_, _, rfl⟩ := h
  exact of_eq rfl rfl

theorem insertSubmission {x : Submission} (h : Submissions.insertSubmission s x = .ok s') :
    Steady s s' := by
  simp only [Submissions.insertSubmission, bind_ok, pure_ok] at h
  obtain ⟨_, _, rfl⟩ := h
  exact of_eq rfl rfl

theorem insertRun {g : GradingRun} (h : Runs.insertRun s now g = .ok s') : Steady s s' := by
  simp only [Runs.insertRun, bind_ok, pure_ok] at h
  obtain ⟨_, _, _, _, _, _, rfl⟩ := h
  exact of_eq rfl rfl

/-! ### Receipts and closure -/

theorem enqueueSnapshots : ∀ {l : List (Uuid × Bool)} {fresh : Nat → Uuid} {s s' : Store},
    Submissions.enqueueSnapshots now s fresh l = .ok s' → Steady s s' := by
  intro l
  induction l with
  | nil =>
    intro fresh s s' h
    rw [Submissions.enqueueSnapshots, pure_ok] at h
    rw [h]
    exact refl s'
  | cons e rest ih =>
    obtain ⟨id, final⟩ := e
    intro fresh s s' h
    rw [Submissions.enqueueSnapshots, bind_ok] at h
    obtain ⟨s₁, h₁, h₂⟩ := h
    exact (enqueue h₁).trans (ih h₂)

theorem scheduleSnapshots {fresh : Nat → Uuid} {tie : Uuid → Nat} {repository : Uuid}
    (h : Submissions.scheduleSnapshots s now fresh tie repository = .ok s') : Steady s s' := by
  rw [Submissions.scheduleSnapshots, bind_ok] at h
  obtain ⟨r, _, h⟩ := h
  refine trans ?_ (enqueueSnapshots h)
  exact of_eq rfl rfl

theorem record {fresh : Nat → Uuid} {tie : Uuid → Nat} {repository : Uuid} {sha : String}
    {received : Time} {source : EventSource} {delivery out : Option Uuid}
    (h : Submissions.record s now fresh tie repository sha received source delivery
      = .ok (s', out)) : Steady s s' := by
  simp only [Submissions.record, bind_ok] at h
  obtain ⟨_, _, p, _, s₁, h₁, h⟩ := h
  refine (insertEvent h₁).trans ?_
  split at h
  · rw [pure_ok, Prod.mk.injEq] at h
    rw [← h.1]
    split
    · exact markReview _ _
    · exact refl _
  · split at h
    · rw [pure_ok, Prod.mk.injEq] at h
      rw [← h.1]
      exact refl _
    · simp only [bind_ok, pure_ok, Prod.mk.injEq] at h
      obtain ⟨s₂, h₂, s₃, h₃, rfl, _⟩ := h
      exact (insertSubmission h₂).trans (scheduleSnapshots h₃)

theorem freeze (s : Store) (repository : Uuid) :
    Steady s (Submissions.freeze s now repository) := by
  have hclose : Steady s (s.updateRepositories (fun r => r.id = repository) fun r =>
      { r with closureDue := true, finalSubmissionId := (s.newest repository).map Submission.id }) :=
    updateRepositories s _ fun _ => ⟨rfl, ⟨rfl, rfl, rfl⟩, rfl⟩
  simp only [Submissions.freeze]
  split
  · exact hclose.trans (of_eq rfl rfl)
  · exact hclose

theorem close {fresh : Nat → Uuid} {repository : Uuid}
    (h : Submissions.close s now fresh repository = .ok s') : Steady s s' := by
  simp only [Submissions.close, bind_ok] at h
  obtain ⟨p, _, h⟩ := h
  have hfreeze : Steady s (if (decide (p.deadline < now) && !p.repository.closureDue) = true then
      Submissions.freeze s now repository else s) := by
    split
    · exact freeze s repository
    · exact refl s
  split at h
  · simp only [Submissions.enqueueLock, bind_ok, pure_ok] at h
    obtain ⟨s₁, h₁, rfl⟩ := h
    exact (hfreeze.trans (enqueue h₁)).trans (of_eq rfl rfl)
  · rw [pure_ok] at h
    rw [← h]
    exact hfreeze

theorem extend {repository : Uuid} {deadline : Time} {operator reason : String}
    (h : Submissions.extend s now repository deadline operator reason = .ok s') :
    Steady s s' := by
  simp only [Submissions.extend, bind_ok, pure_ok] at h
  obtain ⟨_, _, _, _, _, _, rfl⟩ := h
  exact of_eq rfl rfl

theorem selectSubmission {fresh : Nat → Uuid} {event out : Uuid} {operator reason : String}
    (h : Submissions.selectSubmission s now fresh event operator reason = .ok (s', out)) :
    Steady s s' := by
  simp only [Submissions.selectSubmission, bind_ok, pure_ok, Prod.mk.injEq] at h
  obtain ⟨_, _, e, _, r, _, _, _, ⟨s₁, id⟩, h₁, _, _, s₂, h₂, rfl, _⟩ := h
  have hsubmission : Steady s s₁ := by
    rw [Submissions.submissionOfEvent] at h₁
    split at h₁
    · rw [pure_ok, Prod.mk.injEq] at h₁
      rw [← h₁.1]
      exact refl _
    · simp only [bind_ok, pure_ok, Prod.mk.injEq] at h₁
      obtain ⟨s₃, h₃, rfl, _⟩ := h₁
      exact insertSubmission h₃
  refine (hsubmission.trans ?_).trans (enqueue h₂)
  have hselect : Steady s₁ (s₁.updateRepositories (fun q => q.id = r.id) fun q =>
      { q with finalSubmissionId := some id, needsReview := false }) :=
    updateRepositories s₁ _ fun _ => ⟨rfl, ⟨rfl, rfl, rfl⟩, rfl⟩
  exact hselect.trans (of_eq rfl rfl)

theorem put [Sha256] {kind hash : String} {bytes : List UInt8}
    (h : Submissions.put s kind bytes = .ok (s', hash)) : Steady s s' := by
  simp only [Submissions.put, bind_ok, pure_ok, Prod.mk.injEq] at h
  obtain ⟨_, _, rfl, _⟩ := h
  split
  · exact refl s
  · exact of_eq rfl rfl

theorem retainSource {id : Uuid} {hash : String}
    (h : Submissions.retainSource s id hash = .ok s') : Steady s s' := by
  simp only [Submissions.retainSource, bind_ok, pure_ok] at h
  obtain ⟨_, _, rfl⟩ := h
  exact of_eq rfl rfl

/-! ### The queue -/

theorem lease_task {locked : List Uuid} {token : Uuid} {owner : String} {kinds : List TaskKind} :
    Steady s (Queue.lease s now locked token owner kinds).1 := by
  rw [Queue.lease]
  split
  · exact refl s
  · exact of_eq rfl rfl

theorem heartbeat {id token : Uuid} {owner : String}
    (h : Queue.heartbeat s now id token owner = .ok s') : Steady s s' := by
  simp only [Queue.heartbeat, bind_ok, pure_ok] at h
  obtain ⟨_, _, rfl⟩ := h
  exact of_eq rfl rfl

theorem finish {task : Task} (h : Queue.finish s now task = .ok s') : Steady s s' := by
  simp only [Queue.finish, bind_ok, pure_ok] at h
  obtain ⟨_, _, rfl⟩ := h
  exact of_eq rfl rfl

theorem failPermanently {task : Task} : Steady s (Queue.failPermanently s now task) := by
  refine trans ?_ (markReview _ _)
  exact of_eq rfl rfl

theorem retry {task : Uuid} {operator reason : String}
    (h : Queue.retry s now task operator reason = .ok s') : Steady s s' := by
  simp only [Queue.retry, bind_ok, pure_ok] at h
  obtain ⟨_, _, _, _, rfl⟩ := h
  exact of_eq rfl rfl

/-! ### Grading runs -/

theorem enqueueRun {fresh : Nat → Uuid} {submission out : Uuid} {regrade : Bool}
    (h : Runs.enqueueRun s now fresh submission regrade = .ok (s', out)) : Steady s s' := by
  simp only [Runs.enqueueRun, bind_ok] at h
  obtain ⟨x, _, r, _, _, _, h⟩ := h
  split at h
  · rw [pure_ok, Prod.mk.injEq] at h
    rw [← h.1]
    exact refl s
  · simp only [bind_ok] at h
    obtain ⟨latest, _, attempt, _, s₁, h₁, h⟩ := h
    refine (insertRun h₁).trans ?_
    split at h
    · rw [pure_ok, Prod.mk.injEq] at h
      rw [← h.1]
      exact refl s₁
    · simp only [bind_ok, pure_ok, Prod.mk.injEq] at h
      obtain ⟨s₂, h₂, rfl, _⟩ := h
      refine trans ?_ (enqueue h₂)
      exact of_eq rfl rfl

theorem insertPrivate {fresh : Nat → Uuid} {submission : Uuid} {revision : String}
    {attempt : Int} {baseline out : Uuid}
    (h : Runs.insertPrivate s now fresh submission revision attempt baseline = .ok (s', out)) :
    Steady s s' := by
  simp only [Runs.insertPrivate, bind_ok, pure_ok, Prod.mk.injEq] at h
  obtain ⟨s₁, h₁, s₂, h₂, rfl, _⟩ := h
  exact (insertRun h₁).trans (enqueue h₂)

theorem enqueuePrivate {fresh : Nat → Uuid} {repository : Uuid} {operator reason : String}
    {out : Runs.PrivateOutcome}
    (h : Runs.enqueuePrivateRepository s now fresh repository operator reason = .ok (s', out)) :
    Steady s s' := by
  simp only [Runs.enqueuePrivateRepository, bind_ok] at h
  obtain ⟨p, _, h⟩ := h
  split at h
  · rw [pure_ok, Prod.mk.injEq] at h
    rw [← h.1]
    exact refl s
  · split at h
    · rw [pure_ok, Prod.mk.injEq] at h
      rw [← h.1]
      exact refl s
    · simp only [bind_ok] at h
      obtain ⟨v, _, definition, _, _, _, h⟩ := h
      split at h
      · rw [pure_ok, Prod.mk.injEq] at h
        rw [← h.1]
        exact refl s
      · simp only [bind_ok, pure_ok, Prod.mk.injEq] at h
        obtain ⟨attempt, _, ⟨s₁, run⟩, h₁, rfl, _⟩ := h
        exact (insertPrivate h₁).trans (of_eq rfl rfl)

theorem retryPrivate {fresh : Nat → Uuid} {failed out : Uuid} {operator reason : String}
    (h : Runs.retryPrivate s now fresh failed operator reason = .ok (s', out)) : Steady s s' := by
  simp only [Runs.retryPrivate, bind_ok, pure_ok, Prod.mk.injEq] at h
  obtain ⟨_, _, g, _, x, _, latest, _, _, _, baseline, _, attempt, _, ⟨s₁, run⟩, h₁, rfl, _⟩ := h
  exact (insertPrivate h₁).trans (of_eq rfl rfl)

theorem lease {locked : List Uuid} {token : Uuid} {worker : Worker} {requested : List String}
    {out : Option Uuid}
    (h : Runs.lease s now locked token worker requested = .ok (s', out)) : Steady s s' := by
  simp only [Runs.lease, bind_ok] at h
  obtain ⟨caps, _, h⟩ := h
  split at h
  · rw [pure_ok, Prod.mk.injEq] at h
    rw [← h.1]
    exact refl s
  · split at h
    · rw [pure_ok, Prod.mk.injEq] at h
      rw [← h.1]
      exact refl s
    · rw [pure_ok, Prod.mk.injEq] at h
      rw [← h.1]
      exact of_eq rfl rfl

theorem commitResult [Sha256] (s : Store) (call : Runs.AcceptCall) :
    Steady s (Runs.commitResult s call) := by
  have hreview := markReview s fun r =>
    call.result.status = .invalidated && Runs.gradesRepository s call.result.runId r
  exact ⟨hreview.fixed, hreview.repositories⟩

theorem acceptCommit [Sha256] {fresh : Nat → Uuid} {call : Runs.AcceptCall}
    (h : Runs.acceptCommit s now fresh call = .ok s') : Steady s s' := by
  simp only [Runs.acceptCommit, bind_ok] at h
  obtain ⟨t, _, h⟩ := h
  split at h
  · simp only [bind_ok, pure_ok] at h
    obtain ⟨_, _, _, _, rfl⟩ := h
    exact refl s
  · simp only [bind_ok] at h
    obtain ⟨_, _, _, _, h⟩ := h
    exact (commitResult s call).trans (enqueue h)

end Steady

/-! ### Every step -/

section Steps
variable [Sha256]

/-- A repository is allocated at the current revision of an assignment, or it was
before. -/
def Allocates (s s' : Store) : Prop :=
  ∃ added, Steady { s with repositories := s.repositories ++ added } s' ∧
    (added = [] ∨ ∃ r a e v, added = [r] ∧ a ∈ s.assignments ∧ a.id = r.assignmentId ∧
      e ∈ s.enrollments ∧ e.id = r.enrollmentId ∧ e.courseId = a.courseId ∧ v ∈ s.revisions ∧
      v.digest = r.revisionDigest ∧ r.gradingRevision = r.revisionDigest ∧
      ∀ q ∈ s.repositories, q.id ≠ r.id)

omit [Sha256] in
theorem requestRepository_allocates {s s' : Store} {now : Time} {fresh : Nat → Uuid}
    {githubId : Int} {assignment out : Uuid}
    (h : Courses.requestRepository s now fresh githubId assignment = .ok (s', out)) :
    Allocates s s' := by
  simp only [Courses.requestRepository, Store.fetchRevision, bind_ok, fetchOne_ok] at h
  obtain ⟨a, ha, _, _, e, he, current, _, v, hv, h⟩ := h
  split at h
  · rw [pure_ok, Prod.mk.injEq] at h
    rw [← h.1]
    exact ⟨[], by rw [List.append_nil]; exact .refl s, Or.inl rfl⟩
  · simp only [bind_ok, ensure_ok, pure_ok, Prod.mk.injEq] at h
    obtain ⟨_, _, _, hnew, s₁, h₁, rfl, _⟩ := h
    simp only [Bool.not_eq_true', List.any_eq_false, Bool.or_eq_true, decide_eq_true_eq,
      not_or] at hnew
    have hcourse := List.find?_some he
    rw [Bool.and_eq_true, decide_eq_true_eq, decide_eq_true_eq] at hcourse
    refine ⟨_, .enqueue h₁, Or.inr ⟨_, a, e, v, rfl, mem_of_lookup ha, key_of_lookup ha,
      List.mem_of_find?_eq_some he, rfl, hcourse.1, mem_of_lookup hv, rfl, rfl, ?_⟩⟩
    exact fun q hq => (hnew q hq).1

/-- The publications of an operation that is not a dry run. -/
def StoreOp.publications : StoreOp → List Exercises.Publication
  | .publish _ p => if p.dryRun then [] else [p]
  | .applySet _ _ set => if set.dryRun then [] else set.publications
  | _ => []

/-- The publications a step commits. -/
def Store.published (s : Store) (now : Time) : Op → List Exercises.Publication
  | .store op =>
    match op.exec s now with
    | .ok _ => op.publications
    | .error _ => []
  | _ => []

/-- **Every operation but four leaves the catalog alone.** -/
theorem exec_steady {s s' : Store} {now : Time} {op : StoreOp} (h : op.exec s now = .ok s') :
    (op.publications = [] ∧ (Steady s s' ∨ Allocates s s')) ∨ (∃ fresh p, op = .publish fresh p) ∨
      (∃ fresh collate set, op = .applySet fresh collate set) ∨
      ∃ fresh repository points operator reason,
        op = .overrideGrade fresh repository points operator reason := by
  cases op <;> simp only [StoreOp.exec, map_fst_ok, Except.ok.injEq] at h
  case publish fresh p => exact Or.inr (Or.inl ⟨fresh, p, rfl⟩)
  case applySet fresh collate set => exact Or.inr (Or.inr (Or.inl ⟨fresh, collate, set, rfl⟩))
  case overrideGrade fresh repository points operator reason =>
    exact Or.inr (Or.inr (Or.inr ⟨fresh, repository, points, operator, reason, rfl⟩))
  case requestRepository =>
    obtain ⟨_, h⟩ := h
    exact Or.inl ⟨rfl, Or.inr (requestRepository_allocates h)⟩
  all_goals refine Or.inl ⟨rfl, Or.inl ?_⟩
  case record => obtain ⟨_, h⟩ := h; exact .record h
  case scheduleSnapshots => exact .scheduleSnapshots h
  case close => exact .close h
  case extend => exact .extend h
  case selectSubmission => obtain ⟨_, h⟩ := h; exact .selectSubmission h
  case put => obtain ⟨_, h⟩ := h; exact .put h
  case retainSource => exact .retainSource h
  case flagFailedSnapshots => rw [← h]; exact .markReview _ _
  case leaseTask => rw [← h]; exact .lease_task
  case heartbeat => exact .heartbeat h
  case finish => exact .finish h
  case fail => rw [← h]; exact .of_eq rfl rfl
  case failPermanently => rw [← h]; exact .failPermanently
  case deferTask => rw [← h]; exact .of_eq rfl rfl
  case retry => exact .retry h
  case expireExhausted => rw [← h]; exact .of_eq rfl rfl
  case enqueueRun => obtain ⟨_, h⟩ := h; exact .enqueueRun h
  case enqueuePrivate => obtain ⟨_, h⟩ := h; exact .enqueuePrivate h
  case retryPrivate => obtain ⟨_, h⟩ := h; exact .retryPrivate h
  case lease => obtain ⟨_, h⟩ := h; exact .lease h
  case markFailed => rw [← h]; exact .of_eq rfl rfl

/-- What a step does to catalogs, revisions, overrides and the grading of
repositories. -/
inductive CatalogStep (now : Time) (op : Op) (s s' : Store) : Prop
  | steady (hnone : s.published now op = []) (h : Steady s s')
  | allocates (hnone : s.published now op = []) (h : Allocates s s')
  | publish (fresh : Nat → Uuid) (p : Exercises.Publication) (hop : op = .store (.publish fresh p))
      (h : Exercises.publish s fresh p = .ok s')
  | applySet (fresh : Nat → Uuid) (collate : String → String → Bool) (set : Exercises.ApplySet)
      (hop : op = .store (.applySet fresh collate set))
      (h : Exercises.applySet s fresh collate set = .ok s')
  | overrideGrade (fresh : Nat → Uuid) (repository : Uuid) (points : Int) (operator reason : String)
      (hop : op = .store (.overrideGrade fresh repository points operator reason))
      (h : Submissions.overrideGrade s now fresh repository points operator reason = .ok s')

/-- **Every step** is one of these. -/
theorem Sys.Step.catalog {σ τ : Sys} {l : Time × Op} (h : Sys.Step σ l τ) :
    CatalogStep l.1 l.2 σ.store τ.store := by
  obtain ⟨now, op⟩ := l
  obtain ⟨_, _, rfl⟩ := h
  cases op with
  | store op =>
    simp only [Sys.perform]
    split
    · rename_i s' hs'
      have hpublished : σ.store.published now (.store op) = op.publications := by
        rw [Store.published, hs']
      rcases exec_steady hs' with ⟨hnone, h⟩ | ⟨fresh, p, rfl⟩ | ⟨fresh, collate, set, rfl⟩ |
          ⟨fresh, repository, points, operator, reason, rfl⟩
      · rcases h with h | h
        · exact .steady (hpublished.trans hnone) h
        · exact .allocates (hpublished.trans hnone) h
      · exact .publish fresh p rfl hs'
      · exact .applySet fresh collate set rfl hs'
      · exact .overrideGrade fresh repository points operator reason rfl hs'
    · rename_i e he
      refine .steady ?_ (.refl _)
      rw [Store.published, he]
  | acceptLease worker task result =>
    simp only [Sys.perform]
    split <;> exact .steady rfl (.refl _)
  | acceptExisting i =>
    simp only [Sys.perform]
    split
    · exact .steady rfl (.refl _)
    · split <;> exact .steady rfl (.refl _)
  | acceptPut i =>
    simp only [Sys.perform]
    split
    · exact .steady rfl (.refl _)
    · split
      · rename_i hput
        exact .steady rfl (.put hput)
      · exact .steady rfl (.refl _)
  | acceptCommit i fresh =>
    simp only [Sys.perform]
    split
    · exact .steady rfl (.refl _)
    · split
      · rename_i hcommit
        exact .steady rfl (.acceptCommit hcommit)
      · exact .steady rfl (.refl _)
  | acceptStop i => exact .steady rfl (.refl _)

end Steps

end Grading

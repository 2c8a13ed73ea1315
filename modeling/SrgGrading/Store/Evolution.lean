import SrgGrading.Store.Publishing

/-!
# How the store evolves

No operation deletes a row.  `Evolves R s s'` says what every operation keeps:
the rows under their keys with the columns that identify them, and repositories
up to `R`.  Each operation is a composition of a few kinds of writes, and each
kind keeps this.

* `Evolves.trans`: evolutions compose.
* `Continues.record`, …, `Continues.acceptCommit`: every operation is one.
-/

open Fallible Relational

namespace Grading

/-! ### Joins -/

namespace Store

variable {s : Store}

theorem fetchRepository_ok {id : Uuid} {r : StudentRepository} (h : s.fetchRepository id = .ok r) :
    r ∈ s.repositories ∧ r.id = id := by
  rw [fetchRepository, fetchOne_ok] at h
  exact ⟨mem_of_lookup h, key_of_lookup h⟩

theorem fetchPinned_ok {id : Uuid} {p : Pinned} (h : s.fetchPinned id = .ok p) :
    p.repository ∈ s.repositories ∧ p.repository.id = id ∧ p.revision ∈ s.revisions ∧
      p.revision.digest = p.repository.revisionDigest ∧
      p.deadline = s.effectiveDeadline id p.revision := by
  simp only [fetchPinned, bind_ok, pure_ok] at h
  obtain ⟨r, hr, v, hv, rfl⟩ := h
  obtain ⟨hmem, hid⟩ := fetchRepository_ok hr
  rw [fetchRevision, fetchOne_ok] at hv
  exact ⟨hmem, hid, mem_of_lookup hv, key_of_lookup hv, by rw [hid]⟩

theorem newest_mem {repository : Uuid} {x : Submission} (h : s.newest repository = some x) :
    x ∈ s.submissions ∧ x.repositoryId = repository := by
  have hx := List.argmax_mem h
  rw [submissionsOf, List.mem_filter, decide_eq_true_eq] at hx
  exact hx

end Store

/-! ### What rows keep -/

/-- The columns of a repository no operation writes. -/
structure SameRepository (r r' : StudentRepository) : Prop where
  enrollment : r'.enrollmentId = r.enrollmentId
  assignment : r'.assignmentId = r.assignmentId
  revision : r'.revisionDigest = r.revisionDigest

/-- Neither closed nor given another final submission. -/
def Untouched (r r' : StudentRepository) : Prop :=
  r'.closureDue = r.closureDue ∧ r'.finalSubmissionId = r.finalSubmissionId

/-- A repository nobody closed yet. -/
def Open (r : StudentRepository) : Prop := r.closureDue = false ∧ r.finalSubmissionId = none

/-- The columns of a submission no operation writes; a retained source stays. -/
structure SameSubmission (x x' : Submission) : Prop where
  repository : x'.repositoryId = x.repositoryId
  event : x'.eventId = x.eventId
  sha : x'.sha = x.sha
  received : x'.receivedAt = x.receivedAt
  source : ∀ d, x.sourceDigest = some d → x'.sourceDigest = some d

structure SameRun (g g' : GradingRun) : Prop where
  submission : g'.submissionId = g.submissionId
  revision : g'.revisionDigest = g.revisionDigest
  attempt : g'.attempt = g.attempt
  baseline : g'.publicRunId = g.publicRunId

structure SameTask (t t' : TaskRow) : Prop where
  kind : t'.kind = t.kind
  subject : t'.subject = t.subject

theorem SameRepository.refl (r : StudentRepository) : SameRepository r r := ⟨rfl, rfl, rfl⟩

theorem SameRepository.trans {a b c : StudentRepository} (h : SameRepository a b)
    (h' : SameRepository b c) : SameRepository a c :=
  ⟨h'.1.trans h.1, h'.2.trans h.2, h'.3.trans h.3⟩

theorem SameSubmission.refl (x : Submission) : SameSubmission x x :=
  ⟨rfl, rfl, rfl, rfl, fun _ h => h⟩

theorem SameSubmission.trans {a b c : Submission} (h : SameSubmission a b)
    (h' : SameSubmission b c) : SameSubmission a c :=
  ⟨h'.1.trans h.1, h'.2.trans h.2, h'.3.trans h.3, h'.4.trans h.4,
    fun d hd => h'.5 d (h.5 d hd)⟩

theorem SameRun.refl (g : GradingRun) : SameRun g g := ⟨rfl, rfl, rfl, rfl⟩

theorem SameRun.trans {a b c : GradingRun} (h : SameRun a b) (h' : SameRun b c) : SameRun a c :=
  ⟨h'.1.trans h.1, h'.2.trans h.2, h'.3.trans h.3, h'.4.trans h.4⟩

theorem SameTask.refl (t : TaskRow) : SameTask t t := ⟨rfl, rfl⟩

theorem SameTask.trans {a b c : TaskRow} (h : SameTask a b) (h' : SameTask b c) : SameTask a c :=
  ⟨h'.1.trans h.1, h'.2.trans h.2⟩

theorem Untouched.refl (r : StudentRepository) : Untouched r r := ⟨rfl, rfl⟩

/-- The column `tasks.dedup_key`. -/
def TaskRow.dedupKey (t : TaskRow) : TaskKind × Uuid := (t.kind, t.subject)

/-- What an operation keeps; repositories change up to `R`. -/
structure Evolves (R : StudentRepository → StudentRepository → Prop) (s s' : Store) : Prop where
  repositories : Grows StudentRepository.id (fun r r' => SameRepository r r' ∧ R r r') Open
    s.repositories s'.repositories
  submissions : Grows Submission.id SameSubmission
    (fun x => ∃ r ∈ s'.repositories, r.id = x.repositoryId) s.submissions s'.submissions
  submissionEvents : Keyed Submission.eventId s.submissions → Keyed Submission.eventId s'.submissions
  revisions : Grows AssignmentRevision.digest Eq (fun _ => True) s.revisions s'.revisions
  runs : Grows GradingRun.id SameRun (fun _ => True) s.runs s'.runs
  tasks : Grows TaskRow.id SameTask (fun _ => True) s.tasks s'.tasks
  taskKeys : Keyed TaskRow.dedupKey s.tasks → Keyed TaskRow.dedupKey s'.tasks
  /-- The deadline of a closed repository is not extended. -/
  extensions : ∀ r ∈ s.repositories, r.closureDue = true →
    lookup Extension.repositoryId r.id s'.extensions =
      lookup Extension.repositoryId r.id s.extensions

namespace Evolves

variable {R R' R'' : StudentRepository → StudentRepository → Prop} {s s' s'' : Store}

theorem trans (h : Evolves R s s') (h' : Evolves R' s' s'')
    (hR : ∀ a b c, b.id = a.id → R a b → R' b c → R'' a c)
    (hN : ∀ a b, Open a → R' a b → Open b)
    (hC : ∀ a b, R a b → a.closureDue = true → b.closureDue = true) : Evolves R'' s s'' where
  repositories := h.repositories.trans h'.repositories
    (fun a b c hid hab hbc => ⟨hab.1.trans hbc.1, hR a b c hid hab.2 hbc.2⟩)
    (fun a b ha hab => hN a b ha hab.2)
  submissions := by
    refine Grows.trans (h.submissions.mono (fun _ _ _ => id) ?_) h'.submissions
      (fun _ _ _ _ => .trans) ?_
    · rintro x ⟨r, hr, hid⟩
      obtain ⟨r', hr', hid', _⟩ := h'.repositories.old hr
      exact ⟨r', hr', hid'.trans hid⟩
    · rintro x y ⟨r, hr, hid⟩ hxy
      exact ⟨r, hr, hid.trans hxy.repository.symm⟩
  submissionEvents := h'.submissionEvents ∘ h.submissionEvents
  revisions := h.revisions.trans h'.revisions (fun _ _ _ _ => Eq.trans) (fun _ _ _ _ => trivial)
  runs := h.runs.trans h'.runs (fun _ _ _ _ => .trans) (fun _ _ _ _ => trivial)
  tasks := h.tasks.trans h'.tasks (fun _ _ _ _ => .trans) (fun _ _ _ _ => trivial)
  taskKeys := h'.taskKeys ∘ h.taskKeys
  extensions := by
    intro r hr hclosed
    obtain ⟨r', hr', hid, _, hrr⟩ := h.repositories.old hr
    rw [← h.extensions r hr hclosed, ← hid]
    exact h'.extensions r' hr' (hC r r' hrr hclosed)

/-- Tables an operation does not touch. -/
theorem of_repositories (hr : Grows StudentRepository.id
      (fun r r' => SameRepository r r' ∧ R r r') Open s.repositories s'.repositories)
    (hx : s'.submissions = s.submissions) (hv : s'.revisions = s.revisions)
    (hg : s'.runs = s.runs) (ht : s'.tasks = s.tasks) (he : s'.extensions = s.extensions) :
    Evolves R s s' where
  repositories := hr
  submissions := .of_eq hx fun _ _ => .refl _
  submissionEvents := by rw [hx]; exact id
  revisions := .of_eq hv fun _ _ => rfl
  runs := .of_eq hg fun _ _ => .refl _
  tasks := .of_eq ht fun _ _ => .refl _
  taskKeys := by rw [ht]; exact id
  extensions _ _ _ := by rw [he]

end Evolves

/-- An operation that closes nothing. -/
def Continues : Store → Store → Prop := Evolves Untouched

namespace Continues

variable {s s' s'' : Store}

theorem trans (h : Continues s s') (h' : Continues s' s'') : Continues s s'' :=
  Evolves.trans h h' (fun _ _ _ _ hab hbc => ⟨hbc.1.trans hab.1, hbc.2.trans hab.2⟩)
    (fun _ _ ha hab => ⟨hab.1.trans ha.1, hab.2.trans ha.2⟩) fun _ _ hab ha => hab.1.trans ha

/-- An operation that writes none of the tables. -/
theorem of_eq (hr : s'.repositories = s.repositories) (hx : s'.submissions = s.submissions)
    (hv : s'.revisions = s.revisions) (hg : s'.runs = s.runs) (ht : s'.tasks = s.tasks)
    (he : s'.extensions = s.extensions) : Continues s s' :=
  .of_repositories (.of_eq hr fun _ _ => ⟨.refl _, .refl _⟩) hx hv hg ht he

theorem refl (s : Store) : Continues s s := of_eq rfl rfl rfl rfl rfl rfl

/-- Continuing after an operation that may close a repository. -/
theorem after {R : StudentRepository → StudentRepository → Prop} (h : Evolves R s s')
    (h' : Continues s' s'')
    (hR : ∀ a b c, b.id = a.id → R a b → Untouched b c → R a c)
    (hC : ∀ a b, R a b → a.closureDue = true → b.closureDue = true) : Evolves R s s'' :=
  Evolves.trans h h' hR (fun _ _ ha hab => ⟨hab.1.trans ha.1, hab.2.trans ha.2⟩) hC

/-! ### Writes to the tasks -/

theorem updateTasks {p : TaskRow → Bool} {f : TaskRow → TaskRow}
    (hf : ∀ t, (f t).id = t.id ∧ (f t).kind = t.kind ∧ (f t).subject = t.subject) :
    Continues s (s.updateTasks p f) :=
  { refl s with
    tasks := .update (fun t _ _ => ⟨(hf t).1, (hf t).2.1, (hf t).2.2⟩) fun t _ => .refl t
    taskKeys := fun hk => hk.updateWhere fun t _ => by
      rw [TaskRow.dedupKey, TaskRow.dedupKey, (hf t).2.1, (hf t).2.2] }

theorem enqueue {now : Time} {id subject : Uuid} {kind : TaskKind} {priority : Int}
    (h : Queue.enqueue s now id kind subject priority = .ok s') : Continues s s' := by
  rw [Queue.enqueue] at h
  split at h
  · rw [pure_ok] at h
    rw [h]
    exact refl s'
  · rename_i hnew
    simp only [bind_ok, ensure_ok, pure_ok] at h
    obtain ⟨_, hid, rfl⟩ := h
    refine { refl s with tasks := .insert (fun t _ => .refl t) trivial ?_, taskKeys := ?_ }
    · intro t ht heq
      simp only [Bool.not_eq_true', List.any_eq_false, decide_eq_true_eq] at hid
      exact hid t ht heq
    · intro hk
      refine hk.append fun t ht heq => ?_
      simp only [Store.hasTask, List.any_eq_true, Bool.and_eq_true, decide_eq_true_eq,
        not_exists, not_and] at hnew
      rw [TaskRow.dedupKey, TaskRow.dedupKey, Prod.mk.injEq] at heq
      exact hnew t ht heq.1 heq.2

/-! ### Writes to the other tables -/

theorem updateRuns {p : GradingRun → Bool} {f : GradingRun → GradingRun}
    (hf : ∀ g, (f g).id = g.id ∧ SameRun g (f g)) : Continues s (s.updateRuns p f) :=
  { refl s with runs := .update (fun g _ _ => hf g) fun g _ => .refl g }

theorem updateRepositories {p : StudentRepository → Bool}
    {f : StudentRepository → StudentRepository}
    (hf : ∀ r, (f r).id = r.id ∧ SameRepository r (f r) ∧ Untouched r (f r)) :
    Continues s (s.updateRepositories p f) :=
  .of_repositories (.update (fun r _ _ => hf r) fun r _ => ⟨.refl r, .refl r⟩) rfl rfl rfl rfl rfl

theorem markReview (s : Store) (p : StudentRepository → Bool) : Continues s (s.markReview p) :=
  updateRepositories fun _ => ⟨rfl, ⟨rfl, rfl, rfl⟩, rfl, rfl⟩

theorem auditEvent (s : Store) (operator action : String) (target : List Char)
    (reason : String) : Continues s (s.auditEvent operator action target reason) :=
  of_eq rfl rfl rfl rfl rfl rfl

theorem insertEvent {e : SubmissionEvent} (h : Submissions.insertEvent s e = .ok s') :
    Continues s s' := by
  simp only [Submissions.insertEvent, bind_ok, pure_ok] at h
  obtain ⟨_, _, rfl⟩ := h
  exact of_eq rfl rfl rfl rfl rfl rfl

theorem insertSubmission {x : Submission} (hr : ∃ r ∈ s.repositories, r.id = x.repositoryId)
    (h : Submissions.insertSubmission s x = .ok s') : Continues s s' := by
  simp only [Submissions.insertSubmission, bind_ok, ensure_ok, pure_ok] at h
  obtain ⟨_, hnew, rfl⟩ := h
  simp only [Bool.not_eq_true', List.any_eq_false, Bool.or_eq_true, decide_eq_true_eq,
    not_or] at hnew
  exact { refl s with
    submissions := .insert (fun y _ => .refl y) hr fun y hy => (hnew y hy).1
    submissionEvents := fun hk => hk.append fun y hy => (hnew y hy).2 }

theorem insertRun {now : Time} {g : GradingRun} (h : Runs.insertRun s now g = .ok s') :
    Continues s s' := by
  simp only [Runs.insertRun, bind_ok, check_ok, ensure_ok, pure_ok] at h
  obtain ⟨_, _, _, hnew, _, _, rfl⟩ := h
  simp only [Bool.not_eq_true', List.any_eq_false, Bool.or_eq_true, decide_eq_true_eq,
    not_or] at hnew
  exact { refl s with
    runs := .insert (fun y _ => .refl y) trivial fun y hy => (hnew y hy).1 }

/-! ### The operations -/

theorem enqueueSnapshots {now : Time} : ∀ {l : List (Uuid × Bool)} {fresh : Nat → Uuid}
    {s s' : Store}, Submissions.enqueueSnapshots now s fresh l = .ok s' → Continues s s' := by
  intro l
  induction l with
  | nil =>
    intro fresh s s' h
    rw [Submissions.enqueueSnapshots, pure_ok] at h
    rw [h]
    exact refl s'
  | cons e rest ih =>
    obtain ⟨id, final⟩ := e
    intro fresh s s' h
    rw [Submissions.enqueueSnapshots, bind_ok] at h
    obtain ⟨s₁, h₁, h₂⟩ := h
    exact (enqueue h₁).trans (ih h₂)

theorem scheduleSnapshots {now : Time} {fresh : Nat → Uuid} {tie : Uuid → Nat}
    {repository : Uuid}
    (h : Submissions.scheduleSnapshots s now fresh tie repository = .ok s') : Continues s s' := by
  rw [Submissions.scheduleSnapshots, bind_ok] at h
  obtain ⟨r, _, h⟩ := h
  refine trans ?_ (enqueueSnapshots h)
  exact updateTasks fun _ => ⟨rfl, rfl, rfl⟩

theorem record {now : Time} {fresh : Nat → Uuid} {tie : Uuid → Nat} {repository : Uuid}
    {sha : String} {received : Time} {source : EventSource} {delivery : Option Uuid}
    {out : Option Uuid}
    (h : Submissions.record s now fresh tie repository sha received source delivery
      = .ok (s', out)) : Continues s s' := by
  simp only [Submissions.record, bind_ok] at h
  obtain ⟨_, _, p, hp, s₁, h₁, h⟩ := h
  refine (insertEvent h₁).trans ?_
  split at h
  · rw [pure_ok, Prod.mk.injEq] at h
    rw [← h.1]
    split
    · exact markReview _ _
    · exact refl _
  · split at h
    · rw [pure_ok, Prod.mk.injEq] at h
      rw [← h.1]
      exact refl _
    · simp only [bind_ok, pure_ok, Prod.mk.injEq] at h
      obtain ⟨s₂, h₂, s₃, h₃, rfl, _⟩ := h
      obtain ⟨hmem, hid, _⟩ := Store.fetchPinned_ok hp
      have hr : ∃ r ∈ s₁.repositories, r.id = repository := by
        simp only [Submissions.insertEvent, bind_ok, pure_ok] at h₁
        obtain ⟨_, _, rfl⟩ := h₁
        exact ⟨p.repository, hmem, hid⟩
      exact (insertSubmission hr h₂).trans (scheduleSnapshots h₃)

theorem enqueueLock {now : Time} {id repository : Uuid}
    (h : Submissions.enqueueLock s now id repository = .ok s') : Continues s s' := by
  simp only [Submissions.enqueueLock, bind_ok, pure_ok] at h
  obtain ⟨s₁, h₁, rfl⟩ := h
  refine (enqueue h₁).trans ?_
  exact updateTasks fun _ => ⟨rfl, rfl, rfl⟩

/-- Another repository's extension. -/
theorem lookup_upsertExtension {extensions : List Extension} {x : Extension} {id : Uuid}
    (hne : x.repositoryId ≠ id) :
    lookup Extension.repositoryId id (Submissions.upsertExtension extensions x) =
      lookup Extension.repositoryId id extensions := by
  rw [Submissions.upsertExtension]
  split
  · rw [lookup_updateWhere_of_ne fun y _ hy => ?_]
    rw [decide_eq_true_eq] at hy
    rw [hy]
    exact ⟨hne, hne⟩
  · refine lookup_append_of_ne fun y hy => ?_
    rw [List.mem_singleton.mp hy]
    exact hne

theorem extend (hk : Keyed StudentRepository.id s.repositories) {now : Time} {repository : Uuid}
    {deadline : Time} {operator reason : String}
    (h : Submissions.extend s now repository deadline operator reason = .ok s') :
    Continues s s' := by
  simp only [Submissions.extend, Store.fetchPinned, Store.fetchRepository, bind_ok, check_ok,
    fetchOne_ok, pure_ok, Bool.and_eq_true, Bool.not_eq_true'] at h
  obtain ⟨_, _, p, ⟨q, hq, v, _, rfl⟩, _, ⟨⟨hopen, _⟩, _⟩, rfl⟩ := h
  refine { refl s with extensions := fun r hr hclosed => lookup_upsertExtension fun hid => ?_ }
  -- the repository extended is open
  rw [hk.eq hr (mem_of_lookup hq) (hid.symm.trans (key_of_lookup hq).symm), hopen] at hclosed
  cases hclosed

theorem submissionOfEvent {id : Uuid} {e : SubmissionEvent} {out : Uuid}
    (hr : ∃ r ∈ s.repositories, r.id = e.repositoryId)
    (h : Submissions.submissionOfEvent s id e = .ok (s', out)) : Continues s s' := by
  rw [Submissions.submissionOfEvent] at h
  split at h
  · rw [pure_ok, Prod.mk.injEq] at h
    rw [← h.1]
    exact refl _
  · simp only [bind_ok, pure_ok, Prod.mk.injEq] at h
    obtain ⟨s₁, h₁, rfl, _⟩ := h
    exact insertSubmission hr h₁

theorem retainSource {id : Uuid} {hash : String}
    (h : Submissions.retainSource s id hash = .ok s') : Continues s s' := by
  simp only [Submissions.retainSource, bind_ok, pure_ok] at h
  obtain ⟨_, _, rfl⟩ := h
  refine { refl s with
    submissions := .update (fun x _ hx => ⟨rfl, ⟨rfl, rfl, rfl, rfl, ?_⟩⟩) fun x _ => .refl x
    submissionEvents := fun hk => hk.updateWhere fun _ _ => rfl }
  intro d hd
  rw [Bool.and_eq_true, hd] at hx
  cases hx.2

theorem put [Sha256] {kind : String} {bytes : List UInt8} {hash : String}
    (h : Submissions.put s kind bytes = .ok (s', hash)) : Continues s s' := by
  simp only [Submissions.put, bind_ok, pure_ok, Prod.mk.injEq] at h
  obtain ⟨_, _, rfl, _⟩ := h
  split
  · exact refl s
  · exact of_eq rfl rfl rfl rfl rfl rfl

theorem publishes (h : Publishes s s') : Continues s s' where
  repositories := h.repositories.mono
    (fun r _ r' hr => by rw [hr]; exact ⟨⟨rfl, rfl, rfl⟩, rfl, rfl⟩) fun _ hfalse => hfalse.elim
  submissions := .of_eq (by rw [h.rest]) fun x _ => .refl x
  submissionEvents := by rw [h.rest]; exact id
  revisions := h.revisions
  runs := .of_eq (by rw [h.rest]) fun g _ => .refl g
  tasks := .of_eq (by rw [h.rest]) fun t _ => .refl t
  taskKeys := by rw [h.rest]; exact id
  extensions _ _ _ := by rw [h.rest]

theorem overrideGrade {now : Time} {fresh : Nat → Uuid} {repository : Uuid} {points : Int}
    {operator reason : String}
    (h : Submissions.overrideGrade s now fresh repository points operator reason = .ok s') :
    Continues s s' := by
  simp only [Submissions.overrideGrade, bind_ok, pure_ok] at h
  obtain ⟨_, _, _, _, _, _, _, _, _, _, rfl⟩ := h
  exact of_eq rfl rfl rfl rfl rfl rfl

theorem requestRepository {now : Time} {fresh : Nat → Uuid} {githubId : Int}
    {assignment out : Uuid}
    (h : Courses.requestRepository s now fresh githubId assignment = .ok (s', out)) :
    Continues s s' := by
  simp only [Courses.requestRepository, bind_ok] at h
  obtain ⟨a, _, _, _, e, _, current, _, v, _, h⟩ := h
  split at h
  · rw [pure_ok, Prod.mk.injEq] at h
    rw [← h.1]
    exact refl s
  · simp only [bind_ok, ensure_ok, pure_ok, Prod.mk.injEq] at h
    obtain ⟨_, _, _, hnew, s₁, h₁, rfl, _⟩ := h
    simp only [Bool.not_eq_true', List.any_eq_false, Bool.or_eq_true, decide_eq_true_eq,
      not_or] at hnew
    refine trans ?_ (enqueue h₁)
    refine .of_repositories (.insert (fun r _ => ⟨.refl r, .refl r⟩) ⟨rfl, rfl⟩ ?_) rfl rfl rfl rfl rfl
    exact fun r hr => (hnew r hr).1

/-! ### The queue -/

theorem lease_task (s : Store) (now : Time) (locked : List Uuid) (token : Uuid) (owner : String)
    (kinds : List TaskKind) : Continues s (Queue.lease s now locked token owner kinds).1 := by
  rw [Queue.lease]
  split
  · exact refl s
  · exact updateTasks fun _ => ⟨rfl, rfl, rfl⟩

theorem heartbeat {now : Time} {id token : Uuid} {owner : String}
    (h : Queue.heartbeat s now id token owner = .ok s') : Continues s s' := by
  simp only [Queue.heartbeat, bind_ok, pure_ok] at h
  obtain ⟨_, _, rfl⟩ := h
  exact updateTasks fun _ => ⟨rfl, rfl, rfl⟩

theorem finish {now : Time} {task : Task} (h : Queue.finish s now task = .ok s') :
    Continues s s' := by
  simp only [Queue.finish, bind_ok, pure_ok] at h
  obtain ⟨_, _, rfl⟩ := h
  exact updateTasks fun _ => ⟨rfl, rfl, rfl⟩

theorem fail (s : Store) (now : Time) (task : Task) (text : String) :
    Continues s (Queue.fail s now task text) :=
  updateTasks fun _ => ⟨rfl, rfl, rfl⟩

theorem expireExhausted (s : Store) (now : Time) : Continues s (Queue.expireExhausted s now) :=
  updateTasks fun _ => ⟨rfl, rfl, rfl⟩

theorem defer (s : Store) (now : Time) (task : Task) (until_ : Time) :
    Continues s (Queue.defer s now task until_) :=
  updateTasks fun _ => ⟨rfl, rfl, rfl⟩

theorem failPermanently (s : Store) (now : Time) (task : Task) :
    Continues s (Queue.failPermanently s now task) := by
  refine trans ?_ (markReview _ _)
  exact updateTasks fun _ => ⟨rfl, rfl, rfl⟩

theorem retry {now : Time} {task : Uuid} {operator reason : String}
    (h : Queue.retry s now task operator reason = .ok s') : Continues s s' := by
  simp only [Queue.retry, bind_ok, pure_ok] at h
  obtain ⟨_, _, _, _, rfl⟩ := h
  refine trans ?_ (auditEvent _ _ _ _ _)
  exact updateTasks fun _ => ⟨rfl, rfl, rfl⟩

/-! ### Grading runs -/

theorem markFailed (s : Store) : Continues s (Runs.markFailed s) :=
  updateRuns fun _ => ⟨rfl, ⟨rfl, rfl, rfl, rfl⟩⟩

theorem displace (s : Store) (repository submission : Uuid) :
    Continues s (Runs.displace s repository submission) := by
  refine trans ?_ (updateRuns fun _ => ⟨rfl, ⟨rfl, rfl, rfl, rfl⟩⟩)
  exact updateTasks fun _ => ⟨rfl, rfl, rfl⟩

theorem enqueueRun {now : Time} {fresh : Nat → Uuid} {submission : Uuid} {regrade : Bool}
    {out : Uuid} (h : Runs.enqueueRun s now fresh submission regrade = .ok (s', out)) :
    Continues s s' := by
  simp only [Runs.enqueueRun, bind_ok] at h
  obtain ⟨x, _, r, _, _, _, h⟩ := h
  split at h
  · rw [pure_ok, Prod.mk.injEq] at h
    rw [← h.1]
    exact refl s
  · simp only [bind_ok] at h
    obtain ⟨latest, _, attempt, _, s₁, h₁, h⟩ := h
    refine (insertRun h₁).trans ?_
    split at h
    · rw [pure_ok, Prod.mk.injEq] at h
      rw [← h.1]
      exact refl s₁
    · simp only [bind_ok, pure_ok, Prod.mk.injEq] at h
      obtain ⟨s₂, h₂, rfl, _⟩ := h
      exact (displace _ _ _).trans (enqueue h₂)

theorem insertPrivate {now : Time} {fresh : Nat → Uuid} {submission : Uuid} {revision : String}
    {attempt : Int} {baseline out : Uuid}
    (h : Runs.insertPrivate s now fresh submission revision attempt baseline = .ok (s', out)) :
    Continues s s' := by
  simp only [Runs.insertPrivate, bind_ok, pure_ok, Prod.mk.injEq] at h
  obtain ⟨s₁, h₁, s₂, h₂, rfl, _⟩ := h
  exact (insertRun h₁).trans (enqueue h₂)

theorem enqueuePrivate {now : Time} {fresh : Nat → Uuid} {repository : Uuid}
    {operator reason : String} {out : Runs.PrivateOutcome}
    (h : Runs.enqueuePrivateRepository s now fresh repository operator reason = .ok (s', out)) :
    Continues s s' := by
  simp only [Runs.enqueuePrivateRepository, bind_ok] at h
  obtain ⟨p, _, h⟩ := h
  split at h
  · rw [pure_ok, Prod.mk.injEq] at h
    rw [← h.1]
    exact refl s
  · split at h
    · rw [pure_ok, Prod.mk.injEq] at h
      rw [← h.1]
      exact refl s
    · simp only [bind_ok] at h
      obtain ⟨v, _, definition, _, _, _, h⟩ := h
      split at h
      · rw [pure_ok, Prod.mk.injEq] at h
        rw [← h.1]
        exact refl s
      · simp only [bind_ok, pure_ok, Prod.mk.injEq] at h
        obtain ⟨attempt, _, ⟨s₁, run⟩, h₁, rfl, _⟩ := h
        exact (insertPrivate h₁).trans (auditEvent _ _ _ _ _)

theorem retryPrivate {now : Time} {fresh : Nat → Uuid} {failed : Uuid}
    {operator reason : String} {out : Uuid}
    (h : Runs.retryPrivate s now fresh failed operator reason = .ok (s', out)) :
    Continues s s' := by
  simp only [Runs.retryPrivate, bind_ok, pure_ok, Prod.mk.injEq] at h
  obtain ⟨_, _, g, _, x, _, latest, _, _, _, baseline, _, attempt, _, ⟨s₁, run⟩, h₁, rfl, _⟩ := h
  exact (insertPrivate h₁).trans (auditEvent _ _ _ _ _)

theorem lease {now : Time} {locked : List Uuid} {token : Uuid} {worker : Worker}
    {requested : List String} {out : Option Uuid}
    (h : Runs.lease s now locked token worker requested = .ok (s', out)) : Continues s s' := by
  simp only [Runs.lease, bind_ok] at h
  obtain ⟨caps, _, h⟩ := h
  split at h
  · rw [pure_ok, Prod.mk.injEq] at h
    rw [← h.1]
    exact refl s
  · split at h
    · rw [pure_ok, Prod.mk.injEq] at h
      rw [← h.1]
      exact refl s
    · rw [pure_ok, Prod.mk.injEq] at h
      rw [← h.1]
      refine trans ?_ (updateRuns fun _ => ⟨rfl, ⟨rfl, rfl, rfl, rfl⟩⟩)
      exact updateTasks fun _ => ⟨rfl, rfl, rfl⟩

theorem commitResult [Sha256] (s : Store) (call : Runs.AcceptCall) :
    Continues s (Runs.commitResult s call) :=
  { refl s with
    repositories := (markReview s _).repositories
    submissions := (markReview s _).submissions
    runs := .update (fun _ _ _ => ⟨rfl, ⟨rfl, rfl, rfl, rfl⟩⟩) fun g _ => .refl g
    tasks := .update (fun _ _ _ => ⟨rfl, ⟨rfl, rfl⟩⟩) fun t _ => .refl t
    taskKeys := fun hk => hk.updateWhere fun _ _ => rfl }

theorem acceptCommit [Sha256] {now : Time} {fresh : Nat → Uuid} {call : Runs.AcceptCall}
    (h : Runs.acceptCommit s now fresh call = .ok s') : Continues s s' := by
  simp only [Runs.acceptCommit, bind_ok] at h
  obtain ⟨t, _, h⟩ := h
  split at h
  · simp only [bind_ok, pure_ok] at h
    obtain ⟨_, _, _, _, rfl⟩ := h
    exact refl s
  · simp only [bind_ok] at h
    obtain ⟨_, _, _, _, h⟩ := h
    exact (commitResult s call).trans (enqueue h)

end Continues

end Grading

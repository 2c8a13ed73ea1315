import SrgGrading.Store.Closure

/-!
# What a step does to the grading queue

The grading queue is the runs with the tasks of kind `grade`.  `GradeStep` lists
what a transaction can do to it; every invariant of the queue is a case
analysis of this list.

* `exec_grade`, `Sys.Step.gradeStep`: every step of the system is a `GradeStep`.
-/

open Fallible Relational

namespace Grading

/-- The tasks that grade runs. -/
def Store.gradeTasks (s : Store) : List TaskRow := s.tasks.filter fun t => t.kind = .grade

/-- Neither runs nor their tasks change. -/
structure Idle (s s' : Store) : Prop where
  runs : s'.runs = s.runs
  tasks : s'.gradeTasks = s.gradeTasks

/-! ### Operations that leave the queue alone -/

namespace Idle

variable {s s' s'' : Store} {now : Time}

theorem of_eq (hg : s'.runs = s.runs) (ht : s'.tasks = s.tasks) : Idle s s' :=
  ⟨hg, by rw [Store.gradeTasks, ht, Store.gradeTasks]⟩

theorem refl (s : Store) : Idle s s := of_eq rfl rfl

theorem trans (h : Idle s s') (h' : Idle s' s'') : Idle s s'' :=
  ⟨h'.runs.trans h.runs, h'.tasks.trans h.tasks⟩

theorem updateTasks {p : TaskRow → Bool} {f : TaskRow → TaskRow}
    (h : ∀ t ∈ s.tasks, p t = true → t.kind ≠ .grade ∧ (f t).kind = t.kind) :
    Idle s (s.updateTasks p f) := by
  refine ⟨rfl, filter_updateWhere fun t ht hp => ?_⟩
  obtain ⟨hne, hkind⟩ := h t ht hp
  rw [hkind]
  exact ⟨decide_eq_false hne, decide_eq_false hne⟩

theorem markReview (s : Store) (p : StudentRepository → Bool) : Idle s (s.markReview p) :=
  of_eq rfl rfl

theorem auditEvent (s : Store) (operator action : String) (target : List Char)
    (reason : String) : Idle s (s.auditEvent operator action target reason) :=
  of_eq rfl rfl

theorem enqueue {id subject : Uuid} {kind : TaskKind} {priority : Int} (hne : kind ≠ .grade)
    (h : Queue.enqueue s now id kind subject priority = .ok s') : Idle s s' := by
  rw [Queue.enqueue] at h
  split at h
  · rw [pure_ok] at h
    rw [h]
    exact refl s'
  · simp only [bind_ok, pure_ok] at h
    obtain ⟨_, _, rfl⟩ := h
    refine ⟨rfl, ?_⟩
    have hnew : (TaskRow.new id kind subject priority now).kind ≠ .grade := hne
    rw [Store.gradeTasks, List.filter_append, List.filter_singleton, decide_eq_false hnew]
    exact List.append_nil _

theorem enqueueSnapshots : ∀ {l : List (Uuid × Bool)} {fresh : Nat → Uuid} {s s' : Store},
    Submissions.enqueueSnapshots now s fresh l = .ok s' → Idle s s' := by
  intro l
  induction l with
  | nil =>
    intro fresh s s' h
    rw [Submissions.enqueueSnapshots, pure_ok] at h
    rw [h]
    exact refl s'
  | cons e rest ih =>
    obtain ⟨id, final⟩ := e
    intro fresh s s' h
    rw [Submissions.enqueueSnapshots, bind_ok] at h
    obtain ⟨s₁, h₁, h₂⟩ := h
    exact (enqueue (by decide) h₁).trans (ih h₂)

theorem scheduleSnapshots {fresh : Nat → Uuid} {tie : Uuid → Nat} {repository : Uuid}
    (h : Submissions.scheduleSnapshots s now fresh tie repository = .ok s') : Idle s s' := by
  rw [Submissions.scheduleSnapshots, bind_ok] at h
  obtain ⟨r, _, h⟩ := h
  refine trans (updateTasks fun t _ hp => ?_) (enqueueSnapshots h)
  simp only [Submissions.outdated, Bool.and_eq_true, decide_eq_true_eq] at hp
  rw [hp.1.1]
  exact ⟨by decide, rfl⟩

theorem enqueueLock {id repository : Uuid}
    (h : Submissions.enqueueLock s now id repository = .ok s') : Idle s s' := by
  simp only [Submissions.enqueueLock, bind_ok, pure_ok] at h
  obtain ⟨s₁, h₁, rfl⟩ := h
  refine (enqueue (by decide) h₁).trans (updateTasks fun t _ hp => ?_)
  simp only [Bool.and_eq_true, decide_eq_true_eq] at hp
  rw [hp.1.1]
  exact ⟨by decide, rfl⟩

theorem record {fresh : Nat → Uuid} {tie : Uuid → Nat} {repository : Uuid} {sha : String}
    {received : Time} {source : EventSource} {delivery out : Option Uuid}
    (h : Submissions.record s now fresh tie repository sha received source delivery
      = .ok (s', out)) : Idle s s' := by
  simp only [Submissions.record, Submissions.insertEvent, bind_ok, pure_ok] at h
  obtain ⟨_, _, p, _, s₁, ⟨_, _, rfl⟩, h⟩ := h
  split at h
  · rw [pure_ok, Prod.mk.injEq] at h
    rw [← h.1]
    split <;> exact of_eq rfl rfl
  · split at h
    · rw [pure_ok, Prod.mk.injEq] at h
      rw [← h.1]
      exact of_eq rfl rfl
    · simp only [Submissions.insertSubmission, bind_ok, pure_ok, Prod.mk.injEq] at h
      obtain ⟨s₂, ⟨_, _, rfl⟩, s₃, h₃, rfl, _⟩ := h
      refine trans ?_ (scheduleSnapshots h₃)
      exact of_eq rfl rfl

theorem extend {repository : Uuid} {deadline : Time} {operator reason : String}
    (h : Submissions.extend s now repository deadline operator reason = .ok s') :
    Idle s s' := by
  simp only [Submissions.extend, bind_ok, pure_ok] at h
  obtain ⟨_, _, p, _, _, _, rfl⟩ := h
  exact of_eq rfl rfl

theorem selectSubmission {fresh : Nat → Uuid} {event out : Uuid} {operator reason : String}
    (h : Submissions.selectSubmission s now fresh event operator reason = .ok (s', out)) :
    Idle s s' := by
  simp only [Submissions.selectSubmission, bind_ok, pure_ok, Prod.mk.injEq] at h
  obtain ⟨_, _, e, _, r, _, _, _, ⟨s₁, id⟩, h₁, _, _, s₂, h₂, rfl, _⟩ := h
  have hs₁ : Idle s s₁ := by
    rw [Submissions.submissionOfEvent] at h₁
    split at h₁
    · rw [pure_ok, Prod.mk.injEq] at h₁
      rw [← h₁.1]
      exact refl s
    · simp only [bind_ok, pure_ok, Prod.mk.injEq, Submissions.insertSubmission] at h₁
      obtain ⟨_, ⟨_, _, rfl⟩, rfl, _⟩ := h₁
      exact of_eq rfl rfl
  refine hs₁.trans (trans ?_ (enqueue (by decide) h₂))
  exact of_eq rfl rfl

theorem put [Sha256] {kind : String} {bytes : List UInt8} {hash : String}
    (h : Submissions.put s kind bytes = .ok (s', hash)) : Idle s s' := by
  simp only [Submissions.put, bind_ok, pure_ok, Prod.mk.injEq] at h
  obtain ⟨_, _, rfl, _⟩ := h
  split <;> exact of_eq rfl rfl

theorem retainSource {id : Uuid} {hash : String}
    (h : Submissions.retainSource s id hash = .ok s') : Idle s s' := by
  simp only [Submissions.retainSource, bind_ok, pure_ok] at h
  obtain ⟨_, _, rfl⟩ := h
  exact of_eq rfl rfl

theorem publishes (h : Publishes s s') : Idle s s' :=
  of_eq (by rw [h.rest]) (by rw [h.rest])

theorem overrideGrade {fresh : Nat → Uuid} {repository : Uuid} {points : Int}
    {operator reason : String}
    (h : Submissions.overrideGrade s now fresh repository points operator reason = .ok s') :
    Idle s s' := by
  simp only [Submissions.overrideGrade, bind_ok, pure_ok] at h
  obtain ⟨_, _, _, _, _, _, _, _, _, _, rfl⟩ := h
  exact of_eq rfl rfl

theorem requestRepository {fresh : Nat → Uuid} {githubId : Int} {assignment out : Uuid}
    (h : Courses.requestRepository s now fresh githubId assignment = .ok (s', out)) :
    Idle s s' := by
  simp only [Courses.requestRepository, bind_ok] at h
  obtain ⟨a, _, _, _, e, _, current, _, v, _, h⟩ := h
  split at h
  · rw [pure_ok, Prod.mk.injEq] at h
    rw [← h.1]
    exact refl s
  · simp only [bind_ok, pure_ok, Prod.mk.injEq] at h
    obtain ⟨_, _, _, _, s₁, h₁, rfl, _⟩ := h
    refine trans ?_ (enqueue (by decide) h₁)
    exact of_eq rfl rfl

/-! The writes of a control worker to its own task. -/

theorem lease {locked : List Uuid} {token : Uuid} {owner : String} {kinds : List TaskKind}
    (hk : Keys s) (hkinds : kinds.contains .grade = false) :
    Idle s (Queue.lease s now locked token owner kinds).1 := by
  rw [Queue.lease]
  split
  · exact refl s
  · rename_i t ht
    have hmem := List.argmin_mem ht
    rw [List.mem_filter, Bool.and_eq_true, Bool.and_eq_true] at hmem
    refine updateTasks fun u hu hid => ⟨?_, rfl⟩
    rw [hk.tasks.eq hu hmem.1 (of_decide_eq_true hid)]
    intro hgrade
    rw [hgrade, hkinds] at hmem
    cases hmem.2.1.1

/-- A row that a control worker holds is no grade task. -/
theorem control {id token : Uuid} (hc : controlTask s id = true) {t : TaskRow}
    (ht : t ∈ s.tasks) (hheld : Queue.holds now id token t = true) : t.kind ≠ .grade := by
  simp only [controlTask, List.all_eq_true, Bool.or_eq_true, decide_eq_true_eq] at hc
  simp only [Queue.holds, Bool.and_eq_true, decide_eq_true_eq] at hheld
  rcases hc t ht with h | h
  · exact absurd hheld.1.1.1 h
  · exact h

theorem finish {task : Task} (hc : controlTask s task.id = true)
    (h : Queue.finish s now task = .ok s') : Idle s s' := by
  simp only [Queue.finish, bind_ok, pure_ok] at h
  obtain ⟨_, _, rfl⟩ := h
  exact updateTasks fun t ht hheld => ⟨control hc ht hheld, rfl⟩

theorem fail {task : Task} {text : String} (hc : controlTask s task.id = true) :
    Idle s (Queue.fail s now task text) :=
  updateTasks fun _ ht hheld => ⟨control hc ht hheld, rfl⟩

theorem failPermanently {task : Task} (hc : controlTask s task.id = true) :
    Idle s (Queue.failPermanently s now task) := by
  refine trans ?_ (markReview _ _)
  exact updateTasks fun _ ht hheld => ⟨control hc ht hheld, rfl⟩

theorem defer {task : Task} {until_ : Time} (hc : controlTask s task.id = true) :
    Idle s (Queue.defer s now task until_) :=
  updateTasks fun _ ht hheld => ⟨control hc ht hheld, rfl⟩

theorem retry {task : Uuid} {operator reason : String}
    (h : Queue.retry s now task operator reason = .ok s') : Idle s s' := by
  simp only [Queue.retry, bind_ok, pure_ok] at h
  obtain ⟨_, _, _, _, rfl⟩ := h
  refine trans ?_ (auditEvent _ _ _ _ _)
  refine updateTasks fun t _ hp => ⟨fun hgrade => ?_, rfl⟩
  simp only [hgrade, Bool.and_eq_true] at hp
  cases hp.2

end Idle

/-! ### Operations on the queue -/

/-- A run as it is inserted. -/
structure NewRun (s : Store) (g : GradingRun) : Prop where
  id : ∀ h ∈ s.runs, h.id ≠ g.id
  attempt : ∀ h ∈ s.runs, h.submissionId = g.submissionId → h.attempt < g.attempt
  ungraded : g = Runs.newRun g.id g.submissionId g.revisionDigest g.attempt g.status g.publicRunId
  submission : ∃ x ∈ s.submissions, x.id = g.submissionId

/-- Why a private run may be inserted for `baseline`. -/
structure PrivateRun (s : Store) (g : GradingRun) (baseline : Uuid) : Prop where
  isPrivate : g.publicRunId = some baseline
  graded : ∃ b ∈ s.runs, b.id = baseline ∧ b.submissionId = g.submissionId ∧
    b.publicRunId = none ∧ b.status = .completed ∧ b.points.isSome = true
  first_or_failed :
    ((∃ r ∈ s.repositories, r.finalSubmissionId = some g.submissionId) ∧
      ∀ h ∈ s.runs, h.publicRunId = some baseline → h.revisionDigest ≠ g.revisionDigest) ∨
    (∃ f ∈ s.runs, f.publicRunId = some baseline ∧ f.submissionId = g.submissionId ∧
      f.revisionDigest = g.revisionDigest ∧
      (f.status = .infrastructureFailed ∨ f.status = .timedOut) ∧
      ∀ h ∈ s.runs, h.submissionId = g.submissionId → h.attempt ≤ f.attempt)

/-- A call of `enqueue_run` that queues a run: `submission` has no public run yet
or is regraded, and it is not superseded from the start. -/
structure Queues (s : Store) (submission : Uuid) (regrade : Bool) (r : StudentRepository) :
    Prop where
  owner : ∃ x, s.fetchSubmission submission = .ok x ∧ s.fetchRepository x.repositoryId = .ok r
  ungraded : regrade = true ∨ Runs.latestRun s submission (fun g => g.publicRunId.isNone) = none
  current : ∃ latest, s.newest r.id = some latest ∧
    Runs.superseded s r latest.id submission regrade = false

theorem Queues.row {s : Store} {submission : Uuid} {regrade : Bool} {r : StudentRepository}
    (h : Queues s submission regrade r) :
    r ∈ s.repositories ∧ ∃ x ∈ s.submissions, x.id = submission ∧ x.repositoryId = r.id := by
  obtain ⟨x, hx, hr⟩ := h.owner
  rw [Store.fetchSubmission, fetchOne_ok] at hx
  obtain ⟨hmem, hid⟩ := Store.fetchRepository_ok hr
  exact ⟨hmem, x, mem_of_lookup hx, key_of_lookup hx, hid.symm⟩

theorem Queues.unique {s : Store} {submission : Uuid} {regrade : Bool} {r r' : StudentRepository}
    (h : Queues s submission regrade r) (h' : Queues s submission regrade r') : r = r' := by
  obtain ⟨x, hx, hr⟩ := h.owner
  obtain ⟨x', hx', hr'⟩ := h'.owner
  rw [hx, Except.ok.injEq] at hx'
  rw [← hx', hr, Except.ok.injEq] at hr'
  exact hr'

/-- No worker is busy for the enrollment of a task, and `owner` is not busy. -/
structure Free (s : Store) (now : Time) (owner : String) (t : TaskRow) : Prop where
  owner : ∀ b ∈ s.tasks, Runs.busy now b = true → b.leaseOwner ≠ some owner
  enrollment : ∀ b ∈ s.tasks, Runs.busy now b = true →
    (Runs.enrollmentOfRun s b.subject).isSome = true →
      Runs.enrollmentOfRun s b.subject ≠ Runs.enrollmentOfRun s t.subject

/-- The call whose result the transaction `op` records: its last transaction
succeeds, and its task was not done yet. -/
def recording [Sha256] (calls : List Runs.AcceptCall) (s : Store) (now : Time) :
    Op → Option Runs.AcceptCall
  | .acceptCommit i fresh => calls[i]?.filter fun call => call.stage = .stored &&
      (Runs.acceptCommit s now fresh call).isOk &&
        s.tasks.any fun t => t.id = call.task && t.status ≠ .done
  | _ => none

theorem mem_of_recording [Sha256] {calls : List Runs.AcceptCall} {s : Store} {now : Time} {op : Op}
    {call : Runs.AcceptCall} (h : recording calls s now op = some call) : call ∈ calls := by
  cases op with
  | acceptCommit i fresh =>
    rw [recording, Option.filter_eq_some_iff] at h
    exact List.mem_of_getElem? h.1
  | _ => cases h

/-- What the transaction `op` at `now` can do to the grading queue.  `calls` are
the calls of `accept` in flight. -/
inductive GradeStep [Sha256] (calls : List Runs.AcceptCall) (now : Time) (op : Op)
    (s s' : Store) : Prop
  | idle (h : Idle s s')
  /-- A repository is closed, and the tasks of its final submission revived. -/
  | revived (r : StudentRepository) (x : Submission) (hr : r ∈ s.repositories)
      (hopen : r.closureDue = false) (hx : x ∈ s.submissions) (hrep : x.repositoryId = r.id)
      (runs : s'.runs = s.runs)
      (tasks : s'.gradeTasks =
        updateWhere (Submissions.ofFinal s x.id) (Submissions.revive now) s.gradeTasks)
  | heartbeat (held : TaskRow → Bool) (until_ : Time)
      (hheld : ∀ t, held t = true → t.status = .leased ∧ t.live now = true)
      (runs : s'.runs = s.runs)
      (tasks : s'.gradeTasks =
        updateWhere held (fun t => { t with leaseUntil := some until_ }) s.gradeTasks)
  | expired (runs : s'.runs = s.runs)
      (tasks : s'.gradeTasks =
        updateWhere (fun t => t.status = .leased && t.expired now && 8 ≤ t.attempts)
          (fun t => { t with status := .failed, lastError := some "retry budget exhausted" })
          s.gradeTasks)
  | leased (t : TaskRow) (owner : String) (token : Uuid) (ht : t ∈ s.gradeTasks)
      (hready : t.ready now = true) (hfree : Free s now owner t)
      (runs : s'.runs = updateWhere (fun g => g.id = t.subject)
        (fun g => { g with status := .running }) s.runs)
      (tasks : s'.gradeTasks =
        updateWhere (fun u => u.id = t.id) (fun u => u.leaseTo owner token now) s.gradeTasks)
  | recorded (call : Runs.AcceptCall) (t : TaskRow)
      (hrec : recording calls s now op = some call)
      (ht : t ∈ s.tasks) (hid : t.id = call.task)
      (htoken : t.leaseToken = some call.result.leaseToken)
      (howner : t.leaseOwner = some call.worker.id) (hleased : t.status = .leased)
      (hlive : t.live now = true)
      (runs : s'.runs =
        updateWhere (fun g => g.id = call.result.runId) (Runs.recordResult call) s.runs)
      (tasks : s'.gradeTasks =
        updateWhere (fun u => u.id = call.task) (fun u => { u with status := .done }) s.gradeTasks)
  /-- A public run is inserted that nobody will grade. -/
  | skipped (g : GradingRun) (hnew : NewRun s g) (hpublic : g.publicRunId = none)
      (hstatus : g.status = .superseded) (runs : s'.runs = s.runs ++ [g])
      (tasks : s'.gradeTasks = s.gradeTasks)
  /-- A public run is queued in place of those of other submissions. -/
  | queued (g : GradingRun) (t : TaskRow) (r : StudentRepository) (regrade : Bool)
      (hop : ∃ fresh, op = .store (.enqueueRun fresh g.submissionId regrade))
      (hqueues : Queues s g.submissionId regrade r) (hnew : NewRun s g)
      (hpublic : g.publicRunId = none) (hstatus : g.status = .pending)
      (ht : t.subject = g.id ∧ t.status = .pending)
      (runs : s'.runs = updateWhere (fun h => h.status = .pending &&
          (updateWhere (Runs.displaced s r.id g.submissionId)
            (fun u => { u with status := .cancelled }) s.gradeTasks).any fun u =>
              u.status = .cancelled && u.subject = h.id)
        (fun h => { h with status := .superseded }) s.runs ++ [g])
      (tasks : s'.gradeTasks = updateWhere (Runs.displaced s r.id g.submissionId)
        (fun u => { u with status := .cancelled }) s.gradeTasks ++ [t])
  | queuedPrivate (g : GradingRun) (t : TaskRow) (baseline : Uuid) (hnew : NewRun s g)
      (hprivate : PrivateRun s g baseline) (hstatus : g.status = .pending)
      (ht : t.subject = g.id ∧ t.status = .pending) (runs : s'.runs = s.runs ++ [g])
      (tasks : s'.gradeTasks = s.gradeTasks ++ [t])
  /-- Runs whose task failed are failed. -/
  | failed (runs : s'.runs = updateWhere (fun g => (g.status = .pending || g.status = .running) &&
        s.gradeTasks.any fun t => t.status = .failed && t.subject = g.id)
          (fun g => { g with status := .infrastructureFailed }) s.runs)
      (tasks : s'.gradeTasks = s.gradeTasks)

section Operations
variable {s s' : Store} {now : Time}

/-- An update of tasks that keeps their kind, on the grade tasks. -/
theorem gradeTasks_updateTasks {p : TaskRow → Bool} {f : TaskRow → TaskRow}
    (hf : ∀ t, (f t).kind = t.kind) :
    (s.updateTasks p f).gradeTasks = updateWhere p f s.gradeTasks :=
  filter_updateWhere_comm fun t _ _ => by rw [hf]

theorem mem_gradeTasks {t : TaskRow} : t ∈ s.gradeTasks ↔ t ∈ s.tasks ∧ t.kind = .grade := by
  rw [Store.gradeTasks, List.mem_filter, decide_eq_true_eq]

/-- The tasks alone are counted, whatever their kind is asked to be. -/
theorem any_gradeTasks {p : TaskRow → Bool} :
    s.gradeTasks.any p = s.tasks.any fun t => t.kind = .grade && p t := by
  rw [Store.gradeTasks, List.any_filter]

/-- Every grade task names a run. -/
def Owned (s : Store) : Prop := ∀ t ∈ s.gradeTasks, ∃ g ∈ s.runs, g.id = t.subject

/-- A task for a run that has none. -/
theorem enqueue_grade {id run : Uuid} {priority : Int} (hnew : ∀ t ∈ s.gradeTasks, t.subject ≠ run)
    (h : Queue.enqueue s now id .grade run priority = .ok s') :
    s'.runs = s.runs ∧ s'.gradeTasks = s.gradeTasks ++ [TaskRow.new id .grade run priority now] := by
  rw [Queue.enqueue] at h
  split at h
  · rename_i hhas
    simp only [Store.hasTask, List.any_eq_true, Bool.and_eq_true, decide_eq_true_eq] at hhas
    obtain ⟨t, ht, hkind, hsub⟩ := hhas
    exact absurd hsub (hnew t (mem_gradeTasks.mpr ⟨ht, hkind⟩))
  · simp only [bind_ok, pure_ok] at h
    obtain ⟨_, _, rfl⟩ := h
    refine ⟨rfl, ?_⟩
    rw [Store.gradeTasks, List.filter_append, List.filter_singleton]
    rfl

theorem nextAttempt_spec {submission : Uuid} {attempt : Int}
    (h : Runs.nextAttempt s submission = .ok attempt) :
    ∀ g ∈ s.runs, g.submissionId = submission → g.attempt < attempt := by
  simp only [Runs.nextAttempt, addInteger, bind_ok, pure_ok] at h
  obtain ⟨_, _, rfl⟩ := h
  intro g hg hsub
  have hmem : g.attempt ∈ (s.runs.filter fun g => g.submissionId = submission).map
      GradingRun.attempt :=
    List.mem_map_of_mem (List.mem_filter.mpr ⟨hg, decide_eq_true hsub⟩)
  cases hmax : ((s.runs.filter fun g => g.submissionId = submission).map
      GradingRun.attempt).max? with
  | none => rw [List.max?_eq_none_iff.mp hmax] at hmem; cases hmem
  | some m =>
    have hle := (List.max?_eq_some_iff.mp hmax).2 _ hmem
    rw [Option.getD_some]
    omega

theorem insertRun_spec {g : GradingRun} (h : Runs.insertRun s now g = .ok s') :
    s' = { s with runs := s.runs ++ [g] } ∧ (∀ h ∈ s.runs, h.id ≠ g.id) ∧
      ∀ b, g.publicRunId = some b → Runs.validBaseline s now g.submissionId b = true := by
  simp only [Runs.insertRun, bind_ok, check_ok, ensure_ok, pure_ok] at h
  obtain ⟨_, hbase, _, hnew, _, _, rfl⟩ := h
  simp only [Bool.not_eq_true', List.any_eq_false, Bool.or_eq_true, decide_eq_true_eq,
    not_or] at hnew
  refine ⟨rfl, fun h hh => (hnew h hh).1, fun b hb => ?_⟩
  rw [hb] at hbase
  exact hbase

/-- A run of `submission` displaces nothing there. -/
theorem displaced_insert {repository submission : Uuid} {g : GradingRun}
    (hg : g.submissionId = submission) :
    Runs.displaced { s with runs := s.runs ++ [g] } repository submission =
      Runs.displaced s repository submission := by
  funext t
  simp only [Runs.displaced, List.any_append, List.any_cons, List.any_nil, Bool.or_false, hg,
    ne_eq, not_true_eq_false, decide_false, Bool.and_false, Bool.false_and]
  rfl

/-- What `displace` does after a run of `submission` is inserted. -/
theorem displace_spec (hown : Owned s) (repository submission : Uuid) {g : GradingRun}
    (hg : g.submissionId = submission) (hnew : ∀ h ∈ s.runs, h.id ≠ g.id) :
    (Runs.displace { s with runs := s.runs ++ [g] } repository submission).gradeTasks =
      updateWhere (Runs.displaced s repository submission)
        (fun u => { u with status := .cancelled }) s.gradeTasks ∧
    (Runs.displace { s with runs := s.runs ++ [g] } repository submission).runs =
      updateWhere (fun h => h.status = .pending &&
          (updateWhere (Runs.displaced s repository submission)
            (fun u => { u with status := .cancelled }) s.gradeTasks).any fun u =>
              u.status = .cancelled && u.subject = h.id)
        (fun h => { h with status := .superseded }) s.runs ++ [g] := by
  have htasks : (Runs.displace { s with runs := s.runs ++ [g] } repository submission).gradeTasks =
      updateWhere (Runs.displaced s repository submission)
        (fun u => { u with status := .cancelled }) s.gradeTasks := by
    rw [← displaced_insert hg]
    exact gradeTasks_updateTasks fun _ => rfl
  refine ⟨htasks, ?_⟩
  have hstranded : Runs.stranded (({ s with runs := s.runs ++ [g] } : Store).updateTasks
      (Runs.displaced { s with runs := s.runs ++ [g] } repository submission)
        fun u => { u with status := .cancelled }) =
      fun h => h.status = .pending &&
        (updateWhere (Runs.displaced s repository submission)
          (fun u => { u with status := .cancelled }) s.gradeTasks).any fun u =>
            u.status = .cancelled && u.subject = h.id := by
    funext h
    rw [Runs.stranded, ← htasks, any_gradeTasks]
    simp only [← Bool.and_assoc]
    rfl
  -- no task names the new run, so it is not stranded
  have hlast : (updateWhere (Runs.displaced s repository submission)
      (fun u => { u with status := .cancelled }) s.gradeTasks).any (fun u =>
        decide (u.status = .cancelled) && decide (u.subject = g.id)) = false := by
    rw [List.any_eq_false]
    intro u hu hsub
    rw [Bool.and_eq_true, decide_eq_true_eq, decide_eq_true_eq] at hsub
    obtain ⟨t, ht, rfl⟩ := mem_updateWhere.mp hu
    obtain ⟨h, hh, hid⟩ := hown t ht
    refine hnew h hh (hid.trans ?_)
    have hsame : t.subject = (if Runs.displaced s repository submission t then
        { t with status := .cancelled } else t).subject := by
      split <;> rfl
    exact hsame.trans hsub.2
  have hruns : (Runs.displace { s with runs := s.runs ++ [g] } repository submission).runs =
      updateWhere (Runs.stranded (({ s with runs := s.runs ++ [g] } : Store).updateTasks
        (Runs.displaced { s with runs := s.runs ++ [g] } repository submission)
          fun u => { u with status := .cancelled }))
        (fun h => { h with status := .superseded }) (s.runs ++ [g]) := rfl
  rw [hruns, hstranded, updateWhere_append, updateWhere_singleton, hlast, Bool.and_false]
  rfl

/-- **What `enqueue_run` does**: nothing, insert a run nobody will grade, or queue
one in place of those of the repository's other submissions. -/
theorem enqueueRun_cases (hown : Owned s) {fresh : Nat → Uuid} {submission : Uuid}
    {regrade : Bool} {out : Uuid}
    (h : Runs.enqueueRun s now fresh submission regrade = .ok (s', out)) :
    ((∀ r, ¬ Queues s submission regrade r) ∧ s' = s) ∨
    ∃ g, NewRun s g ∧ g.submissionId = submission ∧ g.publicRunId = none ∧
      (((∀ r, ¬ Queues s submission regrade r) ∧ g.status = .superseded ∧
          s'.runs = s.runs ++ [g] ∧ s'.gradeTasks = s.gradeTasks) ∨
        ∃ r, Queues s submission regrade r ∧ g.status = .pending ∧
          s'.runs = updateWhere (fun h => h.status = .pending &&
              (updateWhere (Runs.displaced s r.id submission)
                (fun u => { u with status := .cancelled }) s.gradeTasks).any fun u =>
                  u.status = .cancelled && u.subject = h.id)
            (fun h => { h with status := .superseded }) s.runs ++ [g] ∧
          ∃ t : TaskRow, t.subject = g.id ∧ t.status = .pending ∧
            s'.gradeTasks = updateWhere (Runs.displaced s r.id submission)
              (fun u => { u with status := .cancelled }) s.gradeTasks ++ [t]) := by
  simp only [Runs.enqueueRun, bind_ok] at h
  obtain ⟨x, hx, r, hr, _, _, h⟩ := h
  split at h
  · rename_i g hg
    rw [Option.filter_eq_some_iff, Bool.not_eq_true'] at hg
    rw [pure_ok, Prod.mk.injEq] at h
    refine Or.inl ⟨fun q hq => ?_, h.1.symm⟩
    rcases hq.ungraded with hre | hnone
    · rw [hg.2] at hre
      cases hre
    · rw [hg.1] at hnone
      cases hnone
  · rename_i hlatest
    simp only [bind_ok, fetchOne_ok] at h
    obtain ⟨latest, hnewest, attempt, hattempt, s₁, h₁, h⟩ := h
    obtain ⟨rfl, hnew, _⟩ := insertRun_spec h₁
    have hrun : NewRun s (Runs.newRun (fresh 0) submission r.gradingRevision attempt
        (if Runs.superseded s r latest.id submission regrade then .superseded else .pending)
        none) :=
      ⟨hnew, nextAttempt_spec hattempt, rfl, x, mem_of_lookup (fetchOne_ok.mp hx),
        key_of_lookup (fetchOne_ok.mp hx)⟩
    refine Or.inr ⟨_, hrun, rfl, rfl, ?_⟩
    by_cases hskip : Runs.superseded s r latest.id submission regrade = true
    · rw [if_pos hskip, pure_ok, Prod.mk.injEq] at h
      rw [← h.1]
      refine Or.inl ⟨fun q hq => ?_, if_pos hskip, rfl, rfl⟩
      obtain ⟨y, hy, hq'⟩ := hq.owner
      obtain ⟨later, hlater, hnot⟩ := hq.current
      rw [hx, Except.ok.injEq] at hy
      rw [← hy, hr, Except.ok.injEq] at hq'
      rw [← hq', hnewest, Option.some_inj] at hlater
      rw [← hlater, ← hq', hskip] at hnot
      cases hnot
    · rw [if_neg hskip] at h
      simp only [bind_ok, pure_ok, Prod.mk.injEq] at h
      obtain ⟨s₂, h₂, rfl, _⟩ := h
      obtain ⟨htasks, hruns⟩ := displace_spec hown r.id submission rfl hnew
      rw [Bool.not_eq_true] at hskip
      have hfree : ∀ t ∈ (Runs.displace { s with runs := s.runs ++ [Runs.newRun (fresh 0)
          submission r.gradingRevision attempt (if Runs.superseded s r latest.id submission
            regrade then .superseded else .pending) none] } r.id submission).gradeTasks,
          t.subject ≠ fresh 0 := by
        intro t ht hsub
        rw [htasks] at ht
        obtain ⟨u, hu, rfl⟩ := mem_updateWhere.mp ht
        obtain ⟨g, hg, hid⟩ := hown u hu
        refine hnew g hg (hid.trans (Eq.trans ?_ hsub))
        split <;> rfl
      obtain ⟨hr₂, ht₂⟩ := enqueue_grade hfree h₂
      have hqueues : Queues s submission regrade r := by
        refine ⟨⟨x, hx, hr⟩, ?_, latest, hnewest, hskip⟩
        cases hre : regrade with
        | true => exact Or.inl rfl
        | false =>
          rw [hre, Option.filter_eq_none_iff] at hlatest
          refine Or.inr (Option.eq_none_iff_forall_ne_some.mpr fun g hg => ?_)
          exact hlatest g hg rfl
      refine Or.inr ⟨r, hqueues, ?_, hr₂.trans hruns, _, rfl, rfl, ht₂.trans (by rw [htasks])⟩
      rw [Runs.newRun, hskip]
      rfl

theorem validBaseline_spec {submission baseline : Uuid}
    (h : Runs.validBaseline s now submission baseline = true) :
    ∃ b ∈ s.runs, b.id = baseline ∧ b.submissionId = submission ∧ b.publicRunId = none ∧
      b.status = .completed ∧ b.points.isSome = true := by
  simp only [Runs.validBaseline, List.any_eq_true, Bool.and_eq_true, decide_eq_true_eq] at h
  obtain ⟨b, hb, ⟨⟨⟨⟨hid, hsub⟩, hpublic⟩, hstatus⟩, hpoints⟩, _⟩ := h
  exact ⟨b, hb, hid, hsub, Option.isNone_iff_eq_none.mp hpublic, hstatus, hpoints⟩

variable [Sha256] {calls : List Runs.AcceptCall} {op : Op}

theorem GradeStep.trans_idle {s'' : Store} (h : GradeStep calls now op s s') (h' : Idle s' s'') :
    GradeStep calls now op s s'' := by
  obtain ⟨hruns, htasks⟩ := h'
  cases h with
  | idle h => exact .idle (h.trans ⟨hruns, htasks⟩)
  | revived r x hr hopen hx hrep runs tasks =>
    exact .revived r x hr hopen hx hrep (hruns.trans runs) (htasks.trans tasks)
  | heartbeat held until_ hheld runs tasks =>
    exact .heartbeat held until_ hheld (hruns.trans runs) (htasks.trans tasks)
  | expired runs tasks => exact .expired (hruns.trans runs) (htasks.trans tasks)
  | leased t owner token ht hready hfree runs tasks =>
    exact .leased t owner token ht hready hfree (hruns.trans runs) (htasks.trans tasks)
  | recorded call t hrec ht hid htoken howner hleased hlive runs tasks =>
    exact .recorded call t hrec ht hid htoken howner hleased hlive (hruns.trans runs)
      (htasks.trans tasks)
  | skipped g hnew hpublic hstatus runs tasks =>
    exact .skipped g hnew hpublic hstatus (hruns.trans runs) (htasks.trans tasks)
  | queued g t r regrade hop hqueues hnew hpublic hstatus ht runs tasks =>
    exact .queued g t r regrade hop hqueues hnew hpublic hstatus ht (hruns.trans runs)
      (htasks.trans tasks)
  | queuedPrivate g t baseline hnew hprivate hstatus ht runs tasks =>
    exact .queuedPrivate g t baseline hnew hprivate hstatus ht (hruns.trans runs)
      (htasks.trans tasks)
  | failed runs tasks => exact .failed (hruns.trans runs) (htasks.trans tasks)

theorem heartbeat_grade {id token : Uuid} {owner : String}
    (h : Queue.heartbeat s now id token owner = .ok s') : GradeStep calls now op s s' := by
  simp only [Queue.heartbeat, bind_ok, pure_ok] at h
  obtain ⟨_, _, rfl⟩ := h
  refine .heartbeat _ _ (fun t hheld => ?_) rfl (gradeTasks_updateTasks fun _ => rfl)
  simp only [Queue.holds, Bool.and_eq_true, decide_eq_true_eq] at hheld
  exact ⟨hheld.1.1.2, hheld.1.2⟩

theorem expireExhausted_grade : GradeStep calls now op s (Queue.expireExhausted s now) :=
  .expired rfl (gradeTasks_updateTasks fun _ => rfl)

theorem markFailed_grade : GradeStep calls now op s (Runs.markFailed s) := by
  refine .failed ?_ rfl
  simp only [any_gradeTasks, ← Bool.and_assoc]
  rfl

theorem close_grade {fresh : Nat → Uuid} {repository : Uuid}
    (h : Submissions.close s now fresh repository = .ok s') : GradeStep calls now op s s' := by
  simp only [Submissions.close, bind_ok] at h
  obtain ⟨p, hp, h⟩ := h
  obtain ⟨hmem, hid, _⟩ := Store.fetchPinned_ok hp
  by_cases hdue : p.deadline < now
  · rw [if_pos (decide_eq_true hdue)] at h
    refine GradeStep.trans_idle ?_ (Idle.enqueueLock h)
    split
    · rename_i hfirst
      rw [Bool.and_eq_true, Bool.not_eq_true'] at hfirst
      rw [Submissions.freeze]
      split
      · rename_i submission hsub
        obtain ⟨x, hx, rfl⟩ := Option.map_eq_some_iff.mp hsub
        obtain ⟨hxmem, hxrep⟩ := Store.newest_mem hx
        refine .revived p.repository x hmem hfirst.2 hxmem (hxrep.trans hid.symm) rfl ?_
        exact gradeTasks_updateTasks fun _ => rfl
      · exact .idle (.of_eq rfl rfl)
    · exact .idle (.refl s)
  · rw [decide_eq_false hdue] at h
    have h' : (pure s : Except Error Store) = .ok s' := h
    rw [pure_ok] at h'
    rw [h']
    exact .idle (.refl s')

theorem lease_grade {locked : List Uuid} {token : Uuid} {worker : Worker}
    {requested : List String} {out : Option Uuid}
    (h : Runs.lease s now locked token worker requested = .ok (s', out)) :
    GradeStep calls now op s s' := by
  simp only [Runs.lease, bind_ok] at h
  obtain ⟨caps, _, h⟩ := h
  split at h
  · rw [pure_ok, Prod.mk.injEq] at h
    rw [← h.1]
    exact .idle (.refl s)
  · rename_i hidle
    split at h
    · rw [pure_ok, Prod.mk.injEq] at h
      rw [← h.1]
      exact .idle (.refl s)
    · rename_i t ht
      rw [pure_ok, Prod.mk.injEq] at h
      rw [← h.1]
      have hmem := List.argmin_mem ht
      simp only [List.mem_filter, Bool.and_eq_true, Runs.leasable, decide_eq_true_eq,
        Bool.not_eq_true', List.any_eq_false, not_and] at hmem
      obtain ⟨hmem, ⟨⟨⟨⟨hkind, hready⟩, _⟩, hother⟩, _⟩⟩ := hmem
      have hfree : Free s now worker.id t := by
        refine ⟨fun b hb hbusy howner => hidle ?_, fun b hb hbusy hsome => hother b hb ⟨hbusy, hsome⟩⟩
        rw [List.any_eq_true]
        exact ⟨b, hb, by rw [howner, hbusy, decide_eq_true rfl]; rfl⟩
      exact .leased t worker.id token (mem_gradeTasks.mpr ⟨hmem, hkind⟩) hready hfree rfl
        (gradeTasks_updateTasks fun _ => rfl)

theorem enqueueRun_grade (hown : Owned s) {fresh : Nat → Uuid} {submission : Uuid}
    {regrade : Bool} {out : Uuid}
    (h : Runs.enqueueRun s now fresh submission regrade = .ok (s', out)) :
    GradeStep calls now (.store (.enqueueRun fresh submission regrade)) s s' := by
  rcases enqueueRun_cases hown h with ⟨_, rfl⟩ | ⟨g, hnew, rfl, hpublic, ⟨_, hstatus, hruns, htasks⟩ |
    ⟨r, hqueues, hstatus, hruns, t, hsub, hpending, htasks⟩⟩
  · exact .idle (.refl _)
  · exact .skipped g hnew hpublic hstatus hruns htasks
  · exact .queued g t r regrade ⟨fresh, rfl⟩ hqueues hnew hpublic hstatus ⟨hsub, hpending⟩ hruns
      htasks

theorem insertPrivate_grade (hown : Owned s) {fresh : Nat → Uuid} {submission : Uuid}
    {revision : String} {attempt : Int} {baseline out : Uuid}
    (h : Runs.insertPrivate s now fresh submission revision attempt baseline = .ok (s', out))
    (hsub : ∃ x ∈ s.submissions, x.id = submission)
    (hattempt : ∀ g ∈ s.runs, g.submissionId = submission → g.attempt < attempt)
    (hwhy : ((∃ r ∈ s.repositories, r.finalSubmissionId = some submission) ∧
        ∀ h ∈ s.runs, h.publicRunId = some baseline → h.revisionDigest ≠ revision) ∨
      (∃ f ∈ s.runs, f.publicRunId = some baseline ∧ f.submissionId = submission ∧
        f.revisionDigest = revision ∧ (f.status = .infrastructureFailed ∨ f.status = .timedOut) ∧
        ∀ h ∈ s.runs, h.submissionId = submission → h.attempt ≤ f.attempt)) :
    GradeStep calls now op s s' := by
  simp only [Runs.insertPrivate, bind_ok, pure_ok, Prod.mk.injEq] at h
  obtain ⟨s₁, h₁, s₂, h₂, rfl, _⟩ := h
  obtain ⟨rfl, hnew, hbase⟩ := insertRun_spec h₁
  obtain ⟨hruns, htasks⟩ := enqueue_grade (fun t ht heq => by
    obtain ⟨g, hg, hid⟩ := hown t ht
    exact hnew g hg (hid.trans heq)) h₂
  exact .queuedPrivate _ _ baseline ⟨hnew, hattempt, rfl, hsub⟩
    ⟨rfl, validBaseline_spec (hbase baseline rfl), hwhy⟩ rfl ⟨rfl, rfl⟩ hruns htasks

theorem enqueuePrivate_grade (hown : Owned s) (hfinals : Finals s) {fresh : Nat → Uuid}
    {repository : Uuid} {operator reason : String} {out : Runs.PrivateOutcome}
    (h : Runs.enqueuePrivateRepository s now fresh repository operator reason = .ok (s', out)) :
    GradeStep calls now op s s' := by
  simp only [Runs.enqueuePrivateRepository, bind_ok] at h
  obtain ⟨p, hp, h⟩ := h
  obtain ⟨hrmem, _⟩ := Store.fetchPinned_ok hp
  split at h
  · rw [pure_ok, Prod.mk.injEq] at h
    rw [← h.1]
    exact .idle (.refl s)
  · rename_i submission hfinal
    rw [Option.filter_eq_some_iff] at hfinal
    split at h
    · rw [pure_ok, Prod.mk.injEq] at h
      rw [← h.1]
      exact .idle (.refl s)
    · rename_i baseline _
      simp only [bind_ok] at h
      obtain ⟨v, _, definition, _, _, _, h⟩ := h
      split at h
      · rw [pure_ok, Prod.mk.injEq] at h
        rw [← h.1]
        exact .idle (.refl s)
      · rename_i hnone
        simp only [bind_ok, pure_ok, Prod.mk.injEq] at h
        obtain ⟨attempt, hattempt, ⟨s₁, run⟩, h₁, rfl, _⟩ := h
        obtain ⟨_, x, hx, hxid, _⟩ := hfinals _ hrmem _ hfinal.1
        refine GradeStep.trans_idle (insertPrivate_grade hown h₁ ⟨x, hx, hxid⟩
          (nextAttempt_spec hattempt) (Or.inl ⟨⟨_, hrmem, hfinal.1⟩, fun g hg hb hrev => ?_⟩))
          (Idle.auditEvent _ _ _ _ _)
        have hmem : g ∈ s.runs.filter fun g => g.publicRunId = some baseline.id &&
            g.revisionDigest = p.repository.gradingRevision :=
          List.mem_filter.mpr ⟨hg, by rw [hb, hrev, decide_eq_true rfl, decide_eq_true rfl]; rfl⟩
        rw [List.argmax_eq_none.mp hnone] at hmem
        cases hmem

theorem retryPrivate_grade (hown : Owned s) {fresh : Nat → Uuid} {failed : Uuid}
    {operator reason : String} {out : Uuid}
    (h : Runs.retryPrivate s now fresh failed operator reason = .ok (s', out)) :
    GradeStep calls now op s s' := by
  simp only [Runs.retryPrivate, Store.fetchSubmission, bind_ok, check_ok, fetchOne_ok, pure_ok,
    Prod.mk.injEq, addInteger, Bool.and_eq_true, Bool.or_eq_true, decide_eq_true_eq] at h
  obtain ⟨_, _, g, _, x, hx, latest, hlatest, _, ⟨⟨_, _⟩, hfailed⟩, baseline, hbase, attempt,
    ⟨_, _, rfl⟩, ⟨s₁, run⟩, h₁, rfl, _⟩ := h
  have hmem := List.argmax_mem hlatest
  rw [List.mem_filter, Bool.and_eq_true, decide_eq_true_eq] at hmem
  have hle : ∀ h ∈ s.runs, h.submissionId = x.id → h.attempt ≤ latest.attempt := by
    intro h hh hsub
    refine List.le_of_mem_argmax (List.mem_filter.mpr ⟨hh, ?_⟩) hlatest
    rw [hsub, decide_eq_true rfl]
    rfl
  refine GradeStep.trans_idle (insertPrivate_grade hown h₁ ⟨x, mem_of_lookup hx, rfl⟩ ?_
    (Or.inr ⟨latest, hmem.1, hbase, hmem.2.1, rfl, hfailed, hle⟩)) (Idle.auditEvent _ _ _ _ _)
  intro h hh hsub
  have := hle h hh hsub
  omega

theorem acceptCommit_grade {i : Nat} {fresh : Nat → Uuid} {call : Runs.AcceptCall}
    (hcall : calls[i]? = some call) (hstage : call.stage = .stored)
    (h : Runs.acceptCommit s now fresh call = .ok s') :
    GradeStep calls now (.acceptCommit i fresh) s s' := by
  have hok : (Runs.acceptCommit s now fresh call).isOk = true := by rw [h]; rfl
  simp only [Runs.acceptCommit, bind_ok, fetchOne_ok] at h
  obtain ⟨t, ht, h⟩ := h
  have hfound := List.find?_some ht
  simp only [Bool.and_eq_true, decide_eq_true_eq] at hfound
  obtain ⟨⟨hid, htoken⟩, howner⟩ := hfound
  split at h
  · simp only [bind_ok, pure_ok] at h
    obtain ⟨_, _, _, _, rfl⟩ := h
    exact .idle (.refl s)
  · simp only [bind_ok, check_ok, Bool.and_eq_true, decide_eq_true_eq] at h
    obtain ⟨_, ⟨hleased, hlive⟩, _, _, h⟩ := h
    have hmem := List.mem_of_find?_eq_some ht
    have hrec : recording calls s now (.acceptCommit i fresh) = some call := by
      rw [recording, Option.filter_eq_some_iff]
      refine ⟨hcall, ?_⟩
      rw [hok, decide_eq_true hstage, Bool.true_and, Bool.true_and, List.any_eq_true]
      refine ⟨t, hmem, ?_⟩
      rw [decide_eq_true hid, hleased]
      rfl
    refine GradeStep.trans_idle ?_ (Idle.enqueue (by decide) h)
    exact .recorded call t hrec hmem hid htoken howner hleased hlive rfl
      (filter_updateWhere_comm fun _ _ _ => rfl)

/-! ### Every step -/

theorem exec_grade (hk : Keys s) (hown : Owned s) (hfinals : Finals s) {op : StoreOp}
    (hallowed : op.allowed s = true) (h : op.exec s now = .ok s') :
    GradeStep calls now (.store op) s s' := by
  cases op <;> simp only [StoreOp.exec, map_fst_ok, Except.ok.injEq] at h <;>
    simp only [StoreOp.allowed, Bool.not_eq_true'] at hallowed
  case publish => exact .idle (.publishes (.publish h))
  case applySet => exact .idle (.publishes (.applySet h))
  case overrideGrade => exact .idle (.overrideGrade h)
  case requestRepository => obtain ⟨_, h⟩ := h; exact .idle (.requestRepository h)
  case record => obtain ⟨_, h⟩ := h; exact .idle (.record h)
  case scheduleSnapshots => exact .idle (.scheduleSnapshots h)
  case close => exact close_grade h
  case extend => exact .idle (.extend h)
  case selectSubmission => obtain ⟨_, h⟩ := h; exact .idle (.selectSubmission h)
  case put => obtain ⟨_, h⟩ := h; exact .idle (.put h)
  case retainSource => exact .idle (.retainSource h)
  case flagFailedSnapshots => rw [← h]; exact .idle (.markReview _ _)
  case leaseTask => rw [← h]; exact .idle (.lease hk hallowed)
  case heartbeat => exact heartbeat_grade h
  case finish => exact .idle (.finish hallowed h)
  case fail => rw [← h]; exact .idle (.fail hallowed)
  case failPermanently => rw [← h]; exact .idle (.failPermanently hallowed)
  case deferTask => rw [← h]; exact .idle (.defer hallowed)
  case retry => exact .idle (.retry h)
  case expireExhausted => rw [← h]; exact expireExhausted_grade
  case enqueueRun => obtain ⟨_, h⟩ := h; exact enqueueRun_grade hown h
  case enqueuePrivate => obtain ⟨_, h⟩ := h; exact enqueuePrivate_grade hown hfinals h
  case retryPrivate => obtain ⟨_, h⟩ := h; exact retryPrivate_grade hown h
  case lease => obtain ⟨_, h⟩ := h; exact lease_grade h
  case markFailed => rw [← h]; exact markFailed_grade

end Operations

section Steps

theorem callAt_some {σ : Sys} {i : Nat} {stage : Runs.AcceptStage} {call : Runs.AcceptCall} :
    σ.callAt i stage = some call ↔ σ.accepts[i]? = some call ∧ call.stage = stage := by
  rw [Sys.callAt, Option.filter_eq_some_iff, decide_eq_true_eq]

theorem mem_of_callAt {σ : Sys} {i : Nat} {stage : Runs.AcceptStage} {call : Runs.AcceptCall}
    (h : σ.callAt i stage = some call) : call ∈ σ.accepts ∧ call.stage = stage := by
  obtain ⟨hcall, hstage⟩ := callAt_some.mp h
  exact ⟨List.mem_of_getElem? hcall, hstage⟩

variable [Sha256]

theorem Sys.Step.gradeStep {σ τ : Sys} {l : Time × Op} (hk : Keys σ.store)
    (hown : Owned σ.store) (hfinals : Finals σ.store) (h : Sys.Step σ l τ) :
    GradeStep σ.accepts l.1 l.2 σ.store τ.store := by
  obtain ⟨now, op⟩ := l
  obtain ⟨_, hallowed, rfl⟩ := h
  cases op with
  | store op =>
    simp only [Sys.perform]
    split
    · rename_i s' hs'
      exact exec_grade hk hown hfinals hallowed hs'
    · exact .idle (.refl _)
  | acceptLease worker task result =>
    simp only [Sys.perform]
    split <;> exact .idle (.refl _)
  | acceptExisting i =>
    simp only [Sys.perform]
    split
    · exact .idle (.refl _)
    · split <;> exact .idle (.refl _)
  | acceptPut i =>
    simp only [Sys.perform]
    split
    · exact .idle (.refl _)
    · split
      · rename_i hput
        exact .idle (.put hput)
      · exact .idle (.refl _)
  | acceptCommit i fresh =>
    simp only [Sys.perform]
    split
    · exact .idle (.refl _)
    · rename_i call hcall
      split
      · rename_i hcommit
        obtain ⟨hat, hstage⟩ := callAt_some.mp hcall
        exact acceptCommit_grade hat hstage hcommit
      · exact .idle (.refl _)
  | acceptStop i => exact .idle (.refl _)

end Steps

end Grading

import SrgGrading.Store.Evolution

/-!
# Closure is permanent

What closes a repository and what changes its final submission.  Only `close`
sets `closure_due`, at a deadline that has passed; only `select_submission`
changes the final submission of a closed repository, and the receipts recorded
after closure count for nothing.

* `close_cases`, `record_cases`, `select_cases`: what these operations do.
* `exec_evolves`: every operation continues, closes a repository or selects a
  submission.
* `Sys.closure_permanent`: what holds along every run from a state with a closed
  repository.
-/

open Fallible Relational

namespace Grading

/-! ### Writes to the tasks alone -/

/-- `s'` is `s` with other tasks. -/
def TasksOnly (s s' : Store) : Prop := ∃ tasks, s' = { s with tasks := tasks }

namespace TasksOnly

theorem refl (s : Store) : TasksOnly s s := ⟨s.tasks, rfl⟩

theorem trans {s s' s'' : Store} (h : TasksOnly s s') (h' : TasksOnly s' s'') :
    TasksOnly s s'' := by
  obtain ⟨_, rfl⟩ := h
  obtain ⟨tasks, rfl⟩ := h'
  exact ⟨tasks, rfl⟩

theorem updateTasks (s : Store) (p : TaskRow → Bool) (f : TaskRow → TaskRow) :
    TasksOnly s (s.updateTasks p f) := ⟨_, rfl⟩

variable {s s' : Store} {now : Time}

theorem enqueue {id subject : Uuid} {kind : TaskKind} {priority : Int}
    (h : Queue.enqueue s now id kind subject priority = .ok s') : TasksOnly s s' := by
  rw [Queue.enqueue] at h
  split at h
  · rw [pure_ok] at h
    rw [h]
    exact refl s'
  · simp only [bind_ok, pure_ok] at h
    obtain ⟨_, _, rfl⟩ := h
    exact ⟨_, rfl⟩

theorem enqueueSnapshots : ∀ {l : List (Uuid × Bool)} {fresh : Nat → Uuid} {s s' : Store},
    Submissions.enqueueSnapshots now s fresh l = .ok s' → TasksOnly s s' := by
  intro l
  induction l with
  | nil =>
    intro fresh s s' h
    rw [Submissions.enqueueSnapshots, pure_ok] at h
    rw [h]
    exact refl s'
  | cons e rest ih =>
    obtain ⟨id, final⟩ := e
    intro fresh s s' h
    rw [Submissions.enqueueSnapshots, bind_ok] at h
    obtain ⟨s₁, h₁, h₂⟩ := h
    exact (enqueue h₁).trans (ih h₂)

theorem scheduleSnapshots {fresh : Nat → Uuid} {tie : Uuid → Nat} {repository : Uuid}
    (h : Submissions.scheduleSnapshots s now fresh tie repository = .ok s') : TasksOnly s s' := by
  rw [Submissions.scheduleSnapshots, bind_ok] at h
  obtain ⟨r, _, h⟩ := h
  exact (updateTasks s _ _).trans (enqueueSnapshots h)

theorem enqueueLock {id repository : Uuid}
    (h : Submissions.enqueueLock s now id repository = .ok s') : TasksOnly s s' := by
  simp only [Submissions.enqueueLock, bind_ok, pure_ok] at h
  obtain ⟨s₁, h₁, rfl⟩ := h
  exact (enqueue h₁).trans (updateTasks _ _ _)

end TasksOnly

/-! ### Receipts -/

section Receipts
variable {s s' : Store} {now : Time} {fresh : Nat → Uuid} {tie : Uuid → Nat} {repository : Uuid}
  {sha : String} {received : Time} {source : EventSource} {delivery out : Option Uuid}

/-- **What `record` does**: it adds the event, and a submission when the event
counts and its SHA is not that of the newest one. -/
theorem record_cases
    (h : Submissions.record s now fresh tie repository sha received source delivery
      = .ok (s', out)) :
    ∃ p, s.fetchPinned repository = .ok p ∧
      s'.events = s.events ++ [⟨fresh 0, repository, sha, timestamptz received, source,
        Submissions.eligible p received source, delivery⟩] ∧
      ((s'.submissions = s.submissions ∧ (Submissions.eligible p received source = true →
          ∃ x, s.newest repository = some x ∧ x.sha = sha)) ∨
        (Submissions.eligible p received source = true ∧
          (∀ x, s.newest repository = some x → x.sha ≠ sha) ∧
          s'.submissions = s.submissions ++
            [⟨fresh 1, repository, fresh 0, sha, timestamptz received, none⟩])) := by
  simp only [Submissions.record, bind_ok] at h
  obtain ⟨_, _, p, hp, s₁, h₁, h⟩ := h
  refine ⟨p, hp, ?_⟩
  simp only [Submissions.insertEvent, bind_ok, pure_ok] at h₁
  obtain ⟨_, _, rfl⟩ := h₁
  split at h
  · rename_i hno
    rw [Bool.not_eq_true'] at hno
    rw [pure_ok, Prod.mk.injEq] at h
    rw [← h.1]
    refine ⟨?_, Or.inl ⟨?_, fun hyes => ?_⟩⟩
    · split <;> rfl
    · split <;> rfl
    · rw [hno] at hyes
      cases hyes
  · rename_i hyes
    rw [Bool.not_eq_true', Bool.not_eq_false] at hyes
    split at h
    · rename_i x hx
      rw [pure_ok, Prod.mk.injEq] at h
      rw [← h.1]
      rw [Option.filter_eq_some_iff, decide_eq_true_eq] at hx
      exact ⟨rfl, Or.inl ⟨rfl, fun _ => ⟨x, hx⟩⟩⟩
    · rename_i hx
      simp only [bind_ok, pure_ok, Prod.mk.injEq, Submissions.insertSubmission] at h
      obtain ⟨s₂, ⟨_, _, rfl⟩, s₃, h₃, rfl, _⟩ := h
      obtain ⟨tasks, rfl⟩ := TasksOnly.scheduleSnapshots h₃
      rw [Option.filter_eq_none_iff] at hx
      refine ⟨rfl, Or.inr ⟨hyes, fun x hnewest hsha => ?_, rfl⟩⟩
      exact hx x hnewest (by rw [decide_eq_true_eq]; exact hsha)

end Receipts

/-! ### Closing -/

/-- `repository` is closed with the final submission `submission`, or nothing is. -/
def Freezes (repository : Uuid) (submission : Option Uuid) (r r' : StudentRepository) : Prop :=
  Untouched r r' ∨ (r.id = repository ∧ r.closureDue = false ∧ r'.closureDue = true ∧
    r'.finalSubmissionId = submission)

/-- The final submission of the closed `repository` becomes `submission`, or none changes. -/
def Selects (repository submission : Uuid) (r r' : StudentRepository) : Prop :=
  Untouched r r' ∨ (r.id = repository ∧ r.closureDue = true ∧ r'.closureDue = true ∧
    r'.finalSubmissionId = some submission)

theorem Freezes.untouched {repository : Uuid} {submission : Option Uuid}
    {a b c : StudentRepository} (h : Freezes repository submission a b) (h' : Untouched b c) :
    Freezes repository submission a c := by
  rcases h with h | ⟨hid, hopen, hclosed, hfinal⟩
  · exact Or.inl ⟨h'.1.trans h.1, h'.2.trans h.2⟩
  · exact Or.inr ⟨hid, hopen, h'.1.trans hclosed, h'.2.trans hfinal⟩

theorem Selects.untouched {repository submission : Uuid} {a b c : StudentRepository}
    (h : Selects repository submission a b) (h' : Untouched b c) :
    Selects repository submission a c := by
  rcases h with h | ⟨hid, hwas, hclosed, hfinal⟩
  · exact Or.inl ⟨h'.1.trans h.1, h'.2.trans h.2⟩
  · exact Or.inr ⟨hid, hwas, h'.1.trans hclosed, h'.2.trans hfinal⟩

theorem Freezes.closed {repository : Uuid} {submission : Option Uuid} (a b : StudentRepository)
    (h : Freezes repository submission a b) (ha : a.closureDue = true) : b.closureDue = true := by
  rcases h with h | ⟨_, _, hclosed, _⟩
  · exact h.1.trans ha
  · exact hclosed

theorem Selects.closed {repository submission : Uuid} (a b : StudentRepository)
    (h : Selects repository submission a b) (ha : a.closureDue = true) : b.closureDue = true := by
  rcases h with h | ⟨_, _, hclosed, _⟩
  · exact h.1.trans ha
  · exact hclosed

theorem Untouched.selects {repository submission : Uuid} {a b c : StudentRepository}
    (hid : b.id = a.id) (h : Untouched a b) (h' : Selects repository submission b c) :
    Selects repository submission a c := by
  rcases h' with h' | ⟨hid', hwas, hclosed, hfinal⟩
  · exact Or.inl ⟨h'.1.trans h.1, h'.2.trans h.2⟩
  · exact Or.inr ⟨hid.symm.trans hid', h.1.symm.trans hwas, hclosed, hfinal⟩

/-- What `freeze` does to a repository. -/
def StudentRepository.closeWith (submission : Option Uuid) (r : StudentRepository) :
    StudentRepository :=
  { r with closureDue := true, finalSubmissionId := submission }

section Closing
variable {s s' : Store} {now : Time} {fresh : Nat → Uuid} {repository : Uuid}

theorem freeze_repositories : (Submissions.freeze s now repository).repositories =
    updateWhere (fun r => r.id = repository)
      (·.closeWith ((s.newest repository).map Submission.id)) s.repositories := by
  rw [Submissions.freeze]
  split <;> rfl

theorem freeze_events : (Submissions.freeze s now repository).events = s.events := by
  rw [Submissions.freeze]
  split <;> rfl

theorem freeze_submissions :
    (Submissions.freeze s now repository).submissions = s.submissions := by
  rw [Submissions.freeze]
  split <;> rfl

theorem freeze_extensions : (Submissions.freeze s now repository).extensions = s.extensions := by
  rw [Submissions.freeze]
  split <;> rfl

theorem freeze_evolves (now : Time) (h : ∀ r ∈ s.repositories, r.id = repository → r.closureDue = false) :
    Evolves (Freezes repository ((s.newest repository).map Submission.id)) s
      (Submissions.freeze s now repository) := by
  -- the repositories first, then the tasks of the submission that became final
  have hr : Evolves (Freezes repository ((s.newest repository).map Submission.id)) s
      (s.updateRepositories (fun r => r.id = repository)
        (·.closeWith ((s.newest repository).map Submission.id))) := by
    refine .of_repositories (.update ?_ fun r _ => ⟨.refl r, Or.inl (.refl r)⟩) rfl rfl rfl rfl rfl
    intro r hr hid
    rw [decide_eq_true_eq] at hid
    exact ⟨rfl, ⟨rfl, rfl, rfl⟩, Or.inr ⟨hid, h r hr hid, rfl, rfl⟩⟩
  rw [Submissions.freeze]
  split
  · refine Continues.after hr ?_ (fun _ _ _ _ => Freezes.untouched) Freezes.closed
    exact .updateTasks fun _ => ⟨rfl, rfl, rfl⟩
  · exact hr

/-- **What `close` does**: before the deadline nothing, after it the first time
it freezes the newest submission, and later it queues the lock at most. -/
theorem close_cases (hk : Keyed StudentRepository.id s.repositories)
    (h : Submissions.close s now fresh repository = .ok s') :
    ∃ p, s.fetchPinned repository = .ok p ∧ s'.events = s.events ∧
      s'.submissions = s.submissions ∧ s'.extensions = s.extensions ∧
      (Continues s s' ∨
        (p.deadline < now ∧ p.repository.closureDue = false ∧
          s'.repositories = updateWhere (fun r => r.id = repository)
            (·.closeWith ((s.newest repository).map Submission.id)) s.repositories ∧
          Evolves (Freezes repository ((s.newest repository).map Submission.id)) s s')) := by
  simp only [Submissions.close, bind_ok] at h
  obtain ⟨p, hp, h⟩ := h
  obtain ⟨hmem, hid, _⟩ := Store.fetchPinned_ok hp
  refine ⟨p, hp, ?_⟩
  by_cases hdue : p.deadline < now
  · rw [if_pos (decide_eq_true hdue)] at h
    obtain ⟨tasks, hs'⟩ := TasksOnly.enqueueLock h
    by_cases hclosed : p.repository.closureDue = true
    · rw [hclosed, decide_eq_true hdue] at h hs'
      refine ⟨by rw [hs']; rfl, by rw [hs']; rfl, by rw [hs']; rfl, Or.inl ?_⟩
      exact Continues.enqueueLock h
    · rw [Bool.not_eq_true] at hclosed
      rw [hclosed, decide_eq_true hdue] at h hs'
      have hopen : ∀ r ∈ s.repositories, r.id = repository → r.closureDue = false := by
        intro r hr hrid
        rw [hk.eq hr hmem (hrid.trans hid.symm)]
        exact hclosed
      have hf := freeze_evolves now hopen
      refine ⟨?_, ?_, ?_, Or.inr ⟨hdue, hclosed, ?_, ?_⟩⟩
      · rw [hs']; exact freeze_events
      · rw [hs']; exact freeze_submissions
      · rw [hs']; exact freeze_extensions
      · rw [hs']; exact freeze_repositories
      · exact Continues.after hf (Continues.enqueueLock h) (fun _ _ _ _ => Freezes.untouched) Freezes.closed
  · rw [decide_eq_false hdue] at h
    have h' : (pure s : Except Error Store) = .ok s' := h
    rw [pure_ok] at h'
    rw [h']
    exact ⟨rfl, rfl, rfl, Or.inl (.refl s')⟩

end Closing

/-! ### Selecting -/

section Selecting
variable {s s' : Store} {now : Time} {fresh : Nat → Uuid} {event id out : Uuid}
  {operator reason : String}

theorem submissionOfEvent_spec {e : SubmissionEvent}
    (h : Submissions.submissionOfEvent s id e = .ok (s', out)) :
    s'.repositories = s.repositories ∧ s'.events = s.events ∧
      ∃ x ∈ s'.submissions, x.id = out ∧ x.eventId = e.id := by
  rw [Submissions.submissionOfEvent] at h
  split at h
  · rename_i x hx
    rw [pure_ok, Prod.mk.injEq] at h
    obtain ⟨rfl, rfl⟩ := h
    have hevent := List.find?_some hx
    rw [decide_eq_true_eq] at hevent
    exact ⟨rfl, rfl, x, List.mem_of_find?_eq_some hx, rfl, hevent⟩
  · simp only [bind_ok, pure_ok, Prod.mk.injEq, Submissions.insertSubmission] at h
    obtain ⟨s₁, ⟨_, _, rfl⟩, rfl, rfl⟩ := h
    exact ⟨rfl, rfl, _, List.mem_append_right _ (List.mem_singleton_self _), rfl, rfl⟩

/-- **What `select_submission` does**: the final submission of the closed
repository of the event becomes the submission of the event. -/
theorem select_cases (hk : Keyed StudentRepository.id s.repositories)
    (hx : Keyed Submission.id s.submissions)
    (h : Submissions.selectSubmission s now fresh event operator reason = .ok (s', out)) :
    ∃ e ∈ s.events, ∃ x ∈ s'.submissions, e.id = event ∧ x.id = out ∧ x.eventId = event ∧
      x.repositoryId = e.repositoryId ∧ s'.events = s.events ∧
      Evolves (Selects e.repositoryId out) s s' := by
  simp only [Submissions.selectSubmission, bind_ok, check_ok, fetchOne_ok, ensure_ok, pure_ok,
    Prod.mk.injEq, List.any_eq_true, Bool.and_eq_true, decide_eq_true_eq] at h
  obtain ⟨_, _, e, he, r, hr, _, hclosed, ⟨s₁, id⟩, h₁, _, ⟨y, hy, hyid, hyr⟩, s₂, h₂, rfl, rfl⟩ := h
  obtain ⟨hrmem, hrid⟩ := Store.fetchRepository_ok hr
  obtain ⟨hrep, hev, x, hxmem, hxid, hxe⟩ := submissionOfEvent_spec h₁
  have hc₁ : Continues s s₁ := .submissionOfEvent ⟨r, hrmem, hrid⟩ h₁
  -- the submission of the event is the one the foreign key found in the repository
  have hyx : y = x := (hc₁.submissions.keyed hx).eq hy hxmem (hyid.trans hxid.symm)
  have hsel : Evolves (Selects e.repositoryId id) s₁
      (s₁.updateRepositories (fun q => q.id = r.id) fun q =>
        { q with finalSubmissionId := some id, needsReview := false }) := by
    refine .of_repositories (.update ?_ fun q _ => ⟨.refl q, Or.inl (.refl q)⟩) rfl rfl rfl rfl rfl
    intro q hq hqid
    rw [decide_eq_true_eq] at hqid
    have hqr : q = r := by
      rw [hrep] at hq
      exact hk.eq hq hrmem hqid
    subst hqr
    exact ⟨rfl, ⟨rfl, rfl, rfl⟩, Or.inr ⟨hrid, hclosed, hclosed, rfl⟩⟩
  have hlast := Continues.after hsel ((Continues.auditEvent _ _ _ _ _).trans (.enqueue h₂))
    (fun _ _ _ _ => Selects.untouched) Selects.closed
  obtain ⟨tasks, hs'⟩ := TasksOnly.enqueue h₂
  refine ⟨e, mem_of_lookup he, x, ?_, key_of_lookup he, hxid, ?_, ?_, ?_, ?_⟩
  · rw [hs']; exact hxmem
  · rw [hxe]; exact key_of_lookup he
  · rw [← hyx, hyr, hrid]
  · rw [hs']; exact hev
  · refine Evolves.trans hc₁ hlast (fun _ _ _ hid => Untouched.selects hid) ?_
      fun _ _ hab ha => hab.1.trans ha
    rintro a b ⟨hopen, hnone⟩ (hab | ⟨_, hwas, _⟩)
    · exact ⟨hab.1.trans hopen, hab.2.trans hnone⟩
    · rw [hopen] at hwas
      cases hwas

end Selecting

/-! ### Every step -/

/-- The keys of the tables. -/
structure Keys (s : Store) : Prop where
  repositories : Keyed StudentRepository.id s.repositories
  submissions : Keyed Submission.id s.submissions
  submissionEvents : Keyed Submission.eventId s.submissions
  revisions : Keyed AssignmentRevision.digest s.revisions
  runs : Keyed GradingRun.id s.runs
  tasks : Keyed TaskRow.id s.tasks
  taskKeys : Keyed TaskRow.dedupKey s.tasks

theorem Evolves.keys {R : StudentRepository → StudentRepository → Prop} {s s' : Store}
    (h : Evolves R s s') (hk : Keys s) : Keys s' where
  repositories := h.repositories.keyed hk.repositories
  submissions := h.submissions.keyed hk.submissions
  submissionEvents := h.submissionEvents hk.submissionEvents
  revisions := h.revisions.keyed hk.revisions
  runs := h.runs.keyed hk.runs
  tasks := h.tasks.keyed hk.tasks
  taskKeys := h.taskKeys hk.taskKeys

theorem Sys.Initial.keys {σ : Sys} (h : σ.Initial) : Keys σ.store where
  repositories := h.repositoryIds
  submissions := h.submissionIds
  submissionEvents := h.submissionEvents
  revisions := h.revisionDigests
  runs := by rw [h.runs]; exact List.nodup_nil
  tasks := h.taskIds
  taskKeys := h.taskKeys

theorem Evolves.mono {R R' : StudentRepository → StudentRepository → Prop} {s s' : Store}
    (h : Evolves R s s') (hR : ∀ r ∈ s.repositories, ∀ r', R r r' → R' r r') : Evolves R' s s' :=
  { h with
    repositories := h.repositories.mono (fun r hr r' hrr => ⟨hrr.1, hR r hr r' hrr.2⟩)
      fun _ hn => hn }

/-- The event a step names as a selection override. -/
def Op.selected : Op → Option Uuid
  | .store (.selectSubmission _ event _ _) => some event
  | _ => none

/-- What a step that names `event` may do to a repository: nothing, close it with
a submission of its own, or give the closed one the submission of the event. -/
def Moves (event : Option Uuid) (submissions : List Submission) (r r' : StudentRepository) : Prop :=
  Untouched r r' ∨
    (r.closureDue = false ∧ r'.closureDue = true ∧ ∀ id, r'.finalSubmissionId = some id →
      ∃ x ∈ submissions, x.id = id ∧ x.repositoryId = r.id) ∨
    (r.closureDue = true ∧ r'.closureDue = true ∧ ∃ x ∈ submissions,
      some x.eventId = event ∧ x.repositoryId = r.id ∧ r'.finalSubmissionId = some x.id)

theorem Continues.moves {s s' : Store} (h : Continues s s') (event : Option Uuid)
    (submissions : List Submission) : Evolves (Moves event submissions) s s' :=
  h.mono fun _ _ _ => Or.inl

section Steps
variable [Sha256]

/-- Every operation but `close` and `select_submission` closes nothing. -/
theorem exec_continues {s s' : Store} {now : Time} {op : StoreOp} (hk : Keys s)
    (h : op.exec s now = .ok s') (hclose : ∀ fresh repository, op ≠ .close fresh repository)
    (hselect : ∀ fresh event operator reason, op ≠ .selectSubmission fresh event operator reason) :
    Continues s s' := by
  cases op <;> simp only [StoreOp.exec, map_fst_ok, Except.ok.injEq] at h
  case publish => exact .publishes (.publish h)
  case applySet => exact .publishes (.applySet h)
  case overrideGrade => exact .overrideGrade h
  case requestRepository => obtain ⟨_, h⟩ := h; exact .requestRepository h
  case record => obtain ⟨_, h⟩ := h; exact .record h
  case scheduleSnapshots => exact .scheduleSnapshots h
  case close fresh repository => exact absurd rfl (hclose fresh repository)
  case extend => exact .extend hk.repositories h
  case selectSubmission fresh event operator reason =>
    exact absurd rfl (hselect fresh event operator reason)
  case put => obtain ⟨_, h⟩ := h; exact .put h
  case retainSource => exact .retainSource h
  case flagFailedSnapshots => rw [← h]; exact .markReview _ _
  case leaseTask => rw [← h]; exact .lease_task _ _ _ _ _ _
  case heartbeat => exact .heartbeat h
  case finish => exact .finish h
  case fail => rw [← h]; exact .fail _ _ _ _
  case failPermanently => rw [← h]; exact .failPermanently _ _ _
  case deferTask => rw [← h]; exact .defer _ _ _ _
  case retry => exact .retry h
  case expireExhausted => rw [← h]; exact .expireExhausted _ _
  case enqueueRun => obtain ⟨_, h⟩ := h; exact .enqueueRun h
  case enqueuePrivate => obtain ⟨_, h⟩ := h; exact .enqueuePrivate h
  case retryPrivate => obtain ⟨_, h⟩ := h; exact .retryPrivate h
  case lease => obtain ⟨_, h⟩ := h; exact .lease h
  case markFailed => rw [← h]; exact .markFailed _

theorem exec_evolves {s s' : Store} {now : Time} {op : StoreOp} (hk : Keys s)
    (h : op.exec s now = .ok s') :
    Evolves (Moves (Op.store op).selected s'.submissions) s s' := by
  cases op with
  | close fresh repository =>
    obtain ⟨p, _, _, hsubs, _, hc | ⟨_, _, _, hf⟩⟩ := close_cases hk.repositories h
    · exact hc.moves _ _
    · refine hf.mono fun r _ r' hr => ?_
      rcases hr with hr | ⟨hid, hopen, hclosed, hfinal⟩
      · exact Or.inl hr
      · refine Or.inr (Or.inl ⟨hopen, hclosed, fun id hsome => ?_⟩)
        rw [hfinal, Option.map_eq_some_iff] at hsome
        obtain ⟨x, hx, hxid⟩ := hsome
        obtain ⟨hmem, hrep⟩ := Store.newest_mem hx
        exact ⟨x, hsubs ▸ hmem, hxid, hrep.trans hid.symm⟩
  | selectSubmission fresh event operator reason =>
    simp only [StoreOp.exec, map_fst_ok] at h
    obtain ⟨_, h⟩ := h
    obtain ⟨e, _, x, hx, _, hid, hevent, hrep, _, hs⟩ :=
      select_cases hk.repositories hk.submissions h
    refine hs.mono fun r _ r' hr => ?_
    rcases hr with hr | ⟨hrid, hwas, hclosed, hfinal⟩
    · exact Or.inl hr
    · refine Or.inr (Or.inr ⟨hwas, hclosed, x, hx, congrArg some hevent, ?_, ?_⟩)
      · exact hrep.trans hrid.symm
      · rw [hid]; exact hfinal
  | _ => exact (exec_continues hk h (by simp) (by simp)).moves _ _

/-- Every step but these two closes nothing. -/
theorem Sys.Step.continues {σ τ : Sys} {l : Time × Op} (hk : Keys σ.store) (h : Sys.Step σ l τ)
    (hclose : ∀ fresh repository, l.2 ≠ .store (.close fresh repository))
    (hselect : ∀ fresh event operator reason,
      l.2 ≠ .store (.selectSubmission fresh event operator reason)) :
    Continues σ.store τ.store := by
  obtain ⟨now, op⟩ := l
  obtain ⟨_, _, rfl⟩ := h
  cases op with
  | store op =>
    simp only [Sys.perform]
    split
    · rename_i s' hs'
      exact exec_continues hk hs' (fun fresh repository heq => hclose fresh repository (by rw [heq]))
        fun fresh event operator reason heq => hselect fresh event operator reason (by rw [heq])
    · exact .refl _
  | acceptLease worker task result =>
    simp only [Sys.perform]
    split <;> exact .refl _
  | acceptExisting i =>
    simp only [Sys.perform]
    split
    · exact .refl _
    · split <;> exact .refl _
  | acceptPut i =>
    simp only [Sys.perform]
    split
    · exact .refl _
    · split
      · rename_i hput
        exact .put hput
      · exact .refl _
  | acceptCommit i fresh =>
    simp only [Sys.perform]
    split
    · exact .refl _
    · split
      · rename_i hcommit
        exact .acceptCommit hcommit
      · exact .refl _
  | acceptStop i => exact .refl _

/-- The store after an operation that succeeds, and after one that fails. -/
theorem Sys.Step.exec {σ τ : Sys} {now : Time} {op : StoreOp} (h : Sys.Step σ (now, .store op) τ) :
    op.exec σ.store now = .ok τ.store ∨ τ.store = σ.store := by
  obtain ⟨_, _, rfl⟩ := h
  simp only [Sys.perform]
  split
  · rename_i s' hs'
    exact Or.inl hs'
  · exact Or.inr rfl

theorem Sys.Step.evolves {σ τ : Sys} {l : Time × Op} (hk : Keys σ.store) (h : Sys.Step σ l τ) :
    Evolves (Moves l.2.selected τ.store.submissions) σ.store τ.store := by
  by_cases hstore : ∃ op, l.2 = .store op
  · obtain ⟨op, hop⟩ := hstore
    obtain ⟨now, op'⟩ := l
    dsimp only at hop
    subst hop
    rcases h.exec with hexec | hsame
    · exact exec_evolves hk hexec
    · rw [hsame]
      exact (Continues.refl _).moves _ _
  · exact (h.continues hk (fun _ _ heq => hstore ⟨_, heq⟩) fun _ _ _ _ heq => hstore ⟨_, heq⟩).moves
      _ _

/-- A final submission is one of the closed repository. -/
def Finals (s : Store) : Prop :=
  ∀ r ∈ s.repositories, ∀ id, r.finalSubmissionId = some id →
    r.closureDue = true ∧ ∃ x ∈ s.submissions, x.id = id ∧ x.repositoryId = r.id

omit [Sha256] in
theorem Evolves.finals {event : Option Uuid} {s s' : Store}
    (h : Evolves (Moves event s'.submissions) s s') (hf : Finals s) : Finals s' := by
  intro r' hr' id hid
  rcases h.repositories.origin hr' with ⟨r, hr, hrid, _, hm⟩ | ⟨⟨_, hnone⟩, _⟩
  · rcases hm with ⟨hsame, hfinal⟩ | ⟨_, hclosed, hown⟩ | ⟨_, hclosed, x, hx, _, hrep, hfinal⟩
    · obtain ⟨hclosed, x, hx, hxid, hrep⟩ := hf r hr id (hfinal ▸ hid)
      obtain ⟨x', hx', hid', hxx⟩ := h.submissions.old hx
      refine ⟨hsame.trans hclosed, x', hx', hid'.trans hxid, ?_⟩
      rw [hxx.repository, hrep, hrid]
    · obtain ⟨x, hx, hxid, hrep⟩ := hown id hid
      exact ⟨hclosed, x, hx, hxid, hrep.trans hrid.symm⟩
    · rw [hfinal, Option.some_inj] at hid
      exact ⟨hclosed, x, hx, hid, hrep.trans hrid.symm⟩
  · rw [hnone] at hid
    cases hid

theorem Sys.Reachable.keys {σ : Sys} (h : σ.Reachable) : Keys σ.store := by
  refine Transition.Reachable.invariant (I := fun σ => Keys σ.store) (fun _ h0 => h0.keys) ?_ h
  intro _ _ _ _ hk hst
  exact (Sys.Step.evolves hk hst).keys hk

/-- The repository of a submission exists. -/
theorem Sys.Reachable.homed {σ : Sys} (h : σ.Reachable) :
    ∀ x ∈ σ.store.submissions, ∃ r ∈ σ.store.repositories, r.id = x.repositoryId := by
  refine Transition.Reachable.invariant
    (I := fun σ => ∀ x ∈ σ.store.submissions, ∃ r ∈ σ.store.repositories, r.id = x.repositoryId)
    (fun _ h0 => h0.submissionRepository) ?_ h
  intro σ l τ hσ hhome hst x' hx'
  have hev := Sys.Step.evolves (keys hσ) hst
  rcases hev.submissions.origin hx' with ⟨x, hx, _, hsame⟩ | ⟨hnew, _⟩
  · obtain ⟨r, hr, hid⟩ := hhome x hx
    obtain ⟨r', hr', hid', _⟩ := hev.repositories.old hr
    exact ⟨r', hr', hid'.trans (hid.trans hsame.repository.symm)⟩
  · exact hnew

theorem Sys.Reachable.finals {σ : Sys} (h : σ.Reachable) : Finals σ.store := by
  refine Transition.Reachable.invariant (I := fun σ => Finals σ.store)
    (fun _ h0 => h0.finals) ?_ h
  intro _ _ _ hσ hf hst
  exact (Sys.Step.evolves (keys hσ) hst).finals hf

end Steps

/-! ### From closure on -/

/-- The eligible events of a repository. -/
def Store.eligibleEvents (s : Store) (repository : Uuid) : List SubmissionEvent :=
  s.events.filter fun e => e.repositoryId = repository && e.eligible

section Permanence
variable {s s' : Store} {now : Time} {r : StudentRepository}

/-- A receipt recorded for a closed repository does not count. -/
theorem record_closed (hk : Keys s) (hr : r ∈ s.repositories) (hclosed : r.closureDue = true)
    {fresh : Nat → Uuid} {tie : Uuid → Nat} {repository : Uuid} {sha : String} {received : Time}
    {source : EventSource} {delivery out : Option Uuid}
    (h : Submissions.record s now fresh tie repository sha received source delivery
      = .ok (s', out)) :
    s'.submissionsOf r.id = s.submissionsOf r.id ∧
      s'.eligibleEvents r.id = s.eligibleEvents r.id := by
  obtain ⟨p, hp, hevents, hcases⟩ := record_cases h
  obtain ⟨hmem, hid, _⟩ := Store.fetchPinned_ok hp
  have hnot : repository = r.id → Submissions.eligible p received source = false := by
    intro he
    have hpr : p.repository = r := hk.repositories.eq hmem hr (hid.trans he)
    rw [Submissions.eligible, hpr, hclosed, Bool.not_true, Bool.and_false]
  have hevent : s'.eligibleEvents r.id = s.eligibleEvents r.id := by
    rw [Store.eligibleEvents, hevents, List.filter_append, List.filter_singleton]
    by_cases he : repository = r.id
    · rw [hnot he, Bool.and_false]
      exact List.append_nil _
    · rw [decide_eq_false he, Bool.false_and]
      exact List.append_nil _
  rcases hcases with ⟨hsub, _⟩ | ⟨hyes, _, hsub⟩
  · exact ⟨by rw [Store.submissionsOf, hsub, Store.submissionsOf], hevent⟩
  · have he : repository ≠ r.id := by
      intro he
      rw [hnot he] at hyes
      cases hyes
    refine ⟨?_, hevent⟩
    rw [Store.submissionsOf, hsub, List.filter_append, List.filter_singleton,
      decide_eq_false he]
    exact List.append_nil _

/-- A closed repository cannot be extended. -/
theorem extend_closed (hk : Keys s) (hr : r ∈ s.repositories) (hclosed : r.closureDue = true)
    (now deadline : Time) (operator reason : String) :
    ∃ e, Submissions.extend s now r.id deadline operator reason = .error e := by
  cases h : Submissions.extend s now r.id deadline operator reason with
  | error e => exact ⟨e, rfl⟩
  | ok s' =>
    simp only [Submissions.extend, bind_ok, check_ok, Bool.and_eq_true] at h
    obtain ⟨_, _, p, hp, _, ⟨⟨hopen, _⟩, _⟩, _⟩ := h
    obtain ⟨hmem, hid, _⟩ := Store.fetchPinned_ok hp
    rw [hk.repositories.eq hmem hr hid, hclosed] at hopen
    cases hopen

variable [Sha256]

/-- What a step from `σ` to `τ` may still do to the closed repository `r`: no
receipt counts, no extension succeeds, and only an override changes the final
submission, to one of the repository for the event it names. -/
structure ClosedStep (r : StudentRepository) (σ : Sys) (l : Time × Op) (τ : Sys) : Prop where
  record : ∀ fresh tie repository sha received source delivery,
    l.2 = .store (.record fresh tie repository sha received source delivery) →
      τ.store.submissionsOf r.id = σ.store.submissionsOf r.id ∧
        τ.store.eligibleEvents r.id = σ.store.eligibleEvents r.id
  extend : ∀ deadline operator reason, l.2 = .store (.extend r.id deadline operator reason) →
    (∃ e, Submissions.extend σ.store l.1 r.id deadline operator reason = .error e) ∧
      τ.store = σ.store
  final : ∃ r' ∈ τ.store.repositories, r'.id = r.id ∧ r'.closureDue = true ∧
    (r'.finalSubmissionId = r.finalSubmissionId ∨
      ∃ event, l.2.selected = some event ∧ ∃ x ∈ τ.store.submissions,
        x.eventId = event ∧ x.repositoryId = r.id ∧ r'.finalSubmissionId = some x.id)

theorem Sys.Step.closed {σ τ : Sys} {l : Time × Op} (hk : Keys σ.store)
    (hr : r ∈ σ.store.repositories) (hclosed : r.closureDue = true) (h : Sys.Step σ l τ) :
    ClosedStep r σ l τ where
  record := by
    intro fresh tie repository sha received source delivery hl
    obtain ⟨_, _, rfl⟩ := h
    rw [hl]
    simp only [Sys.perform, StoreOp.exec]
    split
    · rename_i s' hs'
      rw [map_fst_ok] at hs'
      obtain ⟨_, hs'⟩ := hs'
      exact record_closed hk hr hclosed hs'
    · exact ⟨rfl, rfl⟩
  extend := by
    intro deadline operator reason hl
    obtain ⟨_, _, rfl⟩ := h
    obtain ⟨e, he⟩ := extend_closed hk hr hclosed l.1 deadline operator reason
    refine ⟨⟨e, he⟩, ?_⟩
    rw [hl]
    simp only [Sys.perform, StoreOp.exec, he]
  final := by
    obtain ⟨r', hr', hid, _, hmoves⟩ := (h.evolves hk).repositories.old hr
    refine ⟨r', hr', hid, ?_⟩
    rcases hmoves with ⟨hsame, hfinal⟩ | ⟨hopen, _⟩ | ⟨_, hclosed', x, hx, hevent, hrep, hfinal⟩
    · exact ⟨hsame.trans hclosed, Or.inl hfinal⟩
    · rw [hclosed] at hopen
      cases hopen
    · exact ⟨hclosed', Or.inr ⟨x.eventId, hevent.symm, x, hx, rfl, hrep, hfinal⟩⟩

/-- **Closure is permanent.**  After any run from a reachable state in which `r`
is closed, `r` is closed, its final submission is the same unless the run has an
override, and every further step is a `ClosedStep`. -/
theorem Sys.closure_permanent {σ τ : Sys} {taken : List (Sys × (Time × Op))}
    (hσ : σ.Reachable) (hr : r ∈ σ.store.repositories) (hclosed : r.closureDue = true)
    (hrun : Transition.Run Sys.Step σ taken τ) :
    ∃ r' ∈ τ.store.repositories, r'.id = r.id ∧ r'.closureDue = true ∧
      ((∀ p ∈ taken, p.2.2.selected = none) → r'.finalSubmissionId = r.finalSubmissionId) ∧
      ∀ l υ, Sys.Step τ l υ → ClosedStep r' τ l υ := by
  induction hrun with
  | nil => exact ⟨r, hr, rfl, hclosed, fun _ => rfl, fun l υ hst => hst.closed hσ.keys hr hclosed⟩
  | @snoc taken τ υ l hrun hst ih =>
    obtain ⟨r', hr', hid, hclosed', hfinal, hsteps⟩ := ih
    obtain ⟨r'', hr'', hid'', hclosed'', hmove⟩ := (hsteps l υ hst).final
    have hυ : Sys.Reachable υ := Transition.Reachable.run hσ (.snoc hrun hst)
    refine ⟨r'', hr'', hid''.trans hid, hclosed'', ?_, fun l' υ' hst' =>
      hst'.closed hυ.keys hr'' hclosed''⟩
    intro hno
    have hlast : l.2.selected = none :=
      hno (τ, l) (List.mem_append_right _ (List.mem_singleton_self _))
    have hbefore := hfinal fun p hp => hno p (List.mem_append_left _ hp)
    rcases hmove with hsame | ⟨event, hevent, _⟩
    · exact hsame.trans hbefore
    · rw [hlast] at hevent
      cases hevent

end Permanence

/-! ### A late push and a late extension -/

namespace Sample

attribute [local instance] Sha256.standard

/-- Two pushes, and the deadline. -/
def closing : List (Time × Op) :=
  [(second 1, push 10 shaA (second 1)), (second 2, push 20 shaB (second 2)), (second 11, close 30)]

/-- After the deadline: an extension, and a push received before it. -/
def tooLate : List (Time × Op) :=
  [(second 12, .store (.extend 3 (second 20) "operator" "illness")),
    (second 13, push 40 shaA (second 3))]

/-- The repository closed with its second submission stays so. -/
theorem closure_permanent_late : ∃ σ τ, start.play closing = some σ ∧ σ.play tooLate = some τ ∧
    ∃ r ∈ τ.store.repositories, r.id = 3 ∧ r.closureDue = true ∧
      r.finalSubmissionId = some (ids 20 1) := by
  have key : (start.play closing).any (fun σ => (σ.play tooLate).isSome &&
      decide (repository.closeWith (some (ids 20 1)) ∈ σ.store.repositories)) = true := by
    decide +kernel
  obtain ⟨σ, hσ, hkey⟩ := Option.any_eq_true _ _ |>.mp key
  rw [Bool.and_eq_true, decide_eq_true_eq, Option.isSome_iff_exists] at hkey
  obtain ⟨⟨τ, hτ⟩, hr⟩ := hkey
  obtain ⟨r, hr', hid, hclosed, hfinal, _⟩ :=
    Sys.closure_permanent ⟨start, _, initial, Sys.run_of_play hσ⟩ hr rfl (Sys.run_of_play hτ)
  refine ⟨σ, τ, hσ, hτ, r, hr', hid, hclosed, hfinal fun p hp => ?_⟩
  have hno : tooLate.all (fun l => l.2.selected.isNone) = true := rfl
  rw [List.all_eq_true] at hno
  refine Option.isNone_iff_eq_none.mp (hno p.2 ?_)
  rw [← σ.map_trace tooLate]
  exact List.mem_map_of_mem hp

end Sample

end Grading

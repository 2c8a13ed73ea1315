import SrgGrading.Lifecycle.GitHub
import SrgGrading.Store.Capture

/-!
# Upkeep: the passes of the workers and of the synchronization

The whole deployment under `gradingctl work` and `gradingctl sync`: the store,
the columns of a repository that provisioning writes, and the observations in
flight, which read a repository first and write in a later transaction.

* `Leaves.exec`: no operation but an operator's retry writes a failed control
  task, except the closing that makes its submission final.
* `Upkeep.exhausted_stays`: a failed task stays as it is, unless an observation
  finds no repository and resets the provisioning.
-/

open Fallible Relational

namespace Grading

/-! ### The transactions of an observation -/

/-- The columns of a student repository that provisioning and observing write. -/
structure Provisioning where
  githubRepoId : Option Int
  state : Courses.RepositoryState
  observedSha : Option String

/-- What an observation read of its repository. -/
structure Observation where
  repository : Uuid
  closureDue : Bool
  columns : Provisioning

namespace Observation

/-- The transaction of `observe` for a repository that is not created yet. -/
def missing (s : Store) (now : Time) (id repository : Uuid) : Except Error Store := do
  let s ← Queue.enqueue s now id .provision repository 10
  return s.updateTasks
    (fun t => t.kind = .provision && t.subject = repository && t.status = .failed)
    fun t => { t with status := .pending, attempts := 0, availableAt := now }

/-- The lock of a repository has to be taken again. -/
def unlock (s : Store) (now : Time) (repository : Uuid) : Store :=
  (s.markReview fun r => r.id = repository).updateTasks
    (fun t => t.kind = .lock && t.subject = repository &&
      (t.status = .done || t.status = .failed))
    fun t => { t with status := .pending, attempts := 0, availableAt := now }

/-- A commit no receipt is of is recorded for review. -/
def reconcile (s : Store) (now : Time) (fresh : Nat → Uuid) (tie : Uuid → Nat) (o : Observation)
    (sha : String) (received : Time) : Except Error Store :=
  let known := s.events.any fun e => e.repositoryId = o.repository && e.sha = sha
  if !known && o.columns.observedSha ≠ some sha then
    (Submissions.record s now fresh tie o.repository sha received .reconciliation none).map Prod.fst
  else return s

/-- The transaction of `observe` for the branch and the permission it found. -/
def found (s : Store) (now : Time) (fresh : Nat → Uuid) (tie : Uuid → Nat) (o : Observation)
    (sha permission : String) (received : Time) : Except Error Store := do
  let s ← reconcile s now fresh tie o sha received
  return if o.closureDue && permission ≠ "read" && permission ≠ "none" then
    unlock s now o.repository else s

end Observation

/-! ### The system -/

/-- The deployment, with the observations that are under way. -/
structure Upkeep where
  sys : Sys
  columns : Uuid → Provisioning
  observations : List Observation

namespace Upkeep

/-- One write of a web process, a worker or a synchronization.  What is asked of
GitHub and read in between decides only which of them are made. -/
inductive Event
  | store (op : Op)
  | setRepositoryId (repository : Uuid) (id : Int)
  | finishSeeding (repository task token : Uuid)
  | setInvitation (repository : Uuid) (state : Courses.RepositoryState)
  /-- A provisioned repository whose invitation is pending is looked at again. -/
  | again (task token : Uuid)
  /-- A task waits for the rate limit of GitHub. -/
  | postpone (task token : Uuid) (retryAt : Time)
  | beginObserve (repository : Uuid)
  | missing (i : Nat) (id : Uuid)
  | found (i : Nat) (fresh : Nat → Uuid) (tie : Uuid → Nat) (sha permission : String)
      (received : Time)
  | endObserve (i : Nat)

def updateColumns (σ : Upkeep) (repository : Uuid) (f : Provisioning → Provisioning) : Upkeep :=
  { σ with columns := Function.update σ.columns repository (f (σ.columns repository)) }

/-- `courses::repository`. -/
def read (σ : Upkeep) (repository : Uuid) : Except Error Observation := do
  let r ← σ.sys.store.fetchRepository repository
  return ⟨r.id, r.closureDue, σ.columns r.id⟩

/-- The store after a transaction of the observation at `i`, which is then over. -/
def observe (σ : Upkeep) (i : Nat) (outcome : Except Error Store) : Upkeep :=
  { σ with
    sys := { σ.sys with store := outcome.toOption.getD σ.sys.store }
    observations := σ.observations.eraseIdx i }

/-- Whether the row takes a write that needs the repository open. -/
def isOpen (σ : Upkeep) (repository : Uuid) : Bool :=
  σ.sys.store.repositories.any fun r => r.id = repository && !r.closureDue

variable [Sha256]

/-- The deployment after an event. -/
def perform (σ : Upkeep) (now : Time) : Event → Upkeep
  | .store op => { σ with sys := σ.sys.perform now op }
  | .setRepositoryId repository id =>
    σ.updateColumns repository fun c =>
      if c.githubRepoId.all fun old => old = id then { c with githubRepoId := some id } else c
  | .finishSeeding repository task token =>
    if σ.isOpen repository && σ.sys.store.tasks.any (Queue.holds now task token) then
      σ.updateColumns repository fun c => { c with state := .invitationPending }
    else σ
  | .setInvitation repository state =>
    if σ.isOpen repository then σ.updateColumns repository fun c => { c with state := state }
    else σ
  | .again task token =>
    let s := σ.sys.store.updateTasks
      (fun t => t.id = task && t.leaseToken = some token && t.status = .done)
      fun t => { t with status := .pending, attempts := 0, availableAt := now + 300 * nanosPerSecond }
    { σ with sys := { σ.sys with store := s } }
  | .postpone task token retryAt =>
    let s := σ.sys.store.updateTasks
      (fun t => t.id = task && t.leaseToken = some token && t.status = .pending)
      fun t => { t with availableAt := max t.availableAt (timestamptz retryAt) }
    { σ with sys := { σ.sys with store := s } }
  | .beginObserve repository =>
    match σ.read repository with
    | .ok o => { σ with observations := σ.observations ++ [o] }
    | .error _ => σ
  | .missing i id =>
    match σ.observations[i]? with
    | none => σ
    | some o =>
      if o.columns.githubRepoId.isNone then
        σ.observe i (Observation.missing σ.sys.store now id o.repository)
      else σ
  | .found i fresh tie sha permission received =>
    match σ.observations[i]? with
    | none => σ
    | some o =>
      if o.columns.githubRepoId.isSome then
        let outcome := Observation.found σ.sys.store now fresh tie o sha permission received
        let seen := fun c : Provisioning => { c with
          observedSha := some sha
          state := if c.state = .invitationPending && permission = "write" then .ready
            else c.state }
        (if outcome.isOk then σ.updateColumns o.repository seen else σ).observe i outcome
      else σ
  | .endObserve i => { σ with observations := σ.observations.eraseIdx i }

/-- What the callers of an operation see to. -/
def allowed (σ : Upkeep) : Event → Bool
  | .store op => σ.sys.allowed op
  | _ => true

/-- One event, at a time not before the last. -/
def next (σ : Upkeep) (l : Time × Event) : Option Upkeep :=
  if σ.sys.clock ≤ l.1 && σ.allowed l.2 then
    let τ := σ.perform l.1 l.2
    some { τ with sys := { τ.sys with clock := l.1 } }
  else none

def Step (σ : Upkeep) (l : Time × Event) (τ : Upkeep) : Prop := σ.next l = some τ

/-- A deployment before any work is queued or graded, and nothing observed. -/
structure Initial (σ : Upkeep) : Prop where
  sys : σ.sys.Initial
  observations : σ.observations = []

def Reachable : Upkeep → Prop := Transition.Reachable Step Initial

end Upkeep

/-! ### Failed tasks -/

/-- A task that used up its attempts and is not the lock of a repository. -/
def Exhausted (t : TaskRow) : Prop :=
  t.status = .failed ∧ (t.kind = .provision ∨ t.kind = .snapshot ∨ t.kind = .publish)

/-- The exhausted tasks of `s` that are not `spared` are rows of `s'`, as they were. -/
def Leaves (spared : TaskRow → Prop) (s s' : Store) : Prop :=
  ∀ t ∈ s.tasks, Exhausted t → ¬ spared t → t ∈ s'.tasks

namespace Leaves

variable {spared : TaskRow → Prop} {s s' s'' : Store} {now : Time}

theorem of_eq (h : s'.tasks = s.tasks) : Leaves spared s s' := by
  intro t ht _ _
  rw [h]
  exact ht

theorem refl (s : Store) : Leaves spared s s := of_eq rfl

theorem trans (h : Leaves spared s s') (h' : Leaves spared s' s'') : Leaves spared s s'' :=
  fun t ht he hs => h' t (h t ht he hs) he hs

/-- An update that does not select them. -/
theorem updateTasks {p : TaskRow → Bool} {f : TaskRow → TaskRow}
    (h : ∀ t ∈ s.tasks, Exhausted t → p t = true → spared t) :
    Leaves spared s (s.updateTasks p f) := by
  intro t ht he hs
  refine mem_updateWhere_of_neg ht ?_
  rw [Bool.eq_false_iff]
  exact fun hp => hs (h t ht he hp)

/-- An update of tasks of another status. -/
theorem updateStatus {p : TaskRow → Bool} {f : TaskRow → TaskRow}
    (h : ∀ t, p t = true → t.status ≠ .failed) : Leaves spared s (s.updateTasks p f) :=
  updateTasks fun t _ he hp => absurd he.1 (h t hp)

/-- An update of tasks of another kind. -/
theorem updateKind {p : TaskRow → Bool} {f : TaskRow → TaskRow}
    (h : ∀ t, p t = true → t.kind = .lock ∨ t.kind = .grade) :
    Leaves spared s (s.updateTasks p f) := by
  refine updateTasks fun t _ he hp => ?_
  obtain ⟨_, hkind⟩ := he
  rcases h t hp with h | h <;> simp [h] at hkind

/-- A write of the holder of a lease. -/
theorem updateHeld {id token : Uuid} {f : TaskRow → TaskRow} :
    Leaves spared s (s.updateTasks (Queue.holds now id token) f) := by
  refine updateStatus fun t hp hfailed => ?_
  simp only [Queue.holds, Bool.and_eq_true, decide_eq_true_eq] at hp
  rw [hp.1.2] at hfailed
  cases hfailed

theorem enqueue {id subject : Uuid} {kind : TaskKind} {priority : Int}
    (h : Queue.enqueue s now id kind subject priority = .ok s') : Leaves spared s s' := by
  rw [Queue.enqueue] at h
  split at h
  · rw [pure_ok] at h
    rw [h]
    exact refl s'
  · simp only [bind_ok, pure_ok] at h
    obtain ⟨_, _, rfl⟩ := h
    exact fun t ht _ _ => List.mem_append_left _ ht

/-! The operations on receipts. -/

theorem enqueueSnapshots : ∀ {l : List (Uuid × Bool)} {fresh : Nat → Uuid} {s s' : Store},
    Submissions.enqueueSnapshots now s fresh l = .ok s' → Leaves spared s s' := by
  intro l
  induction l with
  | nil =>
    intro fresh s s' h
    rw [Submissions.enqueueSnapshots, pure_ok] at h
    rw [h]
    exact refl s'
  | cons e rest ih =>
    obtain ⟨id, final⟩ := e
    intro fresh s s' h
    rw [Submissions.enqueueSnapshots, bind_ok] at h
    obtain ⟨s₁, h₁, h₂⟩ := h
    exact (enqueue h₁).trans (ih h₂)

theorem scheduleSnapshots {fresh : Nat → Uuid} {tie : Uuid → Nat} {repository : Uuid}
    (h : Submissions.scheduleSnapshots s now fresh tie repository = .ok s') :
    Leaves spared s s' := by
  rw [Submissions.scheduleSnapshots, bind_ok] at h
  obtain ⟨r, _, h⟩ := h
  refine trans (updateStatus fun t hp hfailed => ?_) (enqueueSnapshots h)
  simp only [Submissions.outdated, Bool.and_eq_true, decide_eq_true_eq] at hp
  rw [hp.1.2] at hfailed
  cases hfailed

theorem record {fresh : Nat → Uuid} {tie : Uuid → Nat} {repository : Uuid} {sha : String}
    {received : Time} {source : EventSource} {delivery out : Option Uuid}
    (h : Submissions.record s now fresh tie repository sha received source delivery
      = .ok (s', out)) : Leaves spared s s' := by
  simp only [Submissions.record, Submissions.insertEvent, bind_ok, pure_ok] at h
  obtain ⟨_, _, p, _, s₁, ⟨_, _, rfl⟩, h⟩ := h
  split at h
  · rw [pure_ok, Prod.mk.injEq] at h
    rw [← h.1]
    split <;> exact of_eq rfl
  · split at h
    · rw [pure_ok, Prod.mk.injEq] at h
      rw [← h.1]
      exact of_eq rfl
    · simp only [Submissions.insertSubmission, bind_ok, pure_ok, Prod.mk.injEq] at h
      obtain ⟨s₂, ⟨_, _, rfl⟩, s₃, h₃, rfl, _⟩ := h
      refine trans (of_eq ?_) (scheduleSnapshots h₃)
      rfl

theorem enqueueLock {id repository : Uuid}
    (h : Submissions.enqueueLock s now id repository = .ok s') : Leaves spared s s' := by
  simp only [Submissions.enqueueLock, bind_ok, pure_ok] at h
  obtain ⟨s₁, h₁, rfl⟩ := h
  refine (enqueue h₁).trans (updateKind fun t hp => Or.inl ?_)
  simp only [Bool.and_eq_true, decide_eq_true_eq] at hp
  exact hp.1.1

theorem selectSubmission {fresh : Nat → Uuid} {event out : Uuid} {operator reason : String}
    (h : Submissions.selectSubmission s now fresh event operator reason = .ok (s', out)) :
    Leaves spared s s' := by
  simp only [Submissions.selectSubmission, bind_ok, pure_ok, Prod.mk.injEq] at h
  obtain ⟨_, _, e, _, r, _, _, _, ⟨s₁, id⟩, h₁, _, _, s₂, h₂, rfl, _⟩ := h
  have hs₁ : s₁.tasks = s.tasks := by
    rw [Submissions.submissionOfEvent] at h₁
    split at h₁
    · rw [pure_ok, Prod.mk.injEq] at h₁
      rw [← h₁.1]
    · simp only [bind_ok, pure_ok, Prod.mk.injEq, Submissions.insertSubmission] at h₁
      obtain ⟨_, ⟨_, _, rfl⟩, rfl, _⟩ := h₁
      rfl
  refine trans (of_eq ?_) (enqueue h₂)
  exact hs₁

/-- Freezing a repository gives the task of its final submission another chance. -/
theorem freeze {repository : Uuid}
    (h : ∀ t ∈ s.tasks, t.kind = .snapshot →
      (s.newest repository).map Submission.id = some t.subject → spared t) :
    Leaves spared s (Submissions.freeze s now repository) := by
  rw [Submissions.freeze]
  split
  · rename_i submission hnewest
    refine (of_eq rfl : Leaves spared s (s.updateRepositories _ _)).trans (updateTasks fun t ht he hp => ?_)
    simp only [Submissions.ofFinal, Bool.or_eq_true, Bool.and_eq_true, decide_eq_true_eq] at hp
    rcases hp with ⟨hkind, hsub⟩ | ⟨hkind, _⟩
    · refine h t ht hkind ?_
      rw [hnewest, hsub]
    · obtain ⟨_, hcontrol⟩ := he
      simp [hkind] at hcontrol
  · exact of_eq rfl

/-! The other operations. -/

theorem requestRepository {fresh : Nat → Uuid} {githubId : Int} {assignment out : Uuid}
    (h : Courses.requestRepository s now fresh githubId assignment = .ok (s', out)) :
    Leaves spared s s' := by
  simp only [Courses.requestRepository, bind_ok] at h
  obtain ⟨a, _, _, _, e, _, current, _, v, _, h⟩ := h
  split at h
  · rw [pure_ok, Prod.mk.injEq] at h
    rw [← h.1]
    exact refl s
  · simp only [bind_ok, pure_ok, Prod.mk.injEq] at h
    obtain ⟨_, _, _, _, s₁, h₁, rfl, _⟩ := h
    refine trans (of_eq ?_) (enqueue h₁)
    rfl

theorem publishes (h : Publishes s s') : Leaves spared s s' := of_eq (by rw [h.rest])

theorem leaseTask (hk : Keyed TaskRow.id s.tasks) {locked : List Uuid} {token : Uuid}
    {owner : String} {kinds : List TaskKind} :
    Leaves spared s (Queue.lease s now locked token owner kinds).1 := by
  rw [Queue.lease]
  split
  · exact refl s
  · rename_i t ht
    refine updateTasks fun u hu he hid => ?_
    have hmem := List.argmin_mem ht
    rw [List.mem_filter, Bool.and_eq_true, Bool.and_eq_true] at hmem
    rw [decide_eq_true_eq] at hid
    have hready := hmem.2.1.2
    rw [← hk.eq hu hmem.1 hid] at hready
    simp [TaskRow.ready, he.1] at hready

theorem heartbeat {id token : Uuid} {owner : String}
    (h : Queue.heartbeat s now id token owner = .ok s') : Leaves spared s s' := by
  simp only [Queue.heartbeat, bind_ok, pure_ok] at h
  obtain ⟨_, _, rfl⟩ := h
  refine updateStatus fun t hp hfailed => ?_
  simp only [Queue.holds, Bool.and_eq_true, decide_eq_true_eq] at hp
  rw [hp.1.1.2] at hfailed
  cases hfailed

theorem expireExhausted : Leaves spared s (Queue.expireExhausted s now) := by
  refine updateStatus fun t hp hfailed => ?_
  simp only [Bool.and_eq_true, decide_eq_true_eq] at hp
  rw [hp.1.1] at hfailed
  cases hfailed

theorem finish {task : Task} (h : Queue.finish s now task = .ok s') : Leaves spared s s' := by
  simp only [Queue.finish, bind_ok, pure_ok] at h
  obtain ⟨_, _, rfl⟩ := h
  exact updateHeld

theorem failPermanently {task : Task} :
    Leaves spared s (Queue.failPermanently s now task) :=
  (updateHeld : Leaves spared s (s.updateTasks (Queue.holds now _ _) _)).trans (of_eq rfl)

theorem displace {repository x : Uuid} : Leaves spared s (Runs.displace s repository x) := by
  refine trans (updateKind fun t hp => Or.inr ?_) (of_eq rfl)
  simp only [Runs.displaced, Bool.and_eq_true, decide_eq_true_eq] at hp
  exact hp.1.1

theorem insertRun {g : GradingRun} (h : Runs.insertRun s now g = .ok s') :
    Leaves spared s s' := by
  simp only [Runs.insertRun, bind_ok, pure_ok] at h
  obtain ⟨_, _, _, _, _, _, rfl⟩ := h
  exact of_eq rfl

theorem enqueueRun {fresh : Nat → Uuid} {x out : Uuid} {regrade : Bool}
    (h : Runs.enqueueRun s now fresh x regrade = .ok (s', out)) : Leaves spared s s' := by
  simp only [Runs.enqueueRun, bind_ok] at h
  obtain ⟨y, _, r, _, _, _, h⟩ := h
  split at h
  · rw [pure_ok, Prod.mk.injEq] at h
    rw [← h.1]
    exact refl s
  · simp only [bind_ok] at h
    obtain ⟨latest, _, attempt, _, s₁, h₁, h⟩ := h
    refine (insertRun h₁).trans ?_
    split at h
    · rw [pure_ok, Prod.mk.injEq] at h
      rw [← h.1]
      exact refl s₁
    · simp only [bind_ok, pure_ok, Prod.mk.injEq] at h
      obtain ⟨s₂, h₂, rfl, _⟩ := h
      exact displace.trans (enqueue h₂)

theorem insertPrivate {fresh : Nat → Uuid} {x baseline out : Uuid} {revision : String}
    {attempt : Int}
    (h : Runs.insertPrivate s now fresh x revision attempt baseline = .ok (s', out)) :
    Leaves spared s s' := by
  simp only [Runs.insertPrivate, bind_ok, pure_ok, Prod.mk.injEq] at h
  obtain ⟨s₁, h₁, s₂, h₂, rfl, _⟩ := h
  exact (insertRun h₁).trans (enqueue h₂)

theorem enqueuePrivate {fresh : Nat → Uuid} {repository : Uuid} {operator reason : String}
    {out : Runs.PrivateOutcome}
    (h : Runs.enqueuePrivateRepository s now fresh repository operator reason = .ok (s', out)) :
    Leaves spared s s' := by
  simp only [Runs.enqueuePrivateRepository, bind_ok] at h
  obtain ⟨p, _, h⟩ := h
  split at h
  · rw [pure_ok, Prod.mk.injEq] at h
    rw [← h.1]
    exact refl s
  · split at h
    · rw [pure_ok, Prod.mk.injEq] at h
      rw [← h.1]
      exact refl s
    · simp only [bind_ok] at h
      obtain ⟨v, _, definition, _, _, _, h⟩ := h
      split at h
      · rw [pure_ok, Prod.mk.injEq] at h
        rw [← h.1]
        exact refl s
      · simp only [bind_ok, pure_ok, Prod.mk.injEq] at h
        obtain ⟨attempt, _, ⟨s₁, run⟩, h₁, rfl, _⟩ := h
        exact (insertPrivate h₁).trans (of_eq rfl)

theorem retryPrivate {fresh : Nat → Uuid} {failed out : Uuid} {operator reason : String}
    (h : Runs.retryPrivate s now fresh failed operator reason = .ok (s', out)) :
    Leaves spared s s' := by
  simp only [Runs.retryPrivate, bind_ok, pure_ok, Prod.mk.injEq] at h
  obtain ⟨_, _, g, _, x, _, latest, _, _, _, baseline, _, attempt, _, ⟨s₁, run⟩, h₁, rfl, _⟩ := h
  exact (insertPrivate h₁).trans (of_eq rfl)

theorem lease (hk : Keyed TaskRow.id s.tasks) {locked : List Uuid} {token : Uuid}
    {worker : Worker} {requested : List String} {out : Option Uuid}
    (h : Runs.lease s now locked token worker requested = .ok (s', out)) :
    Leaves spared s s' := by
  simp only [Runs.lease, bind_ok] at h
  obtain ⟨caps, _, h⟩ := h
  split at h
  · rw [pure_ok, Prod.mk.injEq] at h
    rw [← h.1]
    exact refl s
  · split at h
    · rw [pure_ok, Prod.mk.injEq] at h
      rw [← h.1]
      exact refl s
    · rename_i t ht
      rw [pure_ok, Prod.mk.injEq] at h
      rw [← h.1]
      refine trans (updateTasks fun u hu he hid => ?_) (of_eq rfl)
      have hmem := List.argmin_mem ht
      rw [List.mem_filter, Bool.and_eq_true] at hmem
      rw [decide_eq_true_eq] at hid
      have hready := hmem.2.1
      rw [← hk.eq hu hmem.1 hid] at hready
      simp [Runs.leasable, TaskRow.ready, he.1] at hready

theorem acceptCommit [Sha256] (hk : Keyed TaskRow.id s.tasks) {fresh : Nat → Uuid}
    {call : Runs.AcceptCall} (h : Runs.acceptCommit s now fresh call = .ok s') :
    Leaves spared s s' := by
  simp only [Runs.acceptCommit, bind_ok, fetchOne_ok] at h
  obtain ⟨t, ht, h⟩ := h
  split at h
  · simp only [bind_ok, pure_ok] at h
    obtain ⟨_, _, _, _, rfl⟩ := h
    exact refl s
  · simp only [bind_ok, check_ok, Bool.and_eq_true, decide_eq_true_eq] at h
    obtain ⟨_, ⟨hleased, _⟩, _, _, h⟩ := h
    have hid := List.find?_some ht
    simp only [Bool.and_eq_true, decide_eq_true_eq] at hid
    refine trans ?_ (enqueue h)
    refine updateTasks (p := fun u => u.id = call.task) (f := fun u => { u with status := .done })
      fun u hu he hp => ?_
    rw [decide_eq_true_eq] at hp
    rw [hk.eq hu (List.mem_of_find?_eq_some ht) (hp.trans hid.1.1.symm), Exhausted, hleased] at he
    cases he.1

end Leaves

/-! ### Every operation -/

/-- The operation closes a repository for the first time, with `submission` as
the final one. -/
def Finalizes (s : Store) (now : Time) (op : Op) (submission : Uuid) : Prop :=
  ∃ fresh repository p, op = .store (.close fresh repository) ∧
    s.fetchPinned repository = .ok p ∧ p.deadline < now ∧ p.repository.closureDue = false ∧
    (s.newest repository).map Submission.id = some submission

theorem Leaves.close {s s' : Store} {now : Time} {fresh : Nat → Uuid} {repository : Uuid}
    (h : Submissions.close s now fresh repository = .ok s') :
    Leaves (fun t => t.kind = .snapshot ∧
      Finalizes s now (.store (.close fresh repository)) t.subject) s s' := by
  simp only [Submissions.close, bind_ok] at h
  obtain ⟨p, hp, h⟩ := h
  have hfirst : Leaves (fun t => t.kind = .snapshot ∧
      Finalizes s now (.store (.close fresh repository)) t.subject) s
      (if (decide (p.deadline < now) && !p.repository.closureDue) = true then
        Submissions.freeze s now repository else s) := by
    split
    · rename_i hdue
      rw [Bool.and_eq_true, decide_eq_true_eq, Bool.not_eq_true'] at hdue
      exact freeze fun t _ hkind hnewest =>
        ⟨hkind, fresh, repository, p, rfl, hp, hdue.1, hdue.2, hnewest⟩
    · exact refl s
  split at h
  · exact hfirst.trans (enqueueLock h)
  · rw [pure_ok] at h
    rw [← h]
    exact hfirst

section Steps
variable [Sha256]

/-- **No operation but a retry writes an exhausted task**, except the closing
that makes its submission final. -/
theorem Leaves.exec {s s' : Store} {now : Time} {op : StoreOp} (hk : Keyed TaskRow.id s.tasks)
    (hno : ∀ task operator reason, op ≠ .retry task operator reason)
    (h : op.exec s now = .ok s') :
    Leaves (fun t => t.kind = .snapshot ∧ Finalizes s now (.store op) t.subject) s s' := by
  cases op <;> simp only [StoreOp.exec, map_fst_ok, Except.ok.injEq] at h
  case publish => exact .publishes (.publish h)
  case applySet => exact .publishes (.applySet h)
  case overrideGrade =>
    simp only [Submissions.overrideGrade, bind_ok, pure_ok] at h
    obtain ⟨_, _, _, _, _, _, _, _, _, _, rfl⟩ := h
    exact .of_eq rfl
  case requestRepository => obtain ⟨_, h⟩ := h; exact .requestRepository h
  case record => obtain ⟨_, h⟩ := h; exact .record h
  case scheduleSnapshots => exact .scheduleSnapshots h
  case close => exact .close h
  case extend =>
    simp only [Submissions.extend, bind_ok, pure_ok] at h
    obtain ⟨_, _, p, _, _, _, rfl⟩ := h
    exact .of_eq rfl
  case selectSubmission => obtain ⟨_, h⟩ := h; exact .selectSubmission h
  case put =>
    obtain ⟨_, h⟩ := h
    simp only [Submissions.put, bind_ok, pure_ok, Prod.mk.injEq] at h
    obtain ⟨_, _, rfl, _⟩ := h
    split <;> exact .of_eq rfl
  case retainSource =>
    simp only [Submissions.retainSource, bind_ok, pure_ok] at h
    obtain ⟨_, _, rfl⟩ := h
    exact .of_eq rfl
  case flagFailedSnapshots => rw [← h]; exact .of_eq rfl
  case leaseTask => rw [← h]; exact .leaseTask hk
  case heartbeat => exact .heartbeat h
  case finish => exact .finish h
  case fail => rw [← h]; exact .updateHeld
  case failPermanently => rw [← h]; exact .failPermanently
  case deferTask => rw [← h]; exact .updateHeld
  case retry task operator reason => exact absurd rfl (hno task operator reason)
  case expireExhausted => rw [← h]; exact .expireExhausted
  case enqueueRun => obtain ⟨_, h⟩ := h; exact .enqueueRun h
  case enqueuePrivate => obtain ⟨_, h⟩ := h; exact .enqueuePrivate h
  case retryPrivate => obtain ⟨_, h⟩ := h; exact .retryPrivate h
  case lease => obtain ⟨_, h⟩ := h; exact .lease hk h
  case markFailed => rw [← h]; exact .of_eq rfl

theorem Leaves.perform {σ : Sys} {now : Time} {op : Op} (hk : Keyed TaskRow.id σ.store.tasks)
    (hno : ∀ task operator reason, op ≠ .store (.retry task operator reason)) :
    Leaves (fun t => t.kind = .snapshot ∧ Finalizes σ.store now op t.subject) σ.store
      (σ.perform now op).store := by
  cases op with
  | store op =>
    simp only [Sys.perform]
    split
    · rename_i s' hs'
      exact .exec hk (fun task operator reason heq => hno task operator reason (by rw [heq])) hs'
    · exact .refl _
  | acceptLease worker task result =>
    simp only [Sys.perform]
    split <;> exact .refl _
  | acceptExisting i =>
    simp only [Sys.perform]
    split
    · exact .refl _
    · split <;> exact .refl _
  | acceptPut i =>
    simp only [Sys.perform]
    split
    · exact .refl _
    · split
      · rename_i hput
        simp only [Submissions.put, bind_ok, pure_ok, Prod.mk.injEq] at hput
        obtain ⟨_, _, rfl, _⟩ := hput
        split <;> exact .of_eq rfl
      · exact .refl _
  | acceptCommit i fresh =>
    simp only [Sys.perform]
    split
    · exact .refl _
    · split
      · rename_i hcommit
        exact .acceptCommit hk hcommit
      · exact .refl _
  | acceptStop i => exact .refl _

end Steps

/-! ### Observations -/

namespace Observation

variable {spared : TaskRow → Prop} {s s' : Store} {now : Time}

theorem missing_leaves {id repository : Uuid}
    (hno : ∀ t ∈ s.tasks, t.kind = .provision → t.subject = repository → t.status ≠ .failed)
    (h : missing s now id repository = .ok s') : Leaves spared s s' := by
  simp only [missing, bind_ok, pure_ok] at h
  obtain ⟨s₁, h₁, rfl⟩ := h
  refine (Leaves.enqueue h₁).trans (.updateTasks fun t ht he hp => ?_)
  simp only [Bool.and_eq_true, decide_eq_true_eq] at hp
  -- the task that was enqueued is pending
  rw [Queue.enqueue] at h₁
  split at h₁
  · rw [pure_ok] at h₁
    rw [← h₁] at ht
    exact absurd hp.2 (hno t ht hp.1.1 hp.1.2)
  · simp only [bind_ok, pure_ok] at h₁
    obtain ⟨_, _, rfl⟩ := h₁
    rcases List.mem_append.mp ht with hold | hlast
    · exact absurd hp.2 (hno t hold hp.1.1 hp.1.2)
    · rw [List.mem_singleton.mp hlast] at hp
      cases hp.2

theorem found_leaves {fresh : Nat → Uuid} {tie : Uuid → Nat} {o : Observation}
    {sha permission : String} {received : Time}
    (h : found s now fresh tie o sha permission received = .ok s') : Leaves spared s s' := by
  simp only [found, bind_ok, pure_ok] at h
  obtain ⟨s₁, h₁, rfl⟩ := h
  have hfirst : Leaves spared s s₁ := by
    rw [reconcile] at h₁
    split at h₁
    · rw [map_fst_ok] at h₁
      obtain ⟨_, h₁⟩ := h₁
      exact .record h₁
    · rw [pure_ok] at h₁
      rw [h₁]
      exact .refl s₁
  refine hfirst.trans ?_
  split
  · refine (.of_eq rfl : Leaves _ s₁ (s₁.markReview _)).trans (.updateKind fun t hp => Or.inl ?_)
    simp only [Bool.and_eq_true, decide_eq_true_eq] at hp
    exact hp.1.1
  · exact .refl s₁

theorem missing_continues {id repository : Uuid} (h : missing s now id repository = .ok s') :
    Continues s s' := by
  simp only [missing, bind_ok, pure_ok] at h
  obtain ⟨s₁, h₁, rfl⟩ := h
  exact (Continues.enqueue h₁).trans (.updateTasks fun _ => ⟨rfl, rfl, rfl⟩)

theorem found_continues {fresh : Nat → Uuid} {tie : Uuid → Nat} {o : Observation}
    {sha permission : String} {received : Time}
    (h : found s now fresh tie o sha permission received = .ok s') : Continues s s' := by
  simp only [found, bind_ok, pure_ok] at h
  obtain ⟨s₁, h₁, rfl⟩ := h
  have hfirst : Continues s s₁ := by
    rw [reconcile] at h₁
    split at h₁
    · rw [map_fst_ok] at h₁
      obtain ⟨_, h₁⟩ := h₁
      exact .record h₁
    · rw [pure_ok] at h₁
      rw [h₁]
      exact .refl s₁
  refine hfirst.trans ?_
  split
  · exact (Continues.markReview _ _).trans (.updateTasks fun _ => ⟨rfl, rfl, rfl⟩)
  · exact .refl s₁

end Observation

namespace Upkeep

variable [Sha256] {σ τ : Upkeep} {l : Time × Event}

theorem step_perform (h : Step σ l τ) : σ.sys.clock ≤ l.1 ∧ σ.allowed l.2 = true ∧
    τ.sys.store = (σ.perform l.1 l.2).sys.store := by
  rw [Step, next] at h
  split at h
  · rename_i hok
    rw [Bool.and_eq_true, decide_eq_true_eq] at hok
    rw [Option.some_inj] at h
    exact ⟨hok.1, hok.2, by rw [← h]⟩
  · cases h

/-- **What an event does to the store**: an operation, a write to tasks that have
not failed, the transaction of an observation, or nothing. -/
theorem perform_store (now : Time) (e : Event) :
    (∃ op, e = .store op ∧ (σ.perform now e).sys.store = (σ.sys.perform now op).store) ∨
      (∃ p f, (∀ t, p t = true → t.status ≠ .failed) ∧
        (∀ t, (f t).id = t.id ∧ (f t).kind = t.kind ∧ (f t).subject = t.subject) ∧
        (σ.perform now e).sys.store = σ.sys.store.updateTasks p f) ∨
      (∃ i id o, e = .missing i id ∧ σ.observations[i]? = some o ∧
        o.columns.githubRepoId = none ∧
        Observation.missing σ.sys.store now id o.repository =
          .ok (σ.perform now e).sys.store) ∨
      (∃ fresh tie o sha permission received,
        Observation.found σ.sys.store now fresh tie o sha permission received =
          .ok (σ.perform now e).sys.store) ∨
      (σ.perform now e).sys.store = σ.sys.store := by
  cases e with
  | store op => exact Or.inl ⟨op, rfl, rfl⟩
  | again task token =>
    refine Or.inr (Or.inl ⟨_, _, fun t hp hfailed => ?_, fun t => ?_, rfl⟩)
    · simp [hfailed] at hp
    · exact ⟨rfl, rfl, rfl⟩
  | postpone task token retryAt =>
    refine Or.inr (Or.inl ⟨_, _, fun t hp hfailed => ?_, fun t => ?_, rfl⟩)
    · simp [hfailed] at hp
    · exact ⟨rfl, rfl, rfl⟩
  | missing i id =>
    simp only [perform]
    split
    · exact Or.inr (Or.inr (Or.inr (Or.inr rfl)))
    · rename_i o ho
      split
      · rename_i hnone
        rw [Option.isNone_iff_eq_none] at hnone
        cases hm : Observation.missing σ.sys.store now id o.repository with
        | ok s' => exact Or.inr (Or.inr (Or.inl ⟨i, id, o, rfl, ho, hnone, hm⟩))
        | error e => exact Or.inr (Or.inr (Or.inr (Or.inr rfl)))
      · exact Or.inr (Or.inr (Or.inr (Or.inr rfl)))
  | found i fresh tie sha permission received =>
    simp only [perform]
    split
    · exact Or.inr (Or.inr (Or.inr (Or.inr rfl)))
    · rename_i o ho
      split
      · cases hf : Observation.found σ.sys.store now fresh tie o sha permission received with
        | ok s' =>
          exact Or.inr (Or.inr (Or.inr (Or.inl ⟨fresh, tie, o, sha, permission, received, hf⟩)))
        | error e => exact Or.inr (Or.inr (Or.inr (Or.inr rfl)))
      · exact Or.inr (Or.inr (Or.inr (Or.inr rfl)))
  | setRepositoryId repository id => exact Or.inr (Or.inr (Or.inr (Or.inr rfl)))
  | finishSeeding repository task token =>
    refine Or.inr (Or.inr (Or.inr (Or.inr ?_)))
    simp only [perform]
    split <;> rfl
  | setInvitation repository state =>
    refine Or.inr (Or.inr (Or.inr (Or.inr ?_)))
    simp only [perform]
    split <;> rfl
  | beginObserve repository =>
    refine Or.inr (Or.inr (Or.inr (Or.inr ?_)))
    simp only [perform]
    split <;> rfl
  | endObserve i => exact Or.inr (Or.inr (Or.inr (Or.inr rfl)))

theorem Step.keys (hk : Keys σ.sys.store) (h : Step σ l τ) : Keys τ.sys.store := by
  obtain ⟨hclock, hallowed, hstore⟩ := step_perform h
  rw [hstore]
  rcases perform_store l.1 l.2 with ⟨op, hop, heq⟩ | ⟨p, f, _, hf, heq⟩ |
    ⟨i, id, o, _, _, _, heq⟩ | ⟨fresh, tie, o, sha, permission, received, heq⟩ | heq
  · rw [heq]
    rw [hop] at hallowed
    have hst : Sys.Step σ.sys (l.1, op) { σ.sys.perform l.1 op with clock := l.1 } :=
      ⟨hclock, hallowed, rfl⟩
    exact (hst.evolves hk).keys hk
  · rw [heq]
    exact (Continues.updateTasks hf).keys hk
  · exact (Observation.missing_continues heq).keys hk
  · exact (Observation.found_continues heq).keys hk
  · rw [heq]
    exact hk

theorem Reachable.keys (h : σ.Reachable) : Keys σ.sys.store := by
  refine Transition.Reachable.invariant (I := fun σ : Upkeep => Keys σ.sys.store)
    (fun _ h0 => h0.sys.keys) (fun _ _ _ _ hk hst => ?_) h
  exact hst.keys hk

/-- An observation that found no repository gives a failed provisioning another
chance. -/
def Resets (σ : Upkeep) (l : Time × Event) : Prop :=
  ∃ i id o, l.2 = .missing i id ∧ σ.observations[i]? = some o ∧
    o.columns.githubRepoId = none ∧
    ∃ t ∈ σ.sys.store.tasks, t.kind = .provision ∧ t.subject = o.repository ∧ t.status = .failed

/-- The event closes a repository, with `submission` as the final one. -/
def Closes (submission : Uuid) (p : Upkeep × (Time × Event)) : Prop :=
  ∃ op, p.2.2 = .store op ∧ Finalizes p.1.sys.store p.2.1 op submission

/-- **One event leaves the exhausted tasks alone**, unless it resets one. -/
theorem Step.leaves (hk : Keys σ.sys.store) (h : Step σ l τ)
    (hno : ∀ task operator reason, l.2 ≠ .store (.store (.retry task operator reason)))
    (hreset : ¬ Resets σ l) :
    Leaves (fun t => t.kind = .snapshot ∧ Closes t.subject (σ, l)) σ.sys.store τ.sys.store := by
  obtain ⟨_, _, hstore⟩ := step_perform h
  rw [hstore]
  rcases perform_store l.1 l.2 with ⟨op, hop, heq⟩ | ⟨p, f, hp, _, heq⟩ |
    ⟨i, id, o, hmissing, ho, hnone, heq⟩ | ⟨fresh, tie, o, sha, permission, received, heq⟩ | heq
  · rw [heq]
    intro t ht he hs
    refine Leaves.perform hk.tasks (fun task operator reason heq => ?_) t ht he fun hf => ?_
    · exact hno task operator reason (by rw [hop, heq])
    · exact hs ⟨hf.1, op, hop, hf.2⟩
  · rw [heq]
    exact .updateStatus hp
  · refine Observation.missing_leaves (fun t ht hkind hsub hfailed => ?_) heq
    exact hreset ⟨i, id, o, hmissing, ho, hnone, t, ht, hkind, hsub, hfailed⟩
  · exact Observation.found_leaves heq
  · exact .of_eq (by rw [heq])

omit [Sha256] in
/-- A reset makes the failed task pending. -/
theorem missing_resets {s s' : Store} {now : Time} {id repository : Uuid} {t : TaskRow}
    (h : Observation.missing s now id repository = .ok s') (ht : t ∈ s.tasks)
    (hkind : t.kind = .provision) (hsub : t.subject = repository) (hfailed : t.status = .failed) :
    { t with status := .pending, attempts := 0, availableAt := now } ∈ s'.tasks := by
  have htask : s.hasTask .provision repository = true := by
    rw [Store.hasTask, List.any_eq_true]
    exact ⟨t, ht, by simp [hkind, hsub]⟩
  simp only [Observation.missing, Queue.enqueue, htask, if_true, bind_ok, pure_ok] at h
  obtain ⟨_, rfl, rfl⟩ := h
  exact mem_updateWhere_of_pos ht (by simp [hkind, hsub, hfailed])

/-- **The condition is exact**: an event that resets makes a failed provisioning
pending. -/
theorem Step.resets (h : Step σ l τ) (hreset : Resets σ l) :
    ∃ t ∈ σ.sys.store.tasks, t.kind = .provision ∧ t.status = .failed ∧
      { t with status := .pending, attempts := 0, availableAt := l.1 } ∈ τ.sys.store.tasks := by
  obtain ⟨i, id, o, hl, ho, hnone, t, ht, hkind, hsub, hfailed⟩ := hreset
  obtain ⟨_, _, hstore⟩ := step_perform h
  refine ⟨t, ht, hkind, hfailed, ?_⟩
  have hok : ∃ s', Observation.missing σ.sys.store l.1 id o.repository = .ok s' := by
    have htask : σ.sys.store.hasTask .provision o.repository = true := by
      rw [Store.hasTask, List.any_eq_true]
      exact ⟨t, ht, by simp [hkind, hsub]⟩
    rw [Observation.missing, Queue.enqueue, if_pos htask]
    exact ⟨_, rfl⟩
  obtain ⟨s', hs'⟩ := hok
  have hτ : τ.sys.store = s' := by
    rw [hstore, hl]
    simp only [perform, ho, hnone, Option.isNone_none, if_true, observe, hs']
    rfl
  rw [hτ]
  exact missing_resets hs' ht hkind hsub hfailed

/-- **Exhausted work stays failed.**  In every run without an operator's retry
and in which no observation resets a failed provisioning, a failed provision or
publish task stays as it is, and so does a failed snapshot task until its
submission becomes final. -/
theorem exhausted_stays {taken : List (Upkeep × (Time × Event))} (hσ : σ.Reachable)
    (hrun : Transition.Run Step σ taken τ)
    (hno : ∀ p ∈ taken, ∀ task operator reason,
      p.2.2 ≠ .store (.store (.retry task operator reason)))
    (hreset : ∀ p ∈ taken, ¬ Resets p.1 p.2) {t : TaskRow} (ht : t ∈ σ.sys.store.tasks)
    (hfailed : t.status = .failed) :
    (t.kind = .provision ∨ t.kind = .publish → t ∈ τ.sys.store.tasks) ∧
      (t.kind = .snapshot → t ∈ τ.sys.store.tasks ∨ ∃ p ∈ taken, Closes t.subject p) := by
  have hleaves : Leaves (fun t => t.kind = .snapshot ∧ ∃ p ∈ taken, Closes t.subject p)
      σ.sys.store τ.sys.store := by
    clear ht hfailed
    induction hrun with
    | nil => exact .refl _
    | @snoc taken υ τ l hr hst ih =>
      have hυ : υ.Reachable := hσ.run hr
      have hlast : (υ, l) ∈ taken ++ [(υ, l)] :=
        List.mem_append_right _ (List.mem_singleton_self _)
      have hbefore := ih (fun p hp => hno p (List.mem_append_left _ hp))
        fun p hp => hreset p (List.mem_append_left _ hp)
      have hstep := hst.leaves hυ.keys (hno _ hlast) (hreset _ hlast)
      intro t ht he hs
      have hmid : t ∈ υ.sys.store.tasks := by
        refine hbefore t ht he fun hclosed => hs ⟨hclosed.1, ?_⟩
        obtain ⟨p, hp, hc⟩ := hclosed.2
        exact ⟨p, List.mem_append_left _ hp, hc⟩
      exact hstep t hmid he fun hclosed => hs ⟨hclosed.1, _, hlast, hclosed.2⟩
  constructor
  · intro hkind
    refine hleaves t ht ⟨hfailed, ?_⟩ fun hs => ?_
    · rcases hkind with h | h
      · exact Or.inl h
      · exact Or.inr (Or.inr h)
    · rw [hs.1] at hkind
      rcases hkind with h | h <;> cases h
  · intro hkind
    by_cases hclosed : ∃ p ∈ taken, Closes t.subject p
    · exact Or.inr hclosed
    · exact Or.inl (hleaves t ht ⟨hfailed, Or.inr (Or.inl hkind)⟩ fun hs => hclosed hs.2)

end Upkeep

namespace Sample

attribute [local instance] Sha256.standard

/-- A student of the course, and no repository yet. -/
def vacant : Upkeep where
  sys := { start with store := { start.store with repositories := [] } }
  columns := fun _ => ⟨none, .creating, none⟩
  observations := []

theorem vacant_initial : vacant.Initial where
  sys :=
    { accepts := rfl
      runs := rfl
      tasks := by intro t ht; cases ht
      taskIds := by decide
      taskKeys := by decide
      repositoryIds := by decide
      submissionIds := by decide
      submissionEvents := by decide
      eventIds := by decide
      revisionDigests := by decide
      submissionRepository := by intro x hx; cases hx
      finals := by intro r hr; cases hr }
  observations := rfl

/-- The provisioning of the repository 10 fails for the `n`th time. -/
def failing (n : Nat) : List (Time × Upkeep.Event) :=
  [(second (20000 * n), .store (.store (.leaseTask [] (ids 100 n) "control" [.provision]))),
    (second (20000 * n),
      .store (.store (.fail ⟨11, .provision, 10, ids 100 n, 0, n⟩ "stage=repository_create")))]

/-- A repository is requested, and cannot be created. -/
def unprovisioned : List (Time × Upkeep.Event) :=
  (second 1, .store (.store (.requestRepository (ids 10) 7 2))) ::
    ((List.range 8).map (· + 1)).flatMap failing

/-- The synchronization observes it. -/
def observed : List (Time × Upkeep.Event) :=
  [(second 170000, .beginObserve 10), (second 170000, .missing 0 50)]

/-- A worker set the ID of the repository before. -/
def provisioned : List (Time × Upkeep.Event) :=
  [(second 170000, .setRepositoryId 10 5), (second 170000, .beginObserve 10),
    (second 170001, .found 0 (ids 60) (fun _ => 0) shaA "write" (second 170001))]

/-- The provisioning of repository 10 is in the given status. -/
def provisioning (status : TaskStatus) (σ : Upkeep) : Bool :=
  σ.sys.store.tasks.any fun t => t.id = 11 && t.kind = .provision && t.status = status

/-- **The synchronization resets an exhausted provisioning**, although no operator
retried it. -/
theorem exhausted_reset : ∃ σ τ taken, σ.Reachable ∧ Transition.Run Upkeep.Step σ taken τ ∧
    (∀ p ∈ taken, ∀ op, p.2.2 ≠ .store op) ∧
    (∃ t ∈ σ.sys.store.tasks, t.id = 11 ∧ t.kind = .provision ∧ t.status = .failed) ∧
    ∃ t ∈ τ.sys.store.tasks, t.id = 11 ∧ t.kind = .provision ∧ t.status = .pending := by
  have hplay : ((Transition.replay Upkeep.next vacant unprovisioned).any fun σ =>
      provisioning .failed σ &&
        (Transition.replay Upkeep.next σ observed).any (provisioning .pending)) = true := by
    decide +kernel
  simp only [Option.any_eq_true, Bool.and_eq_true] at hplay
  obtain ⟨σ, hσ, hfailed, τ, hτ, hpending⟩ := hplay
  simp only [provisioning, List.any_eq_true, Bool.and_eq_true, decide_eq_true_eq, and_assoc]
    at hfailed hpending
  have hrun : Transition.Run Upkeep.Step vacant _ σ :=
    Transition.run_of_replay (fun _ _ _ h => h) hσ
  refine ⟨σ, τ, Transition.traceOf Upkeep.next σ observed, ⟨vacant, _, vacant_initial, hrun⟩,
    ?_, ?_, hfailed, hpending⟩
  · exact Transition.run_of_replay (fun _ _ _ h => h) hτ
  · intro p hp op
    have hop := Transition.mem_of_traceOf hp
    simp only [observed, List.mem_cons, List.not_mem_nil, or_false] at hop
    rcases hop with h | h <;> simp [h]

/-- **Once the repository has an ID, its provisioning stays failed.** -/
theorem exhausted_stays_provisioned : ∃ σ τ t,
    Transition.replay Upkeep.next vacant unprovisioned = some σ ∧
    Transition.replay Upkeep.next σ provisioned = some τ ∧
    t ∈ σ.sys.store.tasks ∧ t.kind = .provision ∧ t.status = .failed ∧
    t ∈ τ.sys.store.tasks := by
  have hplay : ((Transition.replay Upkeep.next vacant unprovisioned).any fun σ =>
      provisioning .failed σ && (Transition.replay Upkeep.next σ provisioned).isSome) = true := by
    decide +kernel
  simp only [Option.any_eq_true, Bool.and_eq_true, Option.isSome_iff_exists] at hplay
  obtain ⟨σ, hσ, hfailed, τ, hτ⟩ := hplay
  simp only [provisioning, List.any_eq_true, Bool.and_eq_true, decide_eq_true_eq, and_assoc]
    at hfailed
  obtain ⟨t, ht, _, hkind, hstatus⟩ := hfailed
  have hreach : σ.Reachable :=
    ⟨vacant, _, vacant_initial, Transition.run_of_replay (fun _ _ _ h => h) hσ⟩
  refine ⟨σ, τ, t, hσ, hτ, ht, hkind, hstatus, ?_⟩
  have hops : ∀ p ∈ Transition.traceOf Upkeep.next σ provisioned, p.2 ∈ provisioned :=
    fun p hp => Transition.mem_of_traceOf hp
  refine (Upkeep.exhausted_stays hreach (Transition.run_of_replay (fun _ _ _ h => h) hτ)
    (fun p hp task operator reason => ?_) (fun p hp => ?_) ht hstatus).1 (Or.inl hkind)
  · have hop := hops p hp
    simp only [provisioned, List.mem_cons, List.not_mem_nil, or_false] at hop
    rcases hop with h | h | h <;> simp [h]
  · rintro ⟨i, id, o, hl, _⟩
    have hop := hops p hp
    simp only [provisioned, List.mem_cons, List.not_mem_nil, or_false] at hop
    rcases hop with h | h | h <;> simp [h] at hl

end Sample

end Grading

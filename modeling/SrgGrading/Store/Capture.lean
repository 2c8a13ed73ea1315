import Mathlib.Data.List.Dedup
import SrgGrading.Store.Closure

/-!
# Capturing the final source

The source of a final submission is fetched by its snapshot task.  A submission
gets at most one, so once it is cancelled only the first closing of the
repository brings it back.

* `exec_spares`: no operation cancels the task of a final submission.
* `Sys.final_spared`: a final submission's task is not cancelled, unless it was
  when the submission was selected.
* `Sys.capture_refilled`: after a refill the task exists, or the queue of the
  enrollment is full, or the refill had enough other repositories.
-/

open Fallible Relational

namespace Grading

/-! ### Cancelled snapshots -/

/-- The snapshot task of a submission is cancelled. -/
def Cancelled (s : Store) (submission : Uuid) : Prop :=
  ∃ t ∈ s.tasks, t.kind = .snapshot ∧ t.subject = submission ∧ t.status = .cancelled

/-- The snapshot task of the submission is not cancelled between `s` and `s'`. -/
def Spares (submission : Uuid) (s s' : Store) : Prop :=
  Cancelled s' submission → Cancelled s submission

/-- A submission that is the final one of its repository. -/
structure FinalIn (s : Store) (submission : Uuid) : Prop where
  submitted : ∃ x ∈ s.submissions, x.id = submission
  final : ∀ x ∈ s.submissions, x.id = submission → Submissions.isFinal s x = true

namespace Spares

variable {submission : Uuid} {s s' s'' : Store} {now : Time}

theorem of_eq (h : s'.tasks = s.tasks) : Spares submission s s' := by
  intro hc
  rw [Cancelled, h] at hc
  exact hc

theorem refl (s : Store) : Spares submission s s := of_eq rfl

theorem trans (h : Spares submission s s') (h' : Spares submission s' s'') :
    Spares submission s s'' := fun hc => h (h' hc)

theorem updateTasks {p : TaskRow → Bool} {f : TaskRow → TaskRow}
    (h : ∀ t ∈ s.tasks, p t = true → (f t).kind = .snapshot → (f t).subject = submission →
      (f t).status = .cancelled →
        t.kind = .snapshot ∧ t.subject = submission ∧ t.status = .cancelled) :
    Spares submission s (s.updateTasks p f) := by
  rintro ⟨t', ht', hkind, hsub, hstatus⟩
  obtain ⟨t, ht, rfl⟩ := mem_updateWhere.mp ht'
  by_cases hp : p t = true
  · rw [if_pos hp] at hkind hsub hstatus
    exact ⟨t, ht, h t ht hp hkind hsub hstatus⟩
  · rw [if_neg hp] at hkind hsub hstatus
    exact ⟨t, ht, hkind, hsub, hstatus⟩

/-- An update to another status. -/
theorem updateStatus {p : TaskRow → Bool} {f : TaskRow → TaskRow}
    (h : ∀ t, (f t).status ≠ .cancelled) : Spares submission s (s.updateTasks p f) :=
  updateTasks fun t _ _ _ _ hstatus => absurd hstatus (h t)

theorem enqueue {id subject : Uuid} {kind : TaskKind} {priority : Int}
    (h : Queue.enqueue s now id kind subject priority = .ok s') : Spares submission s s' := by
  rw [Queue.enqueue] at h
  split at h
  · rw [pure_ok] at h
    rw [h]
    exact refl s'
  · simp only [bind_ok, pure_ok] at h
    obtain ⟨_, _, rfl⟩ := h
    rintro ⟨t, ht, hkind, hsub, hstatus⟩
    rcases List.mem_append.mp ht with h | h
    · exact ⟨t, h, hkind, hsub, hstatus⟩
    · rw [List.mem_singleton.mp h] at hstatus
      cases hstatus

/-! The operations on snapshots. -/

theorem enqueueSnapshots : ∀ {l : List (Uuid × Bool)} {fresh : Nat → Uuid} {s s' : Store},
    Submissions.enqueueSnapshots now s fresh l = .ok s' → Spares submission s s' := by
  intro l
  induction l with
  | nil =>
    intro fresh s s' h
    rw [Submissions.enqueueSnapshots, pure_ok] at h
    rw [h]
    exact refl s'
  | cons e rest ih =>
    obtain ⟨id, final⟩ := e
    intro fresh s s' h
    rw [Submissions.enqueueSnapshots, bind_ok] at h
    obtain ⟨s₁, h₁, h₂⟩ := h
    exact (enqueue h₁).trans (ih h₂)

/-- **Scheduling cancels no task of a final submission.** -/
theorem scheduleSnapshots (hf : FinalIn s submission) {fresh : Nat → Uuid} {tie : Uuid → Nat}
    {repository : Uuid}
    (h : Submissions.scheduleSnapshots s now fresh tie repository = .ok s') :
    Spares submission s s' := by
  rw [Submissions.scheduleSnapshots, bind_ok] at h
  obtain ⟨r, _, h⟩ := h
  refine trans (updateTasks fun t _ hp _ hsub _ => ?_) (enqueueSnapshots h)
  simp only [Submissions.outdated, Bool.and_eq_true, List.any_eq_true, decide_eq_true_eq,
    Bool.not_eq_true'] at hp
  obtain ⟨_, x, hx, ⟨⟨hid, _⟩, hnot⟩, _⟩ := hp
  have hfinal := hf.final x hx (hid.trans hsub)
  rw [hnot] at hfinal
  cases hfinal

theorem record (hf : FinalIn s submission) {fresh : Nat → Uuid} {tie : Uuid → Nat}
    {repository : Uuid} {sha : String} {received : Time} {source : EventSource}
    {delivery out : Option Uuid}
    (h : Submissions.record s now fresh tie repository sha received source delivery
      = .ok (s', out)) : Spares submission s s' := by
  simp only [Submissions.record, Submissions.insertEvent, bind_ok, pure_ok] at h
  obtain ⟨_, _, p, _, s₁, ⟨_, _, rfl⟩, h⟩ := h
  split at h
  · rw [pure_ok, Prod.mk.injEq] at h
    rw [← h.1]
    split <;> exact of_eq rfl
  · split at h
    · rw [pure_ok, Prod.mk.injEq] at h
      rw [← h.1]
      exact of_eq rfl
    · simp only [Submissions.insertSubmission, bind_ok, ensure_ok, pure_ok, Prod.mk.injEq] at h
      obtain ⟨s₂, ⟨_, hnew, rfl⟩, s₃, h₃, rfl, _⟩ := h
      simp only [Bool.not_eq_true', List.any_eq_false, Bool.or_eq_true, decide_eq_true_eq,
        not_or] at hnew
      obtain ⟨y, hy, hid⟩ := hf.submitted
      -- the new submission is another one
      refine trans (of_eq ?_) (scheduleSnapshots ⟨⟨y, List.mem_append_left _ hy, hid⟩, ?_⟩ h₃)
      · rfl
      · intro x hx hxid
        rcases List.mem_append.mp hx with hold | hlast
        · exact hf.final x hold hxid
        · rw [List.mem_singleton.mp hlast] at hxid
          exact absurd (hid.trans hxid.symm) (hnew y hy).1

theorem enqueueLock {id repository : Uuid}
    (h : Submissions.enqueueLock s now id repository = .ok s') : Spares submission s s' := by
  simp only [Submissions.enqueueLock, bind_ok, pure_ok] at h
  obtain ⟨s₁, h₁, rfl⟩ := h
  refine (enqueue h₁).trans (updateStatus fun _ h => ?_)
  cases h

theorem freeze {repository : Uuid} :
    Spares submission s (Submissions.freeze s now repository) := by
  rw [Submissions.freeze]
  split
  · refine trans (of_eq ?_) (updateStatus fun t => ?_)
    · rfl
    · simp only [Submissions.revive]
      split
      · decide
      · rename_i hno
        simp only [Bool.or_eq_true, decide_eq_true_eq, not_or] at hno
        exact hno.2
  · exact of_eq rfl

theorem close {fresh : Nat → Uuid} {repository : Uuid}
    (h : Submissions.close s now fresh repository = .ok s') : Spares submission s s' := by
  simp only [Submissions.close, bind_ok] at h
  obtain ⟨p, _, h⟩ := h
  have hfirst : Spares submission s
      (if (decide (p.deadline < now) && !p.repository.closureDue) = true then
        Submissions.freeze s now repository else s) := by
    split
    · exact freeze
    · exact refl s
  split at h
  · exact hfirst.trans (enqueueLock h)
  · rw [pure_ok] at h
    rw [← h]
    exact hfirst

theorem selectSubmission {fresh : Nat → Uuid} {event out : Uuid} {operator reason : String}
    (h : Submissions.selectSubmission s now fresh event operator reason = .ok (s', out)) :
    Spares submission s s' := by
  simp only [Submissions.selectSubmission, bind_ok, pure_ok, Prod.mk.injEq] at h
  obtain ⟨_, _, e, _, r, _, _, _, ⟨s₁, id⟩, h₁, _, _, s₂, h₂, rfl, _⟩ := h
  have hs₁ : s₁.tasks = s.tasks := by
    rw [Submissions.submissionOfEvent] at h₁
    split at h₁
    · rw [pure_ok, Prod.mk.injEq] at h₁
      rw [← h₁.1]
    · simp only [bind_ok, pure_ok, Prod.mk.injEq, Submissions.insertSubmission] at h₁
      obtain ⟨_, ⟨_, _, rfl⟩, rfl, _⟩ := h₁
      rfl
  refine trans (of_eq ?_) (enqueue h₂)
  exact hs₁

/-! The other operations. -/

theorem requestRepository {fresh : Nat → Uuid} {githubId : Int} {assignment out : Uuid}
    (h : Courses.requestRepository s now fresh githubId assignment = .ok (s', out)) :
    Spares submission s s' := by
  simp only [Courses.requestRepository, bind_ok] at h
  obtain ⟨a, _, _, _, e, _, current, _, v, _, h⟩ := h
  split at h
  · rw [pure_ok, Prod.mk.injEq] at h
    rw [← h.1]
    exact refl s
  · simp only [bind_ok, pure_ok, Prod.mk.injEq] at h
    obtain ⟨_, _, _, _, s₁, h₁, rfl, _⟩ := h
    refine trans (of_eq ?_) (enqueue h₁)
    rfl

theorem publishes (h : Publishes s s') : Spares submission s s' := of_eq (by rw [h.rest])

theorem overrideGrade {fresh : Nat → Uuid} {repository : Uuid} {points : Int}
    {operator reason : String}
    (h : Submissions.overrideGrade s now fresh repository points operator reason = .ok s') :
    Spares submission s s' := by
  simp only [Submissions.overrideGrade, bind_ok, pure_ok] at h
  obtain ⟨_, _, _, _, _, _, _, _, _, _, rfl⟩ := h
  exact of_eq rfl

theorem leaseTask {locked : List Uuid} {token : Uuid} {owner : String} {kinds : List TaskKind} :
    Spares submission s (Queue.lease s now locked token owner kinds).1 := by
  rw [Queue.lease]
  split
  · exact refl s
  · exact updateStatus fun _ => by simp [TaskRow.leaseTo]

theorem heartbeat {id token : Uuid} {owner : String}
    (h : Queue.heartbeat s now id token owner = .ok s') : Spares submission s s' := by
  simp only [Queue.heartbeat, bind_ok, pure_ok] at h
  obtain ⟨_, _, rfl⟩ := h
  exact updateTasks fun _ _ _ hkind hsub hstatus => ⟨hkind, hsub, hstatus⟩

theorem fail {task : Task} {text : String} :
    Spares submission s (Queue.fail s now task text) := by
  refine updateStatus fun t => ?_
  dsimp only
  split <;> decide

theorem expireExhausted : Spares submission s (Queue.expireExhausted s now) := by
  refine updateStatus fun t h => ?_
  cases h

theorem finish {task : Task} (h : Queue.finish s now task = .ok s') : Spares submission s s' := by
  simp only [Queue.finish, bind_ok, pure_ok] at h
  obtain ⟨_, _, rfl⟩ := h
  refine updateStatus fun t h => ?_
  cases h

theorem failPermanently {task : Task} :
    Spares submission s (Queue.failPermanently s now task) := by
  refine trans (updateStatus fun t h => ?_) (of_eq rfl)
  cases h

theorem defer {task : Task} {until_ : Time} :
    Spares submission s (Queue.defer s now task until_) := by
  refine updateStatus fun t h => ?_
  cases h

theorem retry {task : Uuid} {operator reason : String}
    (h : Queue.retry s now task operator reason = .ok s') : Spares submission s s' := by
  simp only [Queue.retry, bind_ok, pure_ok] at h
  obtain ⟨_, _, _, _, rfl⟩ := h
  refine trans (updateStatus fun t h => ?_) (of_eq rfl)
  cases h

theorem insertRun {g : GradingRun} (h : Runs.insertRun s now g = .ok s') :
    Spares submission s s' := by
  simp only [Runs.insertRun, bind_ok, pure_ok] at h
  obtain ⟨_, _, _, _, _, _, rfl⟩ := h
  exact of_eq rfl

/-- Only grade tasks are displaced. -/
theorem displace {repository x : Uuid} :
    Spares submission s (Runs.displace s repository x) := by
  refine trans (updateTasks fun t _ hp hkind _ _ => ?_) (of_eq rfl)
  simp only [Runs.displaced, Bool.and_eq_true, decide_eq_true_eq] at hp
  rw [hp.1.1] at hkind
  cases hkind

theorem enqueueRun {fresh : Nat → Uuid} {x out : Uuid} {regrade : Bool}
    (h : Runs.enqueueRun s now fresh x regrade = .ok (s', out)) : Spares submission s s' := by
  simp only [Runs.enqueueRun, bind_ok] at h
  obtain ⟨y, _, r, _, _, _, h⟩ := h
  split at h
  · rw [pure_ok, Prod.mk.injEq] at h
    rw [← h.1]
    exact refl s
  · simp only [bind_ok] at h
    obtain ⟨latest, _, attempt, _, s₁, h₁, h⟩ := h
    refine (insertRun h₁).trans ?_
    split at h
    · rw [pure_ok, Prod.mk.injEq] at h
      rw [← h.1]
      exact refl s₁
    · simp only [bind_ok, pure_ok, Prod.mk.injEq] at h
      obtain ⟨s₂, h₂, rfl, _⟩ := h
      exact displace.trans (enqueue h₂)

theorem insertPrivate {fresh : Nat → Uuid} {x baseline out : Uuid} {revision : String}
    {attempt : Int}
    (h : Runs.insertPrivate s now fresh x revision attempt baseline = .ok (s', out)) :
    Spares submission s s' := by
  simp only [Runs.insertPrivate, bind_ok, pure_ok, Prod.mk.injEq] at h
  obtain ⟨s₁, h₁, s₂, h₂, rfl, _⟩ := h
  exact (insertRun h₁).trans (enqueue h₂)

theorem enqueuePrivate {fresh : Nat → Uuid} {repository : Uuid} {operator reason : String}
    {out : Runs.PrivateOutcome}
    (h : Runs.enqueuePrivateRepository s now fresh repository operator reason = .ok (s', out)) :
    Spares submission s s' := by
  simp only [Runs.enqueuePrivateRepository, bind_ok] at h
  obtain ⟨p, _, h⟩ := h
  split at h
  · rw [pure_ok, Prod.mk.injEq] at h
    rw [← h.1]
    exact refl s
  · split at h
    · rw [pure_ok, Prod.mk.injEq] at h
      rw [← h.1]
      exact refl s
    · simp only [bind_ok] at h
      obtain ⟨v, _, definition, _, _, _, h⟩ := h
      split at h
      · rw [pure_ok, Prod.mk.injEq] at h
        rw [← h.1]
        exact refl s
      · simp only [bind_ok, pure_ok, Prod.mk.injEq] at h
        obtain ⟨attempt, _, ⟨s₁, run⟩, h₁, rfl, _⟩ := h
        exact (insertPrivate h₁).trans (of_eq rfl)

theorem retryPrivate {fresh : Nat → Uuid} {failed out : Uuid} {operator reason : String}
    (h : Runs.retryPrivate s now fresh failed operator reason = .ok (s', out)) :
    Spares submission s s' := by
  simp only [Runs.retryPrivate, bind_ok, pure_ok, Prod.mk.injEq] at h
  obtain ⟨_, _, g, _, x, _, latest, _, _, _, baseline, _, attempt, _, ⟨s₁, run⟩, h₁, rfl, _⟩ := h
  exact (insertPrivate h₁).trans (of_eq rfl)

theorem lease {locked : List Uuid} {token : Uuid} {worker : Worker} {requested : List String}
    {out : Option Uuid}
    (h : Runs.lease s now locked token worker requested = .ok (s', out)) :
    Spares submission s s' := by
  simp only [Runs.lease, bind_ok] at h
  obtain ⟨caps, _, h⟩ := h
  split at h
  · rw [pure_ok, Prod.mk.injEq] at h
    rw [← h.1]
    exact refl s
  · split at h
    · rw [pure_ok, Prod.mk.injEq] at h
      rw [← h.1]
      exact refl s
    · rw [pure_ok, Prod.mk.injEq] at h
      rw [← h.1]
      refine trans (updateStatus fun t h => ?_) (of_eq rfl)
      cases h

theorem acceptCommit [Sha256] {fresh : Nat → Uuid} {call : Runs.AcceptCall}
    (h : Runs.acceptCommit s now fresh call = .ok s') : Spares submission s s' := by
  simp only [Runs.acceptCommit, bind_ok] at h
  obtain ⟨t, _, h⟩ := h
  split at h
  · simp only [bind_ok, pure_ok] at h
    obtain ⟨_, _, _, _, rfl⟩ := h
    exact refl s
  · simp only [bind_ok] at h
    obtain ⟨_, _, _, _, h⟩ := h
    refine trans ?_ (enqueue h)
    refine updateStatus (p := fun u => u.id = call.task) (f := fun u => { u with status := .done })
      fun t h => ?_
    cases h

end Spares

/-! ### Every step -/

section Steps
variable [Sha256] {submission : Uuid}

/-- **No operation cancels the task of a final submission.** -/
theorem exec_spares {s s' : Store} {now : Time} {op : StoreOp} (hf : FinalIn s submission)
    (h : op.exec s now = .ok s') : Spares submission s s' := by
  cases op <;> simp only [StoreOp.exec, map_fst_ok, Except.ok.injEq] at h
  case publish => exact .publishes (.publish h)
  case applySet => exact .publishes (.applySet h)
  case overrideGrade => exact .overrideGrade h
  case requestRepository => obtain ⟨_, h⟩ := h; exact .requestRepository h
  case record => obtain ⟨_, h⟩ := h; exact .record hf h
  case scheduleSnapshots => exact .scheduleSnapshots hf h
  case close => exact .close h
  case extend =>
    simp only [Submissions.extend, bind_ok, pure_ok] at h
    obtain ⟨_, _, p, _, _, _, rfl⟩ := h
    exact .of_eq rfl
  case selectSubmission => obtain ⟨_, h⟩ := h; exact .selectSubmission h
  case put =>
    obtain ⟨_, h⟩ := h
    simp only [Submissions.put, bind_ok, pure_ok, Prod.mk.injEq] at h
    obtain ⟨_, _, rfl, _⟩ := h
    split <;> exact .of_eq rfl
  case retainSource =>
    simp only [Submissions.retainSource, bind_ok, pure_ok] at h
    obtain ⟨_, _, rfl⟩ := h
    exact .of_eq rfl
  case flagFailedSnapshots => rw [← h]; exact .of_eq rfl
  case leaseTask => rw [← h]; exact .leaseTask
  case heartbeat => exact .heartbeat h
  case finish => exact .finish h
  case fail => rw [← h]; exact .fail
  case failPermanently => rw [← h]; exact .failPermanently
  case deferTask => rw [← h]; exact .defer
  case retry => exact .retry h
  case expireExhausted => rw [← h]; exact .expireExhausted
  case enqueueRun => obtain ⟨_, h⟩ := h; exact .enqueueRun h
  case enqueuePrivate => obtain ⟨_, h⟩ := h; exact .enqueuePrivate h
  case retryPrivate => obtain ⟨_, h⟩ := h; exact .retryPrivate h
  case lease => obtain ⟨_, h⟩ := h; exact .lease h
  case markFailed => rw [← h]; exact .of_eq rfl

theorem Sys.Step.spares {σ τ : Sys} {l : Time × Op} (hf : FinalIn σ.store submission)
    (h : Sys.Step σ l τ) : Spares submission σ.store τ.store := by
  obtain ⟨now, op⟩ := l
  obtain ⟨_, _, rfl⟩ := h
  cases op with
  | store op =>
    simp only [Sys.perform]
    split
    · rename_i s' hs'
      exact exec_spares hf hs'
    · exact .refl _
  | acceptLease worker task result =>
    simp only [Sys.perform]
    split <;> exact .refl _
  | acceptExisting i =>
    simp only [Sys.perform]
    split
    · exact .refl _
    · split <;> exact .refl _
  | acceptPut i =>
    simp only [Sys.perform]
    split
    · exact .refl _
    · split
      · rename_i hput
        simp only [Submissions.put, bind_ok, pure_ok, Prod.mk.injEq] at hput
        obtain ⟨_, _, rfl, _⟩ := hput
        split <;> exact .of_eq rfl
      · exact .refl _
  | acceptCommit i fresh =>
    simp only [Sys.perform]
    split
    · exact .refl _
    · split
      · rename_i hcommit
        exact .acceptCommit hcommit
      · exact .refl _
  | acceptStop i => exact .refl _

end Steps

/-! ### Becoming final -/

section Finality
variable {s s' : Store} {now : Time} {submission : Uuid}

theorem finalIn_of (hk : Keys s) (hf : Finals s) {r : StudentRepository}
    (hr : r ∈ s.repositories) (hfinal : r.finalSubmissionId = some submission) :
    FinalIn s submission := by
  obtain ⟨_, x, hx, hid, hrep⟩ := hf r hr submission hfinal
  refine ⟨⟨x, hx, hid⟩, fun y hy hyid => ?_⟩
  have hyx : y = x := hk.submissions.eq hy hx (hyid.trans hid.symm)
  have hrow : s.repositoryOf y = some r :=
    (lookup_eq_some hk.repositories).mpr ⟨hr, by rw [hyx, hrep]⟩
  rw [Submissions.isFinal, hrow, Option.any_some, hfinal, hyid, decide_eq_true_eq]

theorem freeze_revives {repository : Uuid}
    (h : (s.newest repository).map Submission.id = some submission) :
    ¬ Cancelled (Submissions.freeze s now repository) submission := by
  rintro ⟨t', ht', hkind, hsub, hstatus⟩
  rw [Submissions.freeze] at ht'
  simp only [h] at ht'
  obtain ⟨t, _, rfl⟩ := mem_updateWhere.mp ht'
  by_cases hp : Submissions.ofFinal
      (s.updateRepositories (fun r => r.id = repository) fun r =>
        { r with closureDue := true, finalSubmissionId := some submission }) submission t = true
  · rw [if_pos hp] at hstatus
    simp only [Submissions.revive] at hstatus
    split at hstatus
    · cases hstatus
    · rename_i hno
      simp only [Bool.or_eq_true, decide_eq_true_eq, not_or] at hno
      exact hno.2 hstatus
  · rw [if_neg hp] at hkind hsub
    refine hp ?_
    simp [Submissions.ofFinal, hkind, hsub]

/-- Closing a repository revives the task of the submission that becomes final. -/
theorem close_revives (hk : Keys s) {fresh : Nat → Uuid} {repository : Uuid}
    (h : Submissions.close s now fresh repository = .ok s') {r r' : StudentRepository}
    (hr : r ∈ s.repositories) (hopen : r.closureDue = false) (hr' : r' ∈ s'.repositories)
    (hid : r'.id = r.id) (hclosed : r'.closureDue = true)
    (hfinal : r'.finalSubmissionId = some submission) : ¬ Cancelled s' submission := by
  obtain ⟨p, hp, _, _, _, hc | ⟨hdue, hpopen, hrows, _⟩⟩ := close_cases hk.repositories h
  · obtain ⟨q, hq, hqid, _, hsame, _⟩ := hc.repositories.old hr
    have hqr : q = r' := (hc.keys hk).repositories.eq hq hr' (hqid.trans hid.symm)
    rw [← hqr, hsame, hopen] at hclosed
    cases hclosed
  · have hnewest : (s.newest repository).map Submission.id = some submission := by
      rw [hrows] at hr'
      obtain ⟨q, hq, rfl⟩ := mem_updateWhere.mp hr'
      by_cases hqid : q.id = repository
      · rw [if_pos (decide_eq_true hqid)] at hfinal
        exact hfinal
      · rw [if_neg (by rw [decide_eq_true_eq]; exact hqid)] at hid hclosed
        rw [hk.repositories.eq hq hr hid, hopen] at hclosed
        cases hclosed
    simp only [Submissions.close, bind_ok] at h
    obtain ⟨p', hp', h⟩ := h
    rw [hp, Except.ok.injEq] at hp'
    rw [← hp', hpopen, decide_eq_true hdue] at h
    have h' : Submissions.enqueueLock (Submissions.freeze s now repository) now (fresh 0)
        repository = .ok s' := h
    exact fun hcancelled => freeze_revives hnewest (Spares.enqueueLock h' hcancelled)

end Finality

/-- `submission` is selected although its snapshot task is cancelled. -/
def Strands (submission : Uuid) (σ : Sys) (l : Time × Op) : Prop :=
  ∃ fresh event operator reason s',
    l.2 = .store (.selectSubmission fresh event operator reason) ∧
    Submissions.selectSubmission σ.store l.1 fresh event operator reason = .ok (s', submission) ∧
    Cancelled σ.store submission

section Runs
variable [Sha256] {σ τ : Sys} {l : Time × Op} {taken : List (Sys × (Time × Op))}
  {submission : Uuid}

/-- The task of a submission that becomes final is not cancelled, unless it is
selected so. -/
theorem Sys.Step.becomes_final (hσ : σ.Reachable) (h : Sys.Step σ l τ)
    (hno : ¬ Strands submission σ l) {r r' : StudentRepository} (hr : r ∈ σ.store.repositories)
    (hr' : r' ∈ τ.store.repositories) (hid : r'.id = r.id)
    (hfinal : r'.finalSubmissionId = some submission)
    (hwas : r.finalSubmissionId ≠ some submission) : ¬ Cancelled τ.store submission := by
  have hk := hσ.keys
  have hcont : ¬ Continues σ.store τ.store := by
    intro hc
    obtain ⟨q, hq, hqid, _, _, hsame⟩ := hc.repositories.old hr
    rw [(hc.keys hk).repositories.eq hq hr' (hqid.trans hid.symm), hfinal] at hsame
    exact hwas hsame.symm
  have hτk : Keys τ.store := (h.evolves hk).keys hk
  obtain ⟨q, hq, hqid, _, hmoves⟩ := (h.evolves hk).repositories.old hr
  rw [hτk.repositories.eq hq hr' (hqid.trans hid.symm)] at hmoves
  by_cases hclose : ∃ fresh repository, l.2 = .store (.close fresh repository)
  · obtain ⟨fresh, repository, hop⟩ := hclose
    obtain ⟨now, op⟩ := l
    dsimp only at hop
    subst hop
    rcases h.exec with hexec | hsame
    · rcases hmoves with ⟨_, hsame⟩ | ⟨hopen, hclosed, _⟩ | ⟨_, _, _, _, hevent, _⟩
      · rw [hfinal] at hsame
        exact absurd hsame.symm hwas
      · exact close_revives hk hexec hr hopen hr' hid hclosed hfinal
      · cases hevent
    · exact absurd (.of_eq (by rw [hsame]) (by rw [hsame]) (by rw [hsame]) (by rw [hsame])
        (by rw [hsame]) (by rw [hsame])) hcont
  by_cases hselect : ∃ fresh event operator reason,
      l.2 = .store (.selectSubmission fresh event operator reason)
  · obtain ⟨fresh, event, operator, reason, hop⟩ := hselect
    obtain ⟨now, op⟩ := l
    dsimp only at hop
    subst hop
    rcases h.exec with hexec | hsame
    · simp only [StoreOp.exec, map_fst_ok] at hexec
      obtain ⟨out, hexec⟩ := hexec
      obtain ⟨e, _, y, hy, _, hyid, hyevent, _, _, hs⟩ :=
        select_cases hk.repositories hk.submissions hexec
      rcases hmoves with ⟨_, hsame⟩ | ⟨hopen, hclosed, _⟩ | ⟨_, _, x, hx, hevent, _, hx'⟩
      · rw [hfinal] at hsame
        exact absurd hsame.symm hwas
      · -- selecting closes nothing
        obtain ⟨p, hp, hpid, _, hsel⟩ := hs.repositories.old hr
        rw [hτk.repositories.eq hp hr' (hpid.trans hid.symm)] at hsel
        rcases hsel with hsame | ⟨_, hwasClosed, _⟩
        · rw [hsame.1, hopen] at hclosed
          cases hclosed
        · rw [hopen] at hwasClosed
          cases hwasClosed
      · -- the submission selected is the one that became final
        have hxy : x = y := hτk.submissionEvents.eq hx hy
          ((Option.some_inj.mp hevent).trans hyevent.symm)
        rw [hfinal, Option.some_inj, hxy, hyid] at hx'
        rw [← hx'] at hexec
        exact fun hc => hno ⟨fresh, event, operator, reason, _, rfl, hexec,
          Spares.selectSubmission hexec hc⟩
    · exact absurd (.of_eq (by rw [hsame]) (by rw [hsame]) (by rw [hsame]) (by rw [hsame])
        (by rw [hsame]) (by rw [hsame])) hcont
  · exact absurd (h.continues hk (fun fresh repository hop => hclose ⟨fresh, repository, hop⟩)
      fun fresh event operator reason hop => hselect ⟨fresh, event, operator, reason, hop⟩) hcont

/-- **A final submission's task is not cancelled** in a run in which it is not
selected with a cancelled task. -/
theorem Sys.final_spared (h0 : σ.Initial) (hrun : Transition.Run Sys.Step σ taken τ)
    (hno : ∀ p ∈ taken, ¬ Strands submission p.1 p.2) {r : StudentRepository}
    (hr : r ∈ τ.store.repositories) (hfinal : r.finalSubmissionId = some submission) :
    ¬ Cancelled τ.store submission := by
  induction hrun generalizing r with
  | nil =>
    rintro ⟨t, ht, hkind, _⟩
    rw [h0.tasks t ht] at hkind
    cases hkind
  | @snoc taken τ υ l hrun hst ih =>
    have hτ : Sys.Reachable τ := ⟨σ, taken, h0, hrun⟩
    have hlast : ¬ Strands submission τ l :=
      hno (τ, l) (List.mem_append_right _ (List.mem_singleton_self _))
    have hbefore := fun p hp => hno p (List.mem_append_left _ hp)
    rcases (hst.evolves hτ.keys).repositories.origin hr with ⟨q, hq, hid, _⟩ | ⟨⟨_, hnone⟩, _⟩
    · by_cases hwas : q.finalSubmissionId = some submission
      · have hf := finalIn_of hτ.keys hτ.finals hq hwas
        exact fun hc => ih hbefore hq hwas (hst.spares hf hc)
      · exact hst.becomes_final hτ hlast hq hr hid hfinal hwas
    · rw [hfinal] at hnone
      cases hnone

end Runs

/-! ### Scheduling -/

section Scheduling
variable {s s' : Store} {now : Time}

/-- The tasks a submission list adds. -/
theorem enqueueSnapshots_tasks : ∀ {l : List (Uuid × Bool)} {fresh : Nat → Uuid} {s s' : Store},
    (l.map Prod.fst).Nodup → (∀ e ∈ l, s.hasTask .snapshot e.1 = false) →
    Submissions.enqueueSnapshots now s fresh l = .ok s' →
    ∃ new, s' = { s with tasks := s.tasks ++ new } ∧ new.map TaskRow.subject = l.map Prod.fst ∧
      ∀ t ∈ new, t.kind = .snapshot ∧ t.status = .pending := by
  intro l
  induction l with
  | nil =>
    intro fresh s s' _ _ h
    rw [Submissions.enqueueSnapshots, pure_ok] at h
    exact ⟨[], by rw [List.append_nil, h], rfl, by simp⟩
  | cons e rest ih =>
    obtain ⟨id, final⟩ := e
    intro fresh s s' hnd hnone h
    rw [Submissions.enqueueSnapshots, bind_ok] at h
    obtain ⟨s₁, h₁, h₂⟩ := h
    rw [List.map_cons, List.nodup_cons] at hnd
    have hfirst : s.hasTask .snapshot id = false := hnone (id, final) List.mem_cons_self
    rw [Queue.enqueue, if_neg (by rw [hfirst]; decide)] at h₁
    simp only [bind_ok, pure_ok] at h₁
    obtain ⟨_, _, rfl⟩ := h₁
    have hrest : ∀ e ∈ rest, ({ s with
        tasks := s.tasks ++ [TaskRow.new (fresh 0) .snapshot id (if final then 100 else 20) now] } :
        Store).hasTask .snapshot e.1 = false := by
      intro e he
      have hne : id ≠ e.1 := fun heq => hnd.1 (List.mem_map.mpr ⟨e, he, heq.symm⟩)
      have hold := hnone e (List.mem_cons_of_mem _ he)
      rw [Store.hasTask] at hold
      simp only [Store.hasTask, List.any_append, hold, List.any_cons, List.any_nil, Bool.or_false,
        TaskRow.new, decide_eq_false hne, Bool.and_false]
    obtain ⟨new, hs', hsub, hnew⟩ := ih hnd.2 hrest h₂
    refine ⟨TaskRow.new (fresh 0) .snapshot id (if final then 100 else 20) now :: new, ?_, ?_, ?_⟩
    · rw [hs', List.append_assoc]
      rfl
    · rw [List.map_cons, List.map_cons, hsub]
      rfl
    · intro t ht
      rcases List.mem_cons.mp ht with h | h
      · rw [h]
        exact ⟨rfl, rfl⟩
      · exact hnew t h

theorem mem_chosen {enrollment : Uuid} {tie : Uuid → Nat} {limit : Nat} {x : Submission}
    (h : x ∈ Submissions.chosen s enrollment tie limit) :
    x ∈ s.submissions ∧ Submissions.enrolledIn s enrollment x = true ∧
      Submissions.wanted s x = true := by
  have hmem := List.mem_of_mem_take h
  rw [List.mem_insertionSort, List.mem_filter, Bool.and_eq_true] at hmem
  exact hmem

theorem chosen_nodup (hk : Keyed Submission.id s.submissions) (enrollment : Uuid)
    (tie : Uuid → Nat) (limit : Nat) :
    ((Submissions.chosen s enrollment tie limit).map Submission.id).Nodup := by
  have hfilter : ((s.submissions.filter fun x => Submissions.enrolledIn s enrollment x &&
      Submissions.wanted s x).map Submission.id).Nodup :=
    (List.filter_sublist.map Submission.id).nodup hk
  refine ((List.take_sublist _ _).map Submission.id).nodup ?_
  exact ((List.perm_insertionSort _ _).map Submission.id).nodup_iff.mpr hfilter

/-- What is wanted is chosen, or as many others are as may be. -/
theorem chosen_or_full (tie : Uuid → Nat) {enrollment : Uuid} {limit : Nat} {x : Submission}
    (hx : x ∈ s.submissions) (he : Submissions.enrolledIn s enrollment x = true)
    (hw : Submissions.wanted s x = true) :
    x ∈ Submissions.chosen s enrollment tie limit ∨
      (Submissions.chosen s enrollment tie limit).length = limit := by
  by_cases hmem : x ∈ Submissions.chosen s enrollment tie limit
  · exact Or.inl hmem
  · refine Or.inr ?_
    rw [Submissions.chosen, List.length_take]
    refine Nat.min_eq_left (Nat.le_of_not_lt fun hlt => hmem ?_)
    rw [Submissions.chosen, List.take_of_length_le hlt.le, List.mem_insertionSort, List.mem_filter,
      he, hw]
    exact ⟨hx, rfl⟩

theorem wanted_hasTask {x : Submission} (h : Submissions.wanted s x = true) :
    s.hasTask .snapshot x.id = false := by
  rw [Submissions.wanted, Bool.and_eq_true, Bool.not_eq_true'] at h
  exact h.2

/-- The store after outdated tasks are cancelled. -/
def pruned (s : Store) (enrollment : Uuid) : Store :=
  s.updateTasks (Submissions.outdated s enrollment) fun t => { t with status := .cancelled }

theorem pruned_hasTask {enrollment : Uuid} (kind : TaskKind) (id : Uuid) :
    (pruned s enrollment).hasTask kind id = s.hasTask kind id := by
  rw [Store.hasTask, Store.hasTask, pruned, Store.updateTasks, updateWhere, List.any_map]
  congr 1
  funext t
  simp only [Function.comp]
  split <;> rfl

/-- **What scheduling does**: it cancels the outdated tasks of the enrollment and
adds tasks for submissions that are wanted, as many as there is room for. -/
theorem scheduleSnapshots_tasks (hk : Keyed Submission.id s.submissions) {fresh : Nat → Uuid}
    {tie : Uuid → Nat} {repository : Uuid}
    (h : Submissions.scheduleSnapshots s now fresh tie repository = .ok s') :
    ∃ r new, s.fetchRepository repository = .ok r ∧
      s' = { s with tasks := (pruned s r.enrollmentId).tasks ++ new } ∧
      new.map TaskRow.subject = (Submissions.chosen (pruned s r.enrollmentId) r.enrollmentId tie
        (8 - (pruned s r.enrollmentId).tasks.countP
          (Submissions.active (pruned s r.enrollmentId) r.enrollmentId))).map Submission.id ∧
      ∀ t ∈ new, t.kind = .snapshot ∧ t.status = .pending := by
  rw [Submissions.scheduleSnapshots, bind_ok] at h
  obtain ⟨r, hr, h⟩ := h
  have hnd := chosen_nodup (s := pruned s r.enrollmentId) hk r.enrollmentId tie
    (8 - (pruned s r.enrollmentId).tasks.countP
      (Submissions.active (pruned s r.enrollmentId) r.enrollmentId))
  obtain ⟨new, hs', hsub, hnew⟩ := enqueueSnapshots_tasks (by rw [List.map_map]; exact hnd)
    (fun e he => by
      obtain ⟨x, hx, rfl⟩ := List.mem_map.mp he
      exact wanted_hasTask (mem_chosen (s := pruned s r.enrollmentId) hx).2.2) h
  refine ⟨r, new, hr, hs', hsub.trans ?_, hnew⟩
  rw [List.map_map]
  rfl

end Scheduling

/-! ### Refilling -/

/-- A final submission without a source, and its repository. -/
structure Uncaptured (s : Store) (r : StudentRepository) (x : Submission) : Prop where
  repositories : Keyed StudentRepository.id s.repositories
  submissions : Keyed Submission.id s.submissions
  repository : r ∈ s.repositories
  submission : x ∈ s.submissions
  owner : x.repositoryId = r.id
  final : r.finalSubmissionId = some x.id
  source : x.sourceDigest = none

/-- The submission has its task, or the queue of the enrollment is full of tasks
that are not outdated. -/
def Covered (s : Store) (enrollment submission : Uuid) : Prop :=
  s.hasTask .snapshot submission = true ∨
    (8 ≤ s.tasks.countP (Submissions.active s enrollment) ∧
      ∀ t ∈ s.tasks, Submissions.outdated s enrollment t = false)

section Refilling
variable {s s' : Store} {now : Time} {r : StudentRepository} {x : Submission}
  {enrollment : Uuid}

theorem Uncaptured.row (h : Uncaptured s r x) : s.repositoryOf x = some r :=
  (lookup_eq_some h.repositories).mpr ⟨h.repository, h.owner.symm⟩

theorem Uncaptured.finalIn (h : Uncaptured s r x) : FinalIn s x.id := by
  refine ⟨⟨x, h.submission, rfl⟩, fun y hy hid => ?_⟩
  rw [h.submissions.eq hy h.submission hid, Submissions.isFinal, h.row, Option.any_some, h.final,
    decide_eq_true_eq]

theorem Uncaptured.tasksOnly (h : Uncaptured s r x) (hs : TasksOnly s s') : Uncaptured s' r x := by
  obtain ⟨tasks, rfl⟩ := hs
  exact ⟨h.repositories, h.submissions, h.repository, h.submission, h.owner, h.final, h.source⟩

theorem Uncaptured.enrolled (h : Uncaptured s r x) :
    Submissions.enrolledIn s r.enrollmentId x = true := by
  rw [Submissions.enrolledIn, h.row, Option.any_some, decide_eq_true_eq]

/-- It is wanted while it has no task. -/
theorem Uncaptured.wanted (h : Uncaptured s r x) (hno : s.hasTask .snapshot x.id = false) :
    Submissions.wanted s x = true := by
  rw [Submissions.wanted, h.source, h.row, Option.any_some, h.final, hno]
  simp

/-- A wanted submission's task is not outdated. -/
theorem not_outdated_of_wanted (hk : Keyed Submission.id s.submissions) {y : Submission}
    (hy : y ∈ s.submissions) (hw : Submissions.wanted s y = true) {t : TaskRow}
    (hsub : t.subject = y.id) : Submissions.outdated s enrollment t = false := by
  rw [Bool.eq_false_iff]
  intro ho
  simp only [Submissions.outdated, Bool.and_eq_true, List.any_eq_true, decide_eq_true_eq,
    Bool.not_eq_true'] at ho
  obtain ⟨_, z, hz, ⟨⟨hid, _⟩, hfinal⟩, hnewest⟩ := ho
  rw [hk.eq hz hy (hid.trans hsub)] at hfinal hnewest
  simp only [Submissions.wanted, hnewest, Bool.and_false, Bool.or_false, Bool.and_eq_true] at hw
  rw [Submissions.isFinal] at hfinal
  rw [hfinal] at hw
  exact Bool.false_ne_true hw.1.2

/-- A task pruned for one enrollment is no active task of another. -/
theorem outdated_of_active (hk : Keyed Submission.id s.submissions) {other : Uuid} {t : TaskRow}
    (ha : Submissions.active s enrollment t = true) (ho : Submissions.outdated s other t = true) :
    Submissions.outdated s enrollment t = true := by
  simp only [Submissions.active, Submissions.outdated, Bool.and_eq_true, List.any_eq_true,
    decide_eq_true_eq] at ha ho ⊢
  obtain ⟨_, y, hy, hyid, hye⟩ := ha
  obtain ⟨hpending, z, hz, ⟨⟨hzid, _⟩, hfinal⟩, hnewest⟩ := ho
  rw [hk.eq hz hy (hzid.trans hyid.symm)] at hfinal hnewest
  exact ⟨hpending, y, hy, ⟨⟨hyid, hye⟩, hfinal⟩, hnewest⟩

theorem hasTask_append {tasks new : List TaskRow} {kind : TaskKind} {id : Uuid}
    (h : ({ s with tasks := tasks } : Store).hasTask kind id = true) :
    ({ s with tasks := tasks ++ new } : Store).hasTask kind id = true := by
  rw [Store.hasTask] at h
  rw [Store.hasTask, List.any_append, Bool.or_eq_true]
  exact Or.inl h

theorem outdated_cancelled (t : TaskRow) :
    Submissions.outdated s enrollment { t with status := .cancelled } = false := by
  simp [Submissions.outdated]

/-- After pruning no task of the enrollment is outdated. -/
theorem pruned_not_outdated {t : TaskRow} (ht : t ∈ (pruned s enrollment).tasks) :
    Submissions.outdated s enrollment t = false := by
  obtain ⟨u, _, rfl⟩ := mem_updateWhere.mp ht
  by_cases hu : Submissions.outdated s enrollment u = true
  · rw [if_pos hu]
    exact outdated_cancelled u
  · rw [if_neg hu]
    exact Bool.eq_false_iff.mpr hu

/-- **Scheduling for its enrollment covers a final submission.** -/
theorem covered_of_schedule (h : Uncaptured s r x) {fresh : Nat → Uuid} {tie : Uuid → Nat}
    (hs : Submissions.scheduleSnapshots s now fresh tie r.id = .ok s') :
    Covered s' r.enrollmentId x.id := by
  obtain ⟨q, new, hq, rfl, hsub, hnew⟩ := scheduleSnapshots_tasks h.submissions hs
  obtain ⟨hqmem, hqid⟩ := Store.fetchRepository_ok hq
  have hqr : q = r := h.repositories.eq hqmem h.repository hqid
  subst hqr
  have hp : Uncaptured (pruned s q.enrollmentId) q x := h.tasksOnly ⟨_, rfl⟩
  cases htask : (pruned s q.enrollmentId).hasTask .snapshot x.id with
  | true => exact Or.inl (hasTask_append htask)
  | false =>
    rcases chosen_or_full tie hp.submission hp.enrolled (hp.wanted htask) with hc | hfull
    · -- its own task is among the new ones
      left
      have hmem : x.id ∈ new.map TaskRow.subject := by
        rw [hsub]
        exact List.mem_map_of_mem hc
      obtain ⟨t, ht, hid⟩ := List.mem_map.mp hmem
      rw [Store.hasTask, List.any_append, Bool.or_eq_true, List.any_eq_true, List.any_eq_true]
      exact Or.inr ⟨t, ht, by simp [(hnew t ht).1, hid]⟩
    · -- the others fill the queue
      right
      have hlen : new.length = 8 - (pruned s q.enrollmentId).tasks.countP
          (Submissions.active s q.enrollmentId) := by
        rw [← List.length_map (f := TaskRow.subject), hsub, List.length_map]
        exact hfull
      have hwanted : ∀ t ∈ new, ∃ y ∈ s.submissions, t.subject = y.id ∧
          Submissions.enrolledIn s q.enrollmentId y = true ∧
          Submissions.wanted (pruned s q.enrollmentId) y = true := by
        intro t ht
        have hmem : t.subject ∈ new.map TaskRow.subject := List.mem_map_of_mem ht
        rw [hsub] at hmem
        obtain ⟨y, hy, hid⟩ := List.mem_map.mp hmem
        obtain ⟨hymem, hye, hyw⟩ := mem_chosen hy
        exact ⟨y, hymem, hid.symm, hye, hyw⟩
      have hall : new.countP (Submissions.active s q.enrollmentId) = new.length := by
        rw [List.countP_eq_length]
        intro t ht
        obtain ⟨y, hy, hid, hye, _⟩ := hwanted t ht
        simp only [Submissions.active, Bool.and_eq_true, Bool.or_eq_true, decide_eq_true_eq,
          List.any_eq_true]
        exact ⟨⟨(hnew t ht).1, Or.inl (hnew t ht).2⟩, y, hy, hid.symm, hye⟩
      refine ⟨?_, fun t ht => ?_⟩
      · change 8 ≤ ((pruned s q.enrollmentId).tasks ++ new).countP
          (Submissions.active s q.enrollmentId)
        rw [List.countP_append, hall, hlen]
        omega
      · rcases List.mem_append.mp ht with hold | hadded
        · exact pruned_not_outdated (s := s) hold
        · obtain ⟨y, hy, hid, _, hyw⟩ := hwanted t hadded
          exact not_outdated_of_wanted (s := pruned s q.enrollmentId) h.submissions hy hyw hid

/-- **Later scheduling keeps it covered**, for whichever enrollment. -/
theorem Covered.schedule (hk : Keyed Submission.id s.submissions) {submission : Uuid}
    (hc : Covered s enrollment submission) {fresh : Nat → Uuid} {tie : Uuid → Nat}
    {repository : Uuid}
    (hs : Submissions.scheduleSnapshots s now fresh tie repository = .ok s') :
    Covered s' enrollment submission := by
  obtain ⟨q, new, hq, rfl, hsub, hnew⟩ := scheduleSnapshots_tasks hk hs
  rcases hc with htask | ⟨hfull, hno⟩
  · left
    have hpruned : (pruned s q.enrollmentId).hasTask .snapshot submission = true := by
      rw [pruned_hasTask]
      exact htask
    exact hasTask_append hpruned
  · right
    refine ⟨?_, fun t ht => ?_⟩
    · change 8 ≤ ((pruned s q.enrollmentId).tasks ++ new).countP (Submissions.active s enrollment)
      have hkept : s.tasks.countP (Submissions.active s enrollment) ≤
          (pruned s q.enrollmentId).tasks.countP (Submissions.active s enrollment) := by
        rw [pruned, Store.updateTasks, updateWhere, List.countP_map]
        refine List.countP_mono_left fun t ht ha => ?_
        rw [Function.comp_apply, if_neg fun ho => ?_]
        · exact ha
        · have hout := outdated_of_active hk ha ho
          rw [hno t ht] at hout
          cases hout
      rw [List.countP_append]
      omega
    · rcases List.mem_append.mp ht with hold | hadded
      · obtain ⟨u, hu, rfl⟩ := mem_updateWhere.mp hold
        by_cases ho : Submissions.outdated s q.enrollmentId u = true
        · rw [if_pos ho]
          exact outdated_cancelled u
        · rw [if_neg ho]
          exact hno u hu
      · have hmem : t.subject ∈ new.map TaskRow.subject := List.mem_map_of_mem hadded
        rw [hsub] at hmem
        obtain ⟨y, hy, hid⟩ := List.mem_map.mp hmem
        obtain ⟨hymem, _, hyw⟩ := mem_chosen hy
        exact not_outdated_of_wanted (s := pruned s q.enrollmentId) hk hymem hyw hid.symm

/-- A refill covers what was covered and what is of the repositories it looks at. -/
theorem refillLoop_covered {fresh : Nat → Nat → Uuid} {tie : Nat → Uuid → Nat} :
    ∀ {ids : List Uuid} {n : Nat} {s s' : Store}, Uncaptured s r x →
    Submissions.refillLoop now fresh tie n s ids = .ok s' →
    (Covered s r.enrollmentId x.id ∨ r.id ∈ ids → Covered s' r.enrollmentId x.id) ∧
      Spares x.id s s' := by
  intro ids
  induction ids with
  | nil =>
    intro n s s' _ h
    rw [Submissions.refillLoop, pure_ok] at h
    subst h
    exact ⟨fun hc => hc.resolve_right List.not_mem_nil, .refl s⟩
  | cons id rest ih =>
    intro n s s' hu h
    rw [Submissions.refillLoop, bind_ok] at h
    obtain ⟨s₁, h₁, h₂⟩ := h
    have hu₁ := hu.tasksOnly (.scheduleSnapshots h₁)
    obtain ⟨hcovered, hspares⟩ := ih hu₁ h₂
    refine ⟨fun hc => hcovered ?_, (Spares.scheduleSnapshots hu.finalIn h₁).trans hspares⟩
    rcases hc with hc | hmem
    · exact Or.inl (hc.schedule hu.submissions h₁)
    · rcases List.mem_cons.mp hmem with heq | hrest
      · rw [← heq] at h₁
        exact Or.inl (covered_of_schedule hu h₁)
      · exact Or.inr hrest

/-- A repository whose final submission is wanted is looked at, unless a hundred
others are. -/
theorem mem_refillRepositories (h : Uncaptured s r x)
    (hno : s.hasTask .snapshot x.id = false) (tie : Uuid → Nat) :
    r.id ∈ Submissions.refillRepositories s tie ∨
      (Submissions.refillRepositories s tie).length = 100 := by
  have hall : r.id ∈ (((s.submissions.filter (Submissions.wanted s)).map
      Submission.repositoryId).dedup).insertionSort fun a b => tie a ≤ tie b := by
    rw [List.mem_insertionSort, List.mem_dedup, ← h.owner]
    exact List.mem_map_of_mem (List.mem_filter.mpr ⟨h.submission, h.wanted hno⟩)
  by_cases hmem : r.id ∈ Submissions.refillRepositories s tie
  · exact Or.inl hmem
  · refine Or.inr ?_
    rw [Submissions.refillRepositories, List.length_take]
    refine Nat.min_eq_left (Nat.le_of_not_lt fun hlt => hmem ?_)
    rw [Submissions.refillRepositories, List.take_of_length_le hlt.le]
    exact hall

/-- A refill that does not look at the enrollment of `x` adds no task for it. -/
theorem refillLoop_overlooks {fresh : Nat → Nat → Uuid} {tie : Nat → Uuid → Nat} :
    ∀ {ids : List Uuid} {n : Nat} {s s' : Store}, Uncaptured s r x →
    (∀ q ∈ s.repositories, q.id ∈ ids → q.enrollmentId ≠ r.enrollmentId) →
    s.hasTask .snapshot x.id = false →
    Submissions.refillLoop now fresh tie n s ids = .ok s' →
    s'.hasTask .snapshot x.id = false := by
  intro ids
  induction ids with
  | nil =>
    intro n s s' _ _ hno h
    rw [Submissions.refillLoop, pure_ok] at h
    rw [← h]
    exact hno
  | cons id rest ih =>
    intro n s s' hu hother hno h
    rw [Submissions.refillLoop, bind_ok] at h
    obtain ⟨s₁, h₁, h₂⟩ := h
    have hu₁ := hu.tasksOnly (.scheduleSnapshots h₁)
    obtain ⟨q, new, hq, rfl, hsub, _⟩ := scheduleSnapshots_tasks hu.submissions h₁
    obtain ⟨hqmem, hqid⟩ := Store.fetchRepository_ok hq
    refine ih hu₁ (fun p hp hid => hother p hp (List.mem_cons_of_mem _ hid)) ?_ h₂
    have hold : (pruned s q.enrollmentId).hasTask .snapshot x.id = false := by
      rw [pruned_hasTask]
      exact hno
    have hadded : (new.any fun t => t.kind = .snapshot && t.subject = x.id) = false := by
      rw [List.any_eq_false]
      intro t ht hkey
      rw [Bool.and_eq_true, decide_eq_true_eq, decide_eq_true_eq] at hkey
      have hmem : t.subject ∈ new.map TaskRow.subject := List.mem_map_of_mem ht
      rw [hsub] at hmem
      obtain ⟨y, hy, hid⟩ := List.mem_map.mp hmem
      obtain ⟨hymem, hye, _⟩ := mem_chosen hy
      -- a chosen submission is of the enrollment that is looked at
      rw [hu.submissions.eq hymem hu.submission (hid.trans hkey.2), Submissions.enrolledIn] at hye
      have hrow : (pruned s q.enrollmentId).repositoryOf x = some r := hu.row
      rw [hrow, Option.any_some, decide_eq_true_eq] at hye
      exact hother q hqmem (hqid ▸ List.mem_cons_self) hye.symm
    rw [Store.hasTask] at hold
    rw [Store.hasTask, List.any_append, hold, hadded]
    rfl

end Refilling

/-- **A final submission is captured after a refill.**  In a run in which it is
not selected with a cancelled task, a refill leaves the task of a final
submission without a source not cancelled; and the task exists, unless eight
others of the enrollment are active, or a hundred other repositories were
looked at. -/
theorem Sys.capture_refilled [Sha256] {σ τ : Sys} {taken : List (Sys × (Time × Op))}
    (h0 : σ.Initial) (hrun : Transition.Run Sys.Step σ taken τ) {r : StudentRepository}
    {x : Submission} (hr : r ∈ τ.store.repositories) (hx : x ∈ τ.store.submissions)
    (hfinal : r.finalSubmissionId = some x.id) (hsource : x.sourceDigest = none)
    (hno : ∀ p ∈ taken, ¬ Strands x.id p.1 p.2) {now : Time} {fresh : Nat → Nat → Uuid}
    {tie : Nat → Uuid → Nat} {s' : Store}
    (hpass : Submissions.refillSnapshots τ.store now fresh tie = .ok s') :
    (∀ t ∈ s'.tasks, t.kind = .snapshot → t.subject = x.id → t.status ≠ .cancelled) ∧
      ((∃ t ∈ s'.tasks, t.kind = .snapshot ∧ t.subject = x.id) ∨
        8 ≤ s'.tasks.countP (Submissions.active s' r.enrollmentId) ∨
        ((Submissions.refillRepositories τ.store (tie 0)).length = 100 ∧
          r.id ∉ Submissions.refillRepositories τ.store (tie 0))) := by
  have hτ : Sys.Reachable τ := ⟨σ, taken, h0, hrun⟩
  obtain ⟨_, y, hy, hid, hrep⟩ := hτ.finals r hr x.id hfinal
  rw [hτ.keys.submissions.eq hy hx hid] at hrep
  have hu : Uncaptured τ.store r x :=
    ⟨hτ.keys.repositories, hτ.keys.submissions, hr, hx, hrep, hfinal, hsource⟩
  obtain ⟨hcovered, hspares⟩ := refillLoop_covered hu hpass
  have hspared := Sys.final_spared h0 hrun hno hr hfinal
  refine ⟨fun t ht hkind hsub hstatus => hspared (hspares ⟨t, ht, hkind, hsub, hstatus⟩), ?_⟩
  have hdone : Covered s' r.enrollmentId x.id →
      (∃ t ∈ s'.tasks, t.kind = .snapshot ∧ t.subject = x.id) ∨
        8 ≤ s'.tasks.countP (Submissions.active s' r.enrollmentId) := by
    rintro (htask | ⟨hfull, _⟩)
    · simp only [Store.hasTask, List.any_eq_true, Bool.and_eq_true, decide_eq_true_eq] at htask
      exact Or.inl htask
    · exact Or.inr hfull
  cases htask : τ.store.hasTask .snapshot x.id with
  | true => exact (hdone (hcovered (Or.inl (Or.inl htask)))).imp id Or.inl
  | false =>
    by_cases hmem : r.id ∈ Submissions.refillRepositories τ.store (tie 0)
    · exact (hdone (hcovered (Or.inr hmem))).imp id Or.inl
    · have hlen := (mem_refillRepositories hu htask (tie 0)).resolve_left hmem
      exact Or.inr (Or.inr ⟨hlen, hmem⟩)

namespace Sample

attribute [local instance] Sha256.standard

/-- `id` is the final submission of a closed repository and has no source, and
after a refill its snapshot task is missing or cancelled. -/
def missed (s : Store) (id : Uuid) : Bool :=
  (s.repositories.any fun r => r.closureDue && r.finalSubmissionId = some id &&
    s.submissions.any fun x => x.id = id && x.repositoryId = r.id && x.sourceDigest.isNone) &&
  match Submissions.refillSnapshots s (second 12) (fun n => ids (5000 + 1000 * n))
      (fun _ _ => 0) with
  | .ok s' => s'.tasks.all fun t =>
    !(t.kind = .snapshot && t.subject = id) || t.status = .cancelled
  | .error _ => false

/-- Submission 21 displaces 11, which the staff selects after closing. -/
def stranding : List (Time × Op) :=
  [(second 1, push 10 shaA (second 1)), (second 2, push 20 shaB (second 2)), (second 11, close 30),
    (second 12, .store (.selectSubmission (ids 40) 10 "operator" "appeal"))]

/-- Nine repositories of one enrollment. -/
def nine : Sys := { start with store := { start.store with
  repositories := (List.range 9).map fun i => { repository with
    id := ids 100 i, assignmentId := ids 200 i } } }

theorem nine_initial : nine.Initial where
  accepts := rfl
  runs := rfl
  tasks := by intro t ht; cases ht
  taskIds := by decide
  taskKeys := by decide
  repositoryIds := by decide +kernel
  submissionIds := by decide
  submissionEvents := by decide
  eventIds := by decide
  revisionDigests := by decide
  submissionRepository := by intro x hx; cases hx
  finals := by
    intro r hr id hid
    obtain ⟨i, _, rfl⟩ := List.mem_map.mp hr
    cases hid

/-- A push to each of them, and then they are closed. -/
def crowding : List (Time × Op) :=
  (List.range 9).map (fun i => (second 1, Op.store (.record (ids (1000 + 10 * i)) (fun _ => 0)
    (ids 100 i) shaA (second 1) .webhook none))) ++
  (List.range 9).map fun i => (second 11, .store (.close (ids (2000 + 10 * i)) (ids 100 i)))

/-- A hundred closed repositories of one enrollment and one of another, with
final submissions that have no tasks yet. -/
def wide : Sys := { start with store := { start.store with
  repositories := (List.range 101).map fun i => { repository with
    id := ids 100 i, assignmentId := ids 500 i, enrollmentId := if i = 100 then 2 else 1
    closureDue := true, finalSubmissionId := some (ids 300 i) }
  submissions := (List.range 101).map fun i =>
    ⟨ids 300 i, ids 100 i, ids 700 i, shaA, second 1, none⟩ } }

theorem wide_initial : wide.Initial where
  accepts := rfl
  runs := rfl
  tasks := by intro t ht; cases ht
  taskIds := by decide
  taskKeys := by decide
  repositoryIds := by decide +kernel
  submissionIds := by decide +kernel
  submissionEvents := by decide +kernel
  eventIds := by decide
  revisionDigests := by decide
  submissionRepository := by
    intro x hx
    obtain ⟨i, hi, rfl⟩ := List.mem_map.mp hx
    exact ⟨_, List.mem_map_of_mem hi, rfl⟩
  finals := by
    intro r hr id hid
    obtain ⟨i, hi, rfl⟩ := List.mem_map.mp hr
    exact ⟨rfl, _, List.mem_map_of_mem hi, Option.some.inj hid, rfl⟩

/-- The hundred and first repository is not looked at. -/
theorem wide_overlooked {now : Time} {fresh : Nat → Nat → Uuid} {s' : Store}
    (h : Submissions.refillSnapshots wide.store now fresh (fun _ x => x.val) = .ok s') :
    s'.hasTask .snapshot 400 = false := by
  have hu : Uncaptured wide.store
      { repository with
        id := 200, assignmentId := 600, enrollmentId := 2, closureDue := true
        finalSubmissionId := some 400 }
      ⟨400, 200, 800, shaA, second 1, none⟩ :=
    { repositories := wide_initial.repositoryIds
      submissions := wide_initial.submissionIds
      repository := by decide +kernel
      submission := by decide +kernel
      owner := rfl
      final := rfl
      source := rfl }
  have hother : (wide.store.repositories.all fun q =>
      !(Submissions.refillRepositories wide.store fun x => x.val).contains q.id ||
        decide (q.enrollmentId ≠ 2)) = true := by
    decide +kernel
  rw [List.all_eq_true] at hother
  refine refillLoop_overlooks hu (fun q hq hid => ?_) rfl h
  have hkey := hother q hq
  rw [List.contains_iff_mem.mpr hid] at hkey
  exact of_decide_eq_true hkey

/-- **A final submission without a source is missed by a refill**: it was
selected with a cancelled task; eight others of its enrollment are active; or a
hundred other repositories are looked at. -/
theorem capture_missed :
    (∃ σ, start.play stranding = some σ ∧ missed σ.store 11 = true) ∧
      (∃ σ, nine.play crowding = some σ ∧ missed σ.store 1081 = true) ∧
      (∃ r ∈ wide.store.repositories, r.closureDue = true ∧ r.finalSubmissionId = some 400 ∧
        (∃ x ∈ wide.store.submissions, x.id = 400 ∧ x.sourceDigest = none) ∧
        ∀ now fresh s', Submissions.refillSnapshots wide.store now fresh (fun _ x => x.val) =
          .ok s' → s'.hasTask .snapshot 400 = false) ∧
      start.Initial ∧ nine.Initial ∧ wide.Initial := by
  have h₁ : (start.play stranding).any (fun σ => missed σ.store 11) = true := by decide +kernel
  have h₂ : (nine.play crowding).any (fun σ => missed σ.store 1081) = true := by decide +kernel
  have h₃ : ∃ r ∈ wide.store.repositories, r.closureDue = true ∧
      r.finalSubmissionId = some 400 := by decide +kernel
  have h₄ : ∃ x ∈ wide.store.submissions, x.id = 400 ∧ x.sourceDigest = none := by decide +kernel
  obtain ⟨r, hr, hdue, hfinal⟩ := h₃
  exact ⟨Option.any_eq_true _ _ |>.mp h₁, Option.any_eq_true _ _ |>.mp h₂,
    ⟨r, hr, hdue, hfinal, h₄, fun _ _ _ h => wide_overlooked h⟩, initial, nine_initial,
    wide_initial⟩

/-- Two pushes; the repository is closed with the second. -/
def refilled : List (Time × Op) := stranding.take 3

/-- **Submission 21 has its task after a refill.** -/
theorem capture_refilled_two : ∃ σ s', start.play refilled = some σ ∧
    Submissions.refillSnapshots σ.store (second 12) (fun n => ids (5000 + 1000 * n))
      (fun _ _ => 0) = .ok s' ∧
    ∀ t ∈ s'.tasks, t.kind = .snapshot → t.subject = 21 → t.status ≠ .cancelled := by
  have hplay : (start.play refilled).any (fun σ =>
      (σ.store.repositories.any fun r => decide (r.finalSubmissionId = some 21)) &&
      (σ.store.submissions.any fun x => decide (x.id = 21 ∧ x.sourceDigest = none)) &&
      (Submissions.refillSnapshots σ.store (second 12) (fun n => ids (5000 + 1000 * n))
        (fun _ _ => 0)).isOk) = true := by
    decide +kernel
  obtain ⟨σ, hσ, hkey⟩ := Option.any_eq_true _ _ |>.mp hplay
  simp only [Bool.and_eq_true, List.any_eq_true, decide_eq_true_eq] at hkey
  obtain ⟨⟨⟨r, hr, hfinal⟩, x, hx, hid, hsource⟩, hok⟩ := hkey
  cases hpass : Submissions.refillSnapshots σ.store (second 12)
      (fun n => ids (5000 + 1000 * n)) (fun _ _ => 0) with
  | error e =>
    rw [hpass] at hok
    cases hok
  | ok s' =>
    refine ⟨σ, s', hσ, hpass, ?_⟩
    rw [← hid] at hfinal ⊢
    refine (Sys.capture_refilled initial (Sys.run_of_play hσ) hr hx hfinal hsource
      (fun p hp => ?_) hpass).1
    rintro ⟨_, _, _, _, _, hop, _⟩
    have hops : p.2 ∈ refilled := by
      rw [← Sys.map_trace start refilled]
      exact List.mem_map_of_mem hp
    simp only [refilled, stranding, push, close, List.take_succ_cons, List.take_zero,
      List.mem_cons, List.not_mem_nil, or_false] at hops
    rcases hops with heq | heq | heq <;> (rw [heq] at hop; cases hop)

end Sample

end Grading

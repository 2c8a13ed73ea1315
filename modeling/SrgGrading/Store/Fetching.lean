import SrgGrading.Store.Capture

/-!
# How many sources are fetched

The snapshot queue of an enrollment.  Scheduling fills it up to eight active
tasks, cancelled tasks come back only for the submission that becomes final, and
a submission stays final while none is selected; so at most eight active tasks
of an enrollment are of submissions that are not final.

* `Bounded.exec`: the operations on receipts, sources and control leases keep
  the bound.
* `Sys.fetching_bounded`: the bound along every run of them, and what is pending
  after scheduling.
-/

open Fallible Relational

namespace Grading

/-- A snapshot task to be done, of a submission of the enrollment that is not
the final one of its repository. -/
def fetching (s : Store) (enrollment : Uuid) (t : TaskRow) : Bool :=
  t.kind = .snapshot && (t.status = .pending || t.status = .leased) && s.submissions.any fun x =>
    x.id = t.subject && Submissions.enrolledIn s enrollment x && !Submissions.isFinal s x

/-- **The queue is bounded**: for each enrollment, and every snapshot task is of
a submission. -/
structure Bounded (s : Store) : Prop where
  atMost : ∀ enrollment, s.tasks.countP (fetching s enrollment) ≤ 8
  named : ∀ t ∈ s.tasks, t.kind = .snapshot → ∃ x ∈ s.submissions, x.id = t.subject

/-- Each pending snapshot task of the enrollment is of the newest submission of
its repository, or of the final one. -/
def Tidy (s : Store) (enrollment : Uuid) : Prop :=
  ∀ t ∈ s.tasks, t.kind = .snapshot → t.status = .pending →
    ∀ x ∈ s.submissions, x.id = t.subject → Submissions.enrolledIn s enrollment x = true →
      Submissions.isNewest s x = true ∨ Submissions.isFinal s x = true

section Facts
variable {s : Store} {enrollment : Uuid} {t : TaskRow}

theorem fetching_iff : fetching s enrollment t = true ↔
    (t.kind = .snapshot ∧ (t.status = .pending ∨ t.status = .leased)) ∧
      ∃ x ∈ s.submissions, (x.id = t.subject ∧ Submissions.enrolledIn s enrollment x = true) ∧
        Submissions.isFinal s x = false := by
  simp only [fetching, Bool.and_eq_true, Bool.or_eq_true, decide_eq_true_eq, List.any_eq_true,
    Bool.not_eq_true']

theorem active_of_fetching (h : fetching s enrollment t = true) :
    Submissions.active s enrollment t = true := by
  obtain ⟨⟨hkind, hstatus⟩, x, hx, ⟨hid, he⟩, _⟩ := fetching_iff.mp h
  simp only [Submissions.active, Bool.and_eq_true, Bool.or_eq_true, decide_eq_true_eq,
    List.any_eq_true]
  exact ⟨⟨hkind, hstatus⟩, x, hx, hid, he⟩

theorem tidy_of_not_outdated (h : ∀ t ∈ s.tasks, Submissions.outdated s enrollment t = false) :
    Tidy s enrollment := by
  intro t ht hkind hstatus x hx hid he
  have hnot := h t ht
  simp only [Submissions.outdated, hkind, hstatus, decide_true, Bool.true_and,
    List.any_eq_false, Bool.and_eq_true, decide_eq_true_eq, not_and, Bool.not_eq_true'] at hnot
  have hx := hnot x hx
  cases hfinal : Submissions.isFinal s x with
  | true => exact Or.inr rfl
  | false =>
    have hnewest := hx ⟨⟨hid, he⟩, hfinal⟩
    rw [Bool.not_eq_false] at hnewest
    exact Or.inl hnewest

end Facts

/-! ### What one write keeps -/

namespace Bounded

variable {s s' : Store} {now : Time}

/-- A write that leaves the tasks alone and makes no submission less final. -/
theorem of_tasks (h : Bounded s) (htasks : s'.tasks = s.tasks)
    (hnamed : ∀ x ∈ s.submissions, ∃ y ∈ s'.submissions, y.id = x.id)
    (hfetch : ∀ enrollment, ∀ t ∈ s.tasks, fetching s' enrollment t = true →
      fetching s enrollment t = true) : Bounded s' where
  atMost := by
    intro enrollment
    rw [htasks]
    have hle := List.countP_mono_left (hfetch enrollment)
    have hold := h.atMost enrollment
    omega
  named := by
    intro t ht hkind
    rw [htasks] at ht
    obtain ⟨x, hx, hid⟩ := h.named t ht hkind
    obtain ⟨y, hy, hyid⟩ := hnamed x hx
    exact ⟨y, hy, hyid.trans hid⟩

/-- A write to columns the bound does not read. -/
theorem of_same (h : Bounded s) (htasks : s'.tasks = s.tasks)
    (hsubmissions : s'.submissions = s.submissions)
    (hrepositories : s'.repositories = s.repositories) : Bounded s' := by
  refine h.of_tasks htasks ?_ ?_
  · intro x hx
    exact ⟨x, by rw [hsubmissions]; exact hx, rfl⟩
  · intro enrollment t _ ht
    simp only [fetching, Submissions.enrolledIn, Submissions.isFinal, Store.repositoryOf,
      hsubmissions, hrepositories] at ht ⊢
    exact ht

/-- An update of tasks that brings none back. -/
theorem updateTasks (h : Bounded s) {p : TaskRow → Bool} {f : TaskRow → TaskRow}
    (hkey : ∀ t, (f t).kind = t.kind ∧ (f t).subject = t.subject)
    (hback : ∀ enrollment, ∀ t ∈ s.tasks, p t = true → fetching s enrollment (f t) = true →
      fetching s enrollment t = true) : Bounded (s.updateTasks p f) where
  atMost := by
    intro enrollment
    have hle : (s.updateTasks p f).tasks.countP (fetching s enrollment) ≤
        s.tasks.countP (fetching s enrollment) := by
      rw [Store.updateTasks, updateWhere, List.countP_map]
      refine List.countP_mono_left fun t ht hf => ?_
      rw [Function.comp_apply] at hf
      by_cases hp : p t = true
      · rw [if_pos hp] at hf
        exact hback enrollment t ht hp hf
      · rw [if_neg hp] at hf
        exact hf
    exact hle.trans (h.atMost enrollment)
  named := by
    intro t' ht' hkind
    obtain ⟨t, ht, rfl⟩ := mem_updateWhere.mp ht'
    by_cases hp : p t = true
    · rw [if_pos hp] at hkind ⊢
      rw [(hkey t).1] at hkind
      rw [(hkey t).2]
      exact h.named t ht hkind
    · rw [if_neg hp] at hkind ⊢
      exact h.named t ht hkind

/-- An update of tasks that are to be done, whatever becomes of them. -/
theorem updateBusy (h : Bounded s) {p : TaskRow → Bool} {f : TaskRow → TaskRow}
    (hkey : ∀ t, (f t).kind = t.kind ∧ (f t).subject = t.subject)
    (hbusy : ∀ t ∈ s.tasks, p t = true → t.status = .pending ∨ t.status = .leased) :
    Bounded (s.updateTasks p f) := by
  refine h.updateTasks hkey fun enrollment t ht hp hf => ?_
  obtain ⟨⟨hkind, _⟩, x, hx, ⟨hid, he⟩, hfinal⟩ := fetching_iff.mp hf
  rw [(hkey t).1] at hkind
  rw [(hkey t).2] at hid
  exact fetching_iff.mpr ⟨⟨hkind, hbusy t ht hp⟩, x, hx, ⟨hid, he⟩, hfinal⟩

/-- An update of tasks of another kind. -/
theorem updateOther (h : Bounded s) {p : TaskRow → Bool} {f : TaskRow → TaskRow}
    (hkey : ∀ t, (f t).kind = t.kind ∧ (f t).subject = t.subject)
    (hother : ∀ t, p t = true → t.kind ≠ .snapshot) : Bounded (s.updateTasks p f) := by
  refine h.updateTasks hkey fun enrollment t _ hp hf => ?_
  have hkind := (fetching_iff.mp hf).1.1
  rw [(hkey t).1] at hkind
  exact absurd hkind (hother t hp)

/-- An update of repositories that moves none and takes no final submission away. -/
theorem updateRepositories (h : Bounded s) {p : StudentRepository → Bool}
    {f : StudentRepository → StudentRepository}
    (hkey : ∀ r ∈ s.repositories, (f r).id = r.id ∧ (f r).enrollmentId = r.enrollmentId)
    (hfinal : ∀ r ∈ s.repositories, p r = true → ∀ id, r.finalSubmissionId = some id →
      (f r).finalSubmissionId = some id) : Bounded (s.updateRepositories p f) := by
  have hrow : ∀ x : Submission, (s.updateRepositories p f).repositoryOf x =
      (s.repositoryOf x).map fun r => if p r then f r else r := fun x =>
    lookup_updateWhere fun r hr => (hkey r hr).1
  refine h.of_tasks rfl (fun x hx => ⟨x, hx, rfl⟩) fun enrollment t _ ht => ?_
  obtain ⟨hbusy, x, hx, ⟨hid, he⟩, hnot⟩ := fetching_iff.mp ht
  refine fetching_iff.mpr ⟨hbusy, x, hx, ⟨hid, ?_⟩, ?_⟩
  · rw [Submissions.enrolledIn, hrow, Option.any_map] at he
    rw [Submissions.enrolledIn]
    cases hr : s.repositoryOf x with
    | none =>
      rw [hr] at he
      exact he
    | some r =>
      rw [hr, Option.any_some] at he
      rw [Option.any_some]
      split at he
      · rw [(hkey r (mem_of_lookup hr)).2] at he
        exact he
      · exact he
  · rw [Submissions.isFinal, hrow, Option.any_map] at hnot
    rw [Submissions.isFinal]
    cases hr : s.repositoryOf x with
    | none => rfl
    | some r =>
      rw [hr, Option.any_some, decide_eq_false_iff_not] at hnot
      rw [Option.any_some, decide_eq_false_iff_not]
      intro hwas
      refine hnot ?_
      split
      · rename_i hp
        exact hfinal r (mem_of_lookup hr) hp x.id hwas
      · exact hwas

theorem markReview (h : Bounded s) {p : StudentRepository → Bool} : Bounded (s.markReview p) :=
  h.updateRepositories (fun _ _ => ⟨rfl, rfl⟩) fun _ _ _ _ hfinal => hfinal

/-- A new submission has no task yet. -/
theorem insertSubmission (h : Bounded s) {x : Submission}
    (hi : Submissions.insertSubmission s x = .ok s') : Bounded s' := by
  simp only [Submissions.insertSubmission, bind_ok, ensure_ok, pure_ok] at hi
  obtain ⟨_, hnew, rfl⟩ := hi
  simp only [Bool.not_eq_true', List.any_eq_false, Bool.or_eq_true, decide_eq_true_eq,
    not_or] at hnew
  refine h.of_tasks rfl (fun y hy => ⟨y, List.mem_append_left _ hy, rfl⟩) fun enrollment t ht hf => ?_
  obtain ⟨hbusy, y, hy, hof, hfinal⟩ := fetching_iff.mp hf
  rcases List.mem_append.mp hy with hold | hlast
  · exact fetching_iff.mpr ⟨hbusy, y, hold, hof, hfinal⟩
  · obtain ⟨z, hz, hid⟩ := h.named t ht hbusy.1
    rw [List.mem_singleton.mp hlast] at hof
    exact absurd (hid.trans hof.1.symm) (hnew z hz).1

/-- A task of another kind. -/
theorem enqueue (h : Bounded s) {id subject : Uuid} {kind : TaskKind} {priority : Int}
    (hkind : kind ≠ .snapshot) (he : Queue.enqueue s now id kind subject priority = .ok s') :
    Bounded s' := by
  rw [Queue.enqueue] at he
  split at he
  · rw [pure_ok] at he
    rw [← he]
    exact h
  · simp only [bind_ok, pure_ok] at he
    obtain ⟨_, _, rfl⟩ := he
    have hnot : ∀ enrollment,
        fetching s enrollment (TaskRow.new id kind subject priority now) = false := by
      intro enrollment
      rw [Bool.eq_false_iff]
      intro hf
      exact hkind (fetching_iff.mp hf).1.1
    constructor
    · intro enrollment
      change (s.tasks ++ [TaskRow.new id kind subject priority now]).countP
        (fetching s enrollment) ≤ 8
      rw [List.countP_append, List.countP_singleton, if_neg (by rw [hnot]; decide)]
      exact h.atMost enrollment
    · intro t ht hsnapshot
      rcases List.mem_append.mp ht with hold | hlast
      · exact h.named t hold hsnapshot
      · rw [List.mem_singleton.mp hlast] at hsnapshot
        exact absurd hsnapshot hkind

/-! ### The operations on receipts -/

/-- **Scheduling fills the queue up to eight**, and leaves it tidy. -/
theorem scheduleSnapshots (h : Bounded s) (hk : Keyed Submission.id s.submissions)
    {fresh : Nat → Uuid} {tie : Uuid → Nat} {repository : Uuid}
    (hs : Submissions.scheduleSnapshots s now fresh tie repository = .ok s') :
    Bounded s' ∧ ∃ r, s.fetchRepository repository = .ok r ∧ Tidy s' r.enrollmentId := by
  obtain ⟨r, new, hr, rfl, hsub, hnew⟩ := scheduleSnapshots_tasks hk hs
  have hpruned : Bounded (pruned s r.enrollmentId) := by
    refine h.updateBusy (fun t => ⟨rfl, rfl⟩) fun t _ ho => Or.inl ?_
    simp only [Submissions.outdated, Bool.and_eq_true, decide_eq_true_eq] at ho
    exact ho.1.2
  have hchosen : ∀ t ∈ new, ∃ y ∈ s.submissions, y.id = t.subject ∧
      Submissions.enrolledIn s r.enrollmentId y = true ∧
      Submissions.wanted (pruned s r.enrollmentId) y = true := by
    intro t ht
    have hmem : t.subject ∈ new.map TaskRow.subject := List.mem_map_of_mem ht
    rw [hsub] at hmem
    obtain ⟨y, hy, hid⟩ := List.mem_map.mp hmem
    obtain ⟨hymem, hye, hyw⟩ := mem_chosen hy
    exact ⟨y, hymem, hid, hye, hyw⟩
  refine ⟨⟨fun enrollment => ?_, fun t ht hkind => ?_⟩, r, hr, ?_⟩
  · change ((pruned s r.enrollmentId).tasks ++ new).countP (fetching s enrollment) ≤ 8
    rw [List.countP_append]
    have hold : (pruned s r.enrollmentId).tasks.countP (fetching s enrollment) ≤ 8 :=
      hpruned.atMost enrollment
    by_cases hsame : enrollment = r.enrollmentId
    · -- as many as there was room for beside all active tasks
      have hroom : new.length ≤ 8 - (pruned s r.enrollmentId).tasks.countP
          (Submissions.active s enrollment) := by
        rw [← List.length_map (f := TaskRow.subject), hsub, List.length_map, hsame]
        exact List.length_take_le _ _
      have hactive : (pruned s r.enrollmentId).tasks.countP (fetching s enrollment) ≤
          (pruned s r.enrollmentId).tasks.countP (Submissions.active s enrollment) :=
        List.countP_mono_left fun t _ ht => active_of_fetching ht
      have hadded : new.countP (fetching s enrollment) ≤ new.length := List.countP_le_length
      omega
    · have hnone : new.countP (fetching s enrollment) = 0 := by
        rw [List.countP_eq_zero]
        intro t ht hf
        obtain ⟨_, x, hx, ⟨hid, he⟩, _⟩ := fetching_iff.mp hf
        obtain ⟨y, hy, hyid, hye, _⟩ := hchosen t ht
        rw [hk.eq hx hy (hid.trans hyid.symm), Submissions.enrolledIn,
          Option.any_eq_true] at he
        rw [Submissions.enrolledIn, Option.any_eq_true] at hye
        obtain ⟨q, hq, heq⟩ := he
        obtain ⟨q', hq', heq'⟩ := hye
        rw [hq, Option.some_inj] at hq'
        rw [decide_eq_true_eq] at heq heq'
        exact hsame (heq.symm.trans (hq' ▸ heq'))
      omega
  · rcases List.mem_append.mp ht with hold | hadded
    · exact hpruned.named t hold hkind
    · obtain ⟨y, hy, hid, _⟩ := hchosen t hadded
      exact ⟨y, hy, hid⟩
  · refine tidy_of_not_outdated fun t ht => ?_
    rcases List.mem_append.mp ht with hold | hadded
    · exact pruned_not_outdated (s := s) hold
    · obtain ⟨y, hy, hid, _, hyw⟩ := hchosen t hadded
      exact not_outdated_of_wanted (s := pruned s r.enrollmentId) hk hy hyw hid.symm

theorem insertEvent (h : Bounded s) {e : SubmissionEvent}
    (hi : Submissions.insertEvent s e = .ok s') : Bounded s' := by
  simp only [Submissions.insertEvent, bind_ok, pure_ok] at hi
  obtain ⟨_, _, rfl⟩ := hi
  exact h.of_same rfl rfl rfl

/-- **A receipt keeps the bound**, and leaves the queue of its enrollment tidy
when it is a new submission. -/
theorem record (h : Bounded s) (hk : Keyed Submission.id s.submissions) {fresh : Nat → Uuid}
    {tie : Uuid → Nat} {repository : Uuid} {sha : String} {received : Time} {source : EventSource}
    {delivery out : Option Uuid}
    (hr : Submissions.record s now fresh tie repository sha received source delivery
      = .ok (s', out)) :
    Bounded s' ∧ (s'.submissions ≠ s.submissions →
      ∃ r, s.fetchRepository repository = .ok r ∧ Tidy s' r.enrollmentId) := by
  simp only [Submissions.record, bind_ok] at hr
  obtain ⟨_, _, p, _, s₁, h₁, hr⟩ := hr
  have hb₁ := h.insertEvent h₁
  simp only [Submissions.insertEvent, bind_ok, pure_ok] at h₁
  obtain ⟨_, _, rfl⟩ := h₁
  split at hr
  · rw [pure_ok, Prod.mk.injEq] at hr
    rw [← hr.1]
    split
    · exact ⟨hb₁.markReview, fun hne => absurd rfl hne⟩
    · exact ⟨hb₁, fun hne => absurd rfl hne⟩
  · split at hr
    · rw [pure_ok, Prod.mk.injEq] at hr
      rw [← hr.1]
      exact ⟨hb₁, fun hne => absurd rfl hne⟩
    · simp only [bind_ok, pure_ok, Prod.mk.injEq] at hr
      obtain ⟨s₂, h₂, s₃, h₃, rfl, _⟩ := hr
      have hb₂ := hb₁.insertSubmission h₂
      simp only [Submissions.insertSubmission, bind_ok, ensure_ok, pure_ok] at h₂
      obtain ⟨_, hnew, rfl⟩ := h₂
      simp only [Bool.not_eq_true', List.any_eq_false, Bool.or_eq_true, decide_eq_true_eq,
        not_or] at hnew
      obtain ⟨hb₃, r, hrow, htidy⟩ :=
        hb₂.scheduleSnapshots (hk.append fun y hy => (hnew y hy).1) h₃
      exact ⟨hb₃, fun _ => ⟨r, hrow, htidy⟩⟩

/-- A refill is one transaction of scheduling after the other. -/
theorem refillLoop {fresh : Nat → Nat → Uuid} {tie : Nat → Uuid → Nat} :
    ∀ {ids : List Uuid} {n : Nat} {s s' : Store}, Bounded s →
    Keyed Submission.id s.submissions →
    Submissions.refillLoop now fresh tie n s ids = .ok s' → Bounded s' := by
  intro ids
  induction ids with
  | nil =>
    intro n s s' h _ hl
    rw [Submissions.refillLoop, pure_ok] at hl
    rw [← hl]
    exact h
  | cons id rest ih =>
    intro n s s' h hk hl
    rw [Submissions.refillLoop, bind_ok] at hl
    obtain ⟨s₁, h₁, h₂⟩ := hl
    obtain ⟨tasks, hs₁⟩ := TasksOnly.scheduleSnapshots h₁
    exact ih (h.scheduleSnapshots hk h₁).1 (by rw [hs₁]; exact hk) h₂

/-- Which sources there are does not matter to the bound. -/
theorem retainSource (h : Bounded s) {id : Uuid} {hash : String}
    (hr : Submissions.retainSource s id hash = .ok s') : Bounded s' := by
  simp only [Submissions.retainSource, bind_ok, pure_ok] at hr
  obtain ⟨_, _, rfl⟩ := hr
  refine h.of_tasks rfl (fun x hx => ⟨_, mem_updateWhere.mpr ⟨x, hx, rfl⟩, ?_⟩)
    fun enrollment t _ hf => ?_
  · split <;> rfl
  · obtain ⟨hbusy, x', hx', hof, hfinal⟩ := fetching_iff.mp hf
    obtain ⟨x, hx, rfl⟩ := mem_updateWhere.mp hx'
    refine fetching_iff.mpr ⟨hbusy, x, hx, ?_⟩
    by_cases hp : (x.id = id && x.sourceDigest.isNone) = true
    · rw [if_pos hp] at hof hfinal
      exact ⟨hof, hfinal⟩
    · rw [if_neg hp] at hof hfinal
      exact ⟨hof, hfinal⟩

/-! ### Closing -/

/-- **Closing brings back the task of the final submission only.** -/
theorem freeze (h : Bounded s) (hk : Keys s) (hf : Finals s) {repository : Uuid}
    (hopen : ∀ r ∈ s.repositories, r.id = repository → r.closureDue = false) :
    Bounded (Submissions.freeze s now repository) := by
  have hclosed : Bounded (s.updateRepositories (fun r => r.id = repository)
      (·.closeWith ((s.newest repository).map Submission.id))) := by
    refine h.updateRepositories (fun _ _ => ⟨rfl, rfl⟩) fun r hr hp id hwas => ?_
    rw [decide_eq_true_eq] at hp
    have hdue := (hf r hr id hwas).1
    rw [hopen r hr hp] at hdue
    cases hdue
  rw [Submissions.freeze]
  split
  · rename_i submission hnewest
    refine hclosed.updateTasks (fun t => ⟨rfl, rfl⟩) fun enrollment t _ hof hrevived => ?_
    obtain ⟨⟨hkind, _⟩, x, hx, ⟨hid, he⟩, hnot⟩ := fetching_iff.mp hrevived
    -- the revived task is of the submission that is final now
    have hsub : t.subject = submission := by
      simp only [Submissions.ofFinal, Bool.or_eq_true, Bool.and_eq_true, decide_eq_true_eq] at hof
      rcases hof with hof | hof
      · exact hof.2
      · have hk' : t.kind = .snapshot := hkind
        rw [hof.1] at hk'
        cases hk'
    obtain ⟨y, hy, hyid⟩ := Option.map_eq_some_iff.mp hnewest
    have hymem := List.argmax_mem hy
    rw [Store.submissionsOf, List.mem_filter, decide_eq_true_eq] at hymem
    have hxy : x = y := hk.submissions.eq hx hymem.1 (hid.trans (hsub.trans hyid.symm))
    rw [Submissions.enrolledIn, Option.any_eq_true] at he
    obtain ⟨r, hrow, _⟩ := he
    have hrid : r.id = repository := (key_of_lookup hrow).trans (hxy ▸ hymem.2)
    rw [Submissions.isFinal, hrow, Option.any_some, decide_eq_false_iff_not] at hnot
    obtain ⟨q, hq, rfl⟩ := mem_updateWhere.mp (mem_of_lookup hrow)
    refine absurd ?_ hnot
    by_cases hqid : q.id = repository
    · rw [if_pos (decide_eq_true hqid), hnewest, hid]
      exact congrArg some hsub.symm
    · rw [if_neg (by rw [decide_eq_true_eq]; exact hqid)] at hrid
      exact absurd hrid hqid
  · exact hclosed

theorem enqueueLock (h : Bounded s) {id repository : Uuid}
    (he : Submissions.enqueueLock s now id repository = .ok s') : Bounded s' := by
  simp only [Submissions.enqueueLock, bind_ok, pure_ok] at he
  obtain ⟨s₁, h₁, rfl⟩ := he
  refine (h.enqueue (by decide) h₁).updateOther (fun t => ⟨rfl, rfl⟩) fun t hp => ?_
  simp only [Bool.and_eq_true, decide_eq_true_eq] at hp
  rw [hp.1.1]
  decide

theorem close (h : Bounded s) (hk : Keys s) (hf : Finals s) {fresh : Nat → Uuid}
    {repository : Uuid} (hc : Submissions.close s now fresh repository = .ok s') : Bounded s' := by
  simp only [Submissions.close, bind_ok] at hc
  obtain ⟨p, hp, hc⟩ := hc
  obtain ⟨hmem, hid, _⟩ := Store.fetchPinned_ok hp
  have hfirst : Bounded
      (if (decide (p.deadline < now) && !p.repository.closureDue) = true then
        Submissions.freeze s now repository else s) := by
    split
    · rename_i hdue
      rw [Bool.and_eq_true, Bool.not_eq_true'] at hdue
      refine h.freeze hk hf fun r hr hrid => ?_
      rw [hk.repositories.eq hr hmem (hrid.trans hid.symm)]
      exact hdue.2
    · exact h
  split at hc
  · exact hfirst.enqueueLock hc
  · rw [pure_ok] at hc
    rw [← hc]
    exact hfirst

/-! ### Leases -/

theorem lease (h : Bounded s) {locked : List Uuid} {token : Uuid} {owner : String}
    {kinds : List TaskKind} (hk : Keyed TaskRow.id s.tasks) :
    Bounded (Queue.lease s now locked token owner kinds).1 := by
  rw [Queue.lease]
  split
  · exact h
  · rename_i t ht
    refine h.updateBusy (fun u => ⟨rfl, rfl⟩) fun u hu hid => ?_
    have hmem := List.argmin_mem ht
    rw [List.mem_filter, Bool.and_eq_true, Bool.and_eq_true] at hmem
    rw [decide_eq_true_eq] at hid
    rw [hk.eq hu hmem.1 hid]
    have hready := hmem.2.1.2
    simp only [TaskRow.ready, Bool.and_eq_true, Bool.or_eq_true, decide_eq_true_eq] at hready
    exact hready.2.imp And.left And.left

/-- A write of the holder of a lease. -/
theorem updateHeld (h : Bounded s) {id token : Uuid} {p : TaskRow → Bool}
    {f : TaskRow → TaskRow} (hkey : ∀ t, (f t).kind = t.kind ∧ (f t).subject = t.subject)
    (hheld : ∀ t, p t = true → Queue.holds now id token t = true) :
    Bounded (s.updateTasks p f) := by
  refine h.updateBusy hkey fun t _ hp => Or.inr ?_
  have hholds := hheld t hp
  simp only [Queue.holds, Bool.and_eq_true, decide_eq_true_eq] at hholds
  exact hholds.1.2

theorem heartbeat (h : Bounded s) {id token : Uuid} {owner : String}
    (hb : Queue.heartbeat s now id token owner = .ok s') : Bounded s' := by
  simp only [Queue.heartbeat, bind_ok, pure_ok] at hb
  obtain ⟨_, _, rfl⟩ := hb
  refine h.updateHeld (fun t => ⟨rfl, rfl⟩) (?_ : ∀ t, _ → Queue.holds now id token t = true)
  intro t hp
  rw [Bool.and_eq_true] at hp
  exact hp.1

theorem finish (h : Bounded s) {task : Task} (hf : Queue.finish s now task = .ok s') :
    Bounded s' := by
  simp only [Queue.finish, bind_ok, pure_ok] at hf
  obtain ⟨_, _, rfl⟩ := hf
  exact h.updateHeld (fun t => ⟨rfl, rfl⟩) fun _ hp => hp

theorem fail (h : Bounded s) {task : Task} {text : String} :
    Bounded (Queue.fail s now task text) :=
  h.updateHeld (fun _ => ⟨rfl, rfl⟩) fun _ hp => hp

theorem failPermanently (h : Bounded s) {task : Task} :
    Bounded (Queue.failPermanently s now task) := by
  rw [Queue.failPermanently]
  refine markReview (updateHeld h (fun t => ?_) fun _ hp => hp)
  exact ⟨rfl, rfl⟩

theorem defer (h : Bounded s) {task : Task} {until_ : Time} :
    Bounded (Queue.defer s now task until_) :=
  h.updateHeld (fun _ => ⟨rfl, rfl⟩) fun _ hp => hp

theorem expireExhausted (h : Bounded s) : Bounded (Queue.expireExhausted s now) := by
  refine h.updateBusy (fun t => ⟨rfl, rfl⟩) fun t _ hp => Or.inr ?_
  simp only [Bool.and_eq_true, decide_eq_true_eq] at hp
  exact hp.1.1

end Bounded

/-! ### Every run -/

/-- The operations on receipts, deadlines, sources and control leases. -/
def StoreOp.fetches : StoreOp → Bool
  | .record .. | .scheduleSnapshots .. | .close .. | .extend .. | .put .. | .retainSource ..
  | .flagFailedSnapshots | .leaseTask .. | .heartbeat .. | .finish .. | .fail ..
  | .failPermanently .. | .deferTask .. | .expireExhausted => true
  | _ => false

def Op.fetches : Op → Bool
  | .store op => op.fetches
  | _ => false

section Runs
variable [Sha256]

/-- **These operations keep the queue bounded.** -/
theorem Bounded.exec {s s' : Store} {now : Time} {op : StoreOp} (h : Bounded s) (hk : Keys s)
    (hf : Finals s) (hop : op.fetches = true) (hs : op.exec s now = .ok s') : Bounded s' := by
  cases op <;> first | (cases hop; done) | skip
  all_goals simp only [StoreOp.exec, map_fst_ok, Except.ok.injEq] at hs
  case record => obtain ⟨_, hs⟩ := hs; exact (h.record hk.submissions hs).1
  case scheduleSnapshots => exact (h.scheduleSnapshots hk.submissions hs).1
  case close => exact h.close hk hf hs
  case extend =>
    simp only [Submissions.extend, bind_ok, pure_ok] at hs
    obtain ⟨_, _, _, _, _, _, rfl⟩ := hs
    exact h.of_same rfl rfl rfl
  case put =>
    obtain ⟨_, hs⟩ := hs
    simp only [Submissions.put, bind_ok, pure_ok, Prod.mk.injEq] at hs
    obtain ⟨_, _, rfl, _⟩ := hs
    split
    · exact h
    · exact h.of_same rfl rfl rfl
  case retainSource => exact h.retainSource hs
  case flagFailedSnapshots => rw [← hs]; exact h.markReview
  case leaseTask => rw [← hs]; exact h.lease hk.tasks
  case heartbeat => exact h.heartbeat hs
  case finish => exact h.finish hs
  case fail => rw [← hs]; exact h.fail
  case failPermanently => rw [← hs]; exact h.failPermanently
  case deferTask => rw [← hs]; exact h.defer
  case expireExhausted => rw [← hs]; exact h.expireExhausted

omit [Sha256] in
theorem Sys.Initial.bounded {σ : Sys} (h0 : σ.Initial) : Bounded σ.store where
  atMost := by
    intro enrollment
    have hnone : σ.store.tasks.countP (fetching σ.store enrollment) = 0 := by
      rw [List.countP_eq_zero]
      intro t ht hf
      have hkind := (fetching_iff.mp hf).1.1
      rw [h0.tasks t ht] at hkind
      cases hkind
    omega
  named := by
    intro t ht hkind
    rw [h0.tasks t ht] at hkind
    cases hkind

theorem Sys.run_bounded {σ τ : Sys} {taken : List (Sys × (Time × Op))} (h0 : σ.Initial)
    (hrun : Transition.Run Sys.Step σ taken τ) (hops : ∀ p ∈ taken, p.2.2.fetches = true) :
    τ.Reachable ∧ Bounded τ.store := by
  refine hrun.guarded (fun _ l => l.2.fetches = true)
    (I := fun τ => τ.Reachable ∧ Bounded τ.store) ?_ hops
    ⟨Transition.Reachable.start_mem h0, h0.bounded⟩
  rintro τ ⟨now, op⟩ υ ⟨hτ, hb⟩ hop hst
  refine ⟨hτ.tail hst, ?_⟩
  cases op with
  | store op =>
    rcases hst.exec with hs | hsame
    · exact hb.exec hτ.keys hτ.finals hop hs
    · rw [hsame]
      exact hb
  | _ => cases hop

/-- **The source-fetch queue is bounded.**  Along every run of these operations
at most eight snapshot tasks of an enrollment's submissions that are not final
are pending or leased, also after the transactions of a refill; and after
scheduling, on its own or for a new submission, what is pending is of the newest
submission of its repository or of the final one. -/
theorem Sys.fetching_bounded {σ τ : Sys} {taken : List (Sys × (Time × Op))} (h0 : σ.Initial)
    (hrun : Transition.Run Sys.Step σ taken τ) (hops : ∀ p ∈ taken, p.2.2.fetches = true) :
    (∀ enrollment, τ.store.tasks.countP (fetching τ.store enrollment) ≤ 8) ∧
      (∀ now fresh tie s', Submissions.refillSnapshots τ.store now fresh tie = .ok s' →
        ∀ enrollment, s'.tasks.countP (fetching s' enrollment) ≤ 8) ∧
      (∀ now fresh tie repository s',
        Submissions.scheduleSnapshots τ.store now fresh tie repository = .ok s' →
        ∃ r, τ.store.fetchRepository repository = .ok r ∧ Tidy s' r.enrollmentId) ∧
      ∀ now fresh tie repository sha received source delivery s' out,
        Submissions.record τ.store now fresh tie repository sha received source delivery =
          .ok (s', out) →
        s'.submissions ≠ τ.store.submissions →
        ∃ r, τ.store.fetchRepository repository = .ok r ∧ Tidy s' r.enrollmentId := by
  obtain ⟨hτ, hb⟩ := Sys.run_bounded h0 hrun hops
  refine ⟨hb.atMost, ?_, ?_, ?_⟩
  · intro now fresh tie s' hs
    exact (Bounded.refillLoop hb hτ.keys.submissions hs).atMost
  · intro now fresh tie repository s' hs
    exact (hb.scheduleSnapshots hτ.keys.submissions hs).2
  · intro now fresh tie repository sha received source delivery s' out hr
    exact (hb.record hτ.keys.submissions hr).2

end Runs

namespace Sample

attribute [local instance] Sha256.standard

/-- A push to each of the nine repositories. -/
def pushes : List (Time × Op) := crowding.take 9

/-- **Eight of the nine are fetched.** -/
theorem fetching_bounded_nine : ∃ σ, nine.play pushes = some σ ∧
    σ.store.tasks.countP (fetching σ.store 1) = 8 ∧
    ∀ enrollment, σ.store.tasks.countP (fetching σ.store enrollment) ≤ 8 := by
  have hplay : (nine.play pushes).any (fun σ =>
      σ.store.tasks.countP (fetching σ.store 1) = 8) = true := by decide +kernel
  obtain ⟨σ, hσ, hcount⟩ := Option.any_eq_true _ _ |>.mp hplay
  refine ⟨σ, hσ, of_decide_eq_true hcount, ?_⟩
  refine (Sys.fetching_bounded nine_initial (Sys.run_of_play hσ) fun p hp => ?_).1
  have hop : p.2 ∈ pushes := by
    rw [← Sys.map_trace nine pushes]
    exact List.mem_map_of_mem hp
  have hall : pushes.all (fun l => l.2.fetches) = true := by decide +kernel
  exact List.all_eq_true.mp hall p.2 hop

end Sample

end Grading

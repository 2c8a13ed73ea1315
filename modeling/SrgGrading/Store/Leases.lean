import SrgGrading.Store.Calls

/-!
# Leases

A token is good while its row is leased under it and the lease has not run out.

* `Sys.stale_write_iff`: a worker that lost its lease changes nothing, but for
  `fail_permanently`, which flags the repository its payload leads to.
* `Sys.leases_exclusive`: no two live leases of grade tasks share a worker or an
  enrollment.  The guards of `lease` see to it when a lease begins; afterwards a
  heartbeat prolongs live leases only.
-/

open Fallible Relational

namespace Grading

/-! ### Stale tokens -/

/-- The writes of a worker to its task. -/
inductive TaskWrite
  | heartbeat (owner : String)
  | finish
  | fail (text : String)
  | failPermanently
  | deferTask (until_ : Time)
  deriving DecidableEq

/-- The operation on `task`. -/
def TaskWrite.op (task : Task) : TaskWrite → StoreOp
  | .heartbeat owner => .heartbeat task.id task.leaseToken owner
  | .finish => .finish task
  | .fail text => .fail task text
  | .failPermanently => .failPermanently task
  | .deferTask until_ => .deferTask task until_

/-- The row of `task` has another token, is not leased, or its lease ran out. -/
def Stale (s : Store) (now : Time) (task : Task) : Prop :=
  ∀ t ∈ s.tasks, t.id = task.id →
    t.leaseToken ≠ some task.leaseToken ∨ t.status ≠ .leased ∨ t.live now = false

instance (s : Store) (now : Time) (task : Task) : Decidable (Stale s now task) :=
  inferInstanceAs (Decidable (∀ t ∈ s.tasks, _ → _))

/-- The payload of `task` leads to a repository that is not flagged for review. -/
def LeadsToUnreviewed (s : Store) (task : Task) : Prop :=
  ∃ r ∈ s.repositories, r.needsReview = false ∧ ∃ x ∈ s.submissions,
    x.repositoryId = r.id ∧ some x.id = Queue.Task.submissionId task

section Stale
variable {s : Store} {now : Time} {task : Task}

theorem Stale.holds (h : Stale s now task) :
    ∀ t ∈ s.tasks, Queue.holds now task.id task.leaseToken t = false := by
  intro t ht
  rw [Bool.eq_false_iff]
  intro hheld
  simp only [Queue.holds, Bool.and_eq_true, decide_eq_true_eq] at hheld
  obtain ⟨⟨⟨hid, htoken⟩, hleased⟩, hlive⟩ := hheld
  rcases h t ht hid with h₁ | h₂ | h₃
  · exact h₁ htoken
  · exact h₂ hleased
  · rw [hlive] at h₃
    cases h₃

/-- A statement fenced by a stale token updates nothing. -/
theorem Stale.updateTasks (h : Stale s now task) (f : TaskRow → TaskRow) :
    s.updateTasks (Queue.holds now task.id task.leaseToken) f = s := by
  have hsame : updateWhere (Queue.holds now task.id task.leaseToken) f s.tasks = s.tasks := by
    refine updateWhere_eq_self.mpr fun t ht hheld => ?_
    rw [h.holds t ht] at hheld
    cases hheld
  rw [Store.updateTasks, hsame]

theorem Stale.countP (h : Stale s now task) {p : TaskRow → Bool}
    (hp : ∀ t, p t = true → Queue.holds now task.id task.leaseToken t = true) :
    s.tasks.countP p = 0 := by
  rw [List.countP_eq_zero]
  intro t ht hpt
  have hheld := hp t hpt
  rw [h.holds t ht] at hheld
  cases hheld

theorem Stale.heartbeat (h : Stale s now task) (owner : String) :
    Queue.heartbeat s now task.id task.leaseToken owner =
      .error (.message "lease expired or belongs to another worker") := by
  have hnone := h.countP (p := fun t => Queue.holds now task.id task.leaseToken t &&
    t.leaseOwner = some owner) fun t ht => (Bool.and_eq_true_iff.mp ht).1
  rw [Queue.heartbeat, hnone]
  rfl

theorem Stale.finish (h : Stale s now task) :
    Queue.finish s now task = .error (.message "lease lost before completion") := by
  rw [Queue.finish, h.countP fun t ht => ht]
  rfl

/-- Flagging repositories changes the store unless they are flagged already. -/
theorem markReview_eq_self {p : StudentRepository → Bool} :
    s.markReview p = s ↔ ∀ r ∈ s.repositories, p r = true → r.needsReview = true := by
  have hrows : s.markReview p = s ↔
      updateWhere p (fun r => { r with needsReview := true }) s.repositories = s.repositories :=
    ⟨fun h => congrArg Store.repositories h, fun h => by
      rw [Store.markReview, Store.updateRepositories, h]⟩
  rw [hrows, updateWhere_eq_self]
  refine forall_congr' fun r => imp_congr_right fun _ => imp_congr_right fun _ => ?_
  constructor
  · intro h
    rw [← h]
  · intro h
    rw [← h]

theorem Stale.failPermanently (h : Stale s now task) :
    Queue.failPermanently s now task = s ↔ ¬ LeadsToUnreviewed s task := by
  rw [Queue.failPermanently, h.updateTasks, markReview_eq_self]
  constructor
  · rintro hall ⟨r, hr, hno, x, hx, hrep, hid⟩
    have hflagged := hall r hr (by
      rw [List.any_eq_true]
      exact ⟨x, hx, by rw [decide_eq_true hrep, decide_eq_true hid]; rfl⟩)
    rw [hno] at hflagged
    cases hflagged
  · intro hno r hr hp
    rw [List.any_eq_true] at hp
    obtain ⟨x, hx, hkey⟩ := hp
    rw [Bool.and_eq_true, decide_eq_true_eq, decide_eq_true_eq] at hkey
    cases hneeds : r.needsReview with
    | true => rfl
    | false => exact absurd ⟨r, hr, hneeds, x, hx, hkey⟩ hno

end Stale

/-- **A stale token changes nothing**, unless the write is `fail_permanently` and
the payload leads to a repository that is not flagged for review. -/
theorem Sys.stale_write_iff [Sha256] {σ : Sys} {now : Time} {task : Task}
    (h : Stale σ.store now task) (w : TaskWrite) :
    (σ.perform now (.store (w.op task))).store = σ.store ↔
      ¬ (w = .failPermanently ∧ LeadsToUnreviewed σ.store task) := by
  cases w with
  | heartbeat owner =>
    simp [TaskWrite.op, perform, StoreOp.exec, h.heartbeat]
  | finish =>
    simp [TaskWrite.op, perform, StoreOp.exec, h.finish]
  | fail text =>
    simp [TaskWrite.op, perform, StoreOp.exec, Queue.fail, h.updateTasks]
  | failPermanently =>
    simp only [TaskWrite.op, perform, StoreOp.exec, true_and]
    exact h.failPermanently
  | deferTask until_ =>
    simp [TaskWrite.op, perform, StoreOp.exec, Queue.defer, h.updateTasks]

namespace Sample

attribute [local instance] Sha256.standard

/-- A snapshot is leased by a worker that is lost, and taken over by another. -/
def takenOver : List (Time × Op) :=
  [(second 1, push 10 shaA (second 1)),
    (second 2, .store (.leaseTask [] 40 "control-a" [.snapshot])),
    (second 130, .store (.leaseTask [] 41 "control-b" [.snapshot])),
    (second 131, .store (.finish ⟨12, .snapshot, 11, 41, second 250, 2⟩))]

/-- The task as the lost worker holds it. -/
def lost : Task := ⟨12, .snapshot, 11, 40, second 122, 1⟩

/-- The lost worker cannot finish the task. -/
theorem stale_write_finish : ∃ σ, start.play takenOver = some σ ∧
    (σ.perform (second 132) (.store (TaskWrite.finish.op lost))).store = σ.store := by
  have key : (start.play takenOver).any (fun σ => decide (Stale σ.store (second 132) lost)) =
      true := by
    decide +kernel
  obtain ⟨σ, hσ, hstale⟩ := Option.any_eq_true _ _ |>.mp key
  refine ⟨σ, hσ, (Sys.stale_write_iff (of_decide_eq_true hstale) .finish).mpr ?_⟩
  exact fun h => absurd h.1 (by decide)

/-- **A lost worker flags the repository for review** although another finished
the task. -/
theorem stale_write_flags : ∃ σ, start.play takenOver = some σ ∧
    Stale σ.store (second 132) lost ∧
    (σ.perform (second 132) (.store (TaskWrite.failPermanently.op lost))).store ≠ σ.store := by
  have key : (start.play takenOver).any (fun σ => decide (Stale σ.store (second 132) lost ∧
      (σ.perform (second 132) (.store (TaskWrite.failPermanently.op lost))).store ≠ σ.store)) =
      true := by
    decide +kernel
  obtain ⟨σ, hσ, hkey⟩ := Option.any_eq_true _ _ |>.mp key
  exact ⟨σ, hσ, of_decide_eq_true hkey⟩

end Sample

/-! ### Exclusivity -/

/-- Two busy tasks have different owners and enrollments. -/
structure Exclusive (s : Store) (now : Time) : Prop where
  owner : ∀ t ∈ s.tasks, ∀ u ∈ s.tasks, Runs.busy now t = true → Runs.busy now u = true →
    t.leaseOwner = u.leaseOwner → t = u
  enrollment : ∀ t ∈ s.tasks, ∀ u ∈ s.tasks, Runs.busy now t = true → Runs.busy now u = true →
    Runs.enrollmentOfRun s t.subject = Runs.enrollmentOfRun s u.subject → t = u

section Exclusivity
variable {s s' : Store} {now later : Time} {run enrollment : Uuid}

theorem busy_spec {t : TaskRow} : Runs.busy now t = true ↔
    t.kind = .grade ∧ t.status = .leased ∧ t.live now = true := by
  rw [Runs.busy, Bool.and_eq_true, Bool.and_eq_true, decide_eq_true_eq, decide_eq_true_eq, and_assoc]

/-- A live lease was live before. -/
theorem live_of_le {t : TaskRow} (h : t.live later = true) (hle : now ≤ later) :
    t.live now = true := by
  rw [TaskRow.live, Option.any_eq_true] at h ⊢
  obtain ⟨until_, hu, hlt⟩ := h
  exact ⟨until_, hu, decide_eq_true (lt_of_le_of_lt hle (of_decide_eq_true hlt))⟩

theorem busy_of_le {t : TaskRow} (h : Runs.busy later t = true) (hle : now ≤ later) :
    Runs.busy now t = true := by
  obtain ⟨hkind, hleased, hlive⟩ := busy_spec.mp h
  exact busy_spec.mpr ⟨hkind, hleased, live_of_le hlive hle⟩

theorem Exclusive.of_le (h : Exclusive s now) (hle : now ≤ later) : Exclusive s later where
  owner t ht u hu hbt hbu := h.owner t ht u hu (busy_of_le hbt hle) (busy_of_le hbu hle)
  enrollment t ht u hu hbt hbu := h.enrollment t ht u hu (busy_of_le hbt hle) (busy_of_le hbu hle)

/-- The enrollment of a run is that of the repository it grades. -/
theorem enrollmentOfRun_eq (hk : Keys s) : Runs.enrollmentOfRun s run = some enrollment ↔
    ∃ g ∈ s.runs, g.id = run ∧ ∃ x ∈ s.submissions, x.id = g.submissionId ∧
      ∃ r ∈ s.repositories, r.id = x.repositoryId ∧ r.enrollmentId = enrollment := by
  simp only [Runs.enrollmentOfRun, Store.repositoryOf, Option.bind_eq_bind,
    Option.bind_eq_some_iff, Option.pure_def, Option.some_inj, lookup_eq_some hk.runs,
    lookup_eq_some hk.submissions, lookup_eq_some hk.repositories, and_assoc]

/-- The task was busy before, for the same worker and run. -/
def WasBusy (s : Store) (now : Time) (t : TaskRow) : Prop :=
  ∃ u ∈ s.gradeTasks, u.id = t.id ∧ u.subject = t.subject ∧ u.leaseOwner = t.leaseOwner ∧
    Runs.busy now u = true

/-- A lease of the task begins, for `owner`. -/
structure Begins (s : Store) (now : Time) (worker : String) (u t : TaskRow) : Prop where
  mem : u ∈ s.gradeTasks
  id : u.id = t.id
  subject : u.subject = t.subject
  owner : t.leaseOwner = some worker
  free : Free s now worker u

/-- An update that keeps the owner and makes no task busy. -/
theorem wasBusy_of_update {p : TaskRow → Bool} {f : TaskRow → TaskRow} {t : TaskRow}
    (ht : t ∈ updateWhere p f s.gradeTasks) (hbusy : Runs.busy now t = true)
    (hf : ∀ t, (f t).id = t.id ∧ (f t).subject = t.subject ∧ (f t).leaseOwner = t.leaseOwner)
    (hp : ∀ t, p t = true → Runs.busy now (f t) = true → Runs.busy now t = true) :
    WasBusy s now t := by
  obtain ⟨u, hu, rfl⟩ := mem_updateWhere.mp ht
  by_cases hpu : p u = true
  · rw [if_pos hpu] at hbusy ⊢
    exact ⟨u, hu, (hf u).1.symm, (hf u).2.1.symm, (hf u).2.2.symm, hp u hpu hbusy⟩
  · rw [if_neg hpu] at hbusy ⊢
    exact ⟨u, hu, rfl, rfl, rfl, hbusy⟩

/-- **What a step does to the busy tasks**: they were busy before, but for at most
one whose lease begins. -/
theorem GradeStep.busy [Sha256] (hk : Keys s) {calls : List Runs.AcceptCall} {op : Op}
    (h : GradeStep calls now op s s') :
    ∃ u owner, ∀ t ∈ s'.gradeTasks, Runs.busy now t = true →
      WasBusy s now t ∨ Begins s now owner u t := by
  have hidle : s'.gradeTasks = s.gradeTasks → ∀ t ∈ s'.gradeTasks, Runs.busy now t = true →
      WasBusy s now t := by
    intro heq t ht hbusy
    rw [heq] at ht
    exact ⟨t, ht, rfl, rfl, rfl, hbusy⟩
  have hold : (∀ t ∈ s'.gradeTasks, Runs.busy now t = true → WasBusy s now t) →
      ∃ u owner, ∀ t ∈ s'.gradeTasks, Runs.busy now t = true →
        WasBusy s now t ∨ Begins s now owner u t :=
    fun hall => ⟨.new 0 .grade 0 0 0, "", fun t ht hbusy => Or.inl (hall t ht hbusy)⟩
  -- a task that is queued is not busy
  have hqueued : ∀ {t v : TaskRow}, t.status = .pending → v ∈ [t] → Runs.busy now v = true →
      WasBusy s now v := by
    intro t v hpending hv hbusy
    rw [List.mem_singleton.mp hv] at hbusy
    have hleased := (busy_spec.mp hbusy).2.1
    rw [hpending] at hleased
    cases hleased
  cases h with
  | idle h => exact hold (hidle h.tasks)
  | revived r x hr hopen hx hrep runs tasks =>
    refine hold fun t ht hbusy => ?_
    rw [tasks] at ht
    refine wasBusy_of_update ht hbusy (fun _ => ⟨rfl, rfl, rfl⟩) fun u _ hbusy => ?_
    obtain ⟨hkind, hleased, hlive⟩ := busy_spec.mp hbusy
    refine busy_spec.mpr ⟨hkind, ?_, hlive⟩
    simp only [Submissions.revive] at hleased
    split at hleased
    · cases hleased
    · exact hleased
  | heartbeat held until_ hheld runs tasks =>
    refine hold fun t ht hbusy => ?_
    rw [tasks] at ht
    refine wasBusy_of_update ht hbusy (fun _ => ⟨rfl, rfl, rfl⟩) fun u hu hbusy => ?_
    exact busy_spec.mpr ⟨(busy_spec.mp hbusy).1, hheld u hu⟩
  | expired runs tasks =>
    refine hold fun t ht hbusy => ?_
    rw [tasks] at ht
    refine wasBusy_of_update ht hbusy (fun _ => ⟨rfl, rfl, rfl⟩) fun u _ hbusy => ?_
    cases (busy_spec.mp hbusy).2.1
  | leased t owner token ht hready hfree runs tasks =>
    refine ⟨t, owner, fun v hv hbusy => ?_⟩
    rw [tasks] at hv
    obtain ⟨u, hu, rfl⟩ := mem_updateWhere.mp hv
    by_cases hid : u.id = t.id
    · have hut : u = t := hk.tasks.eq (mem_gradeTasks.mp hu).1 (mem_gradeTasks.mp ht).1 hid
      rw [if_pos (decide_eq_true hid), hut]
      exact Or.inr ⟨ht, rfl, rfl, rfl, hfree⟩
    · rw [if_neg (by rw [decide_eq_true_eq]; exact hid)] at hbusy ⊢
      exact Or.inl ⟨u, hu, rfl, rfl, rfl, hbusy⟩
  | recorded call t hrec ht hid htoken howner hleased hlive runs tasks =>
    refine hold fun t ht hbusy => ?_
    rw [tasks] at ht
    refine wasBusy_of_update ht hbusy (fun _ => ⟨rfl, rfl, rfl⟩) fun u _ hbusy => ?_
    cases (busy_spec.mp hbusy).2.1
  | skipped g hnew hpublic hstatus runs tasks => exact hold (hidle tasks)
  | queued g t r regrade hop hqueues hnew hpublic hstatus ht runs tasks =>
    refine hold fun v hv hbusy => ?_
    rw [tasks] at hv
    rcases List.mem_append.mp hv with hv | hv
    · refine wasBusy_of_update hv hbusy (fun _ => ⟨rfl, rfl, rfl⟩) fun u _ hb => ?_
      cases (busy_spec.mp hb).2.1
    · exact hqueued ht.2 hv hbusy
  | queuedPrivate g t baseline hnew hprivate hstatus ht runs tasks =>
    refine hold fun v hv hbusy => ?_
    rw [tasks] at hv
    rcases List.mem_append.mp hv with hv | hv
    · exact ⟨v, hv, rfl, rfl, rfl, hbusy⟩
    · exact hqueued ht.2 hv hbusy
  | failed runs tasks => exact hold (hidle tasks)

/-- The two have the same owner, or runs of the same enrollment. -/
def Shares (s : Store) (t u : TaskRow) : Prop :=
  t.leaseOwner = u.leaseOwner ∨
    Runs.enrollmentOfRun s t.subject = Runs.enrollmentOfRun s u.subject

theorem Exclusive.eq (h : Exclusive s now) {t u : TaskRow} (ht : t ∈ s.tasks) (hu : u ∈ s.tasks)
    (hbt : Runs.busy now t = true) (hbu : Runs.busy now u = true) (hshares : Shares s t u) :
    t = u := by
  rcases hshares with howner | henroll
  · exact h.owner t ht u hu hbt hbu howner
  · exact h.enrollment t ht u hu hbt hbu henroll

/-- A lease does not begin for a worker or an enrollment that is busy. -/
theorem Begins.not_shares {worker : String} {p t u : TaskRow} (h : Begins s now worker p u)
    (ht : WasBusy s now t) (hsome : (Runs.enrollmentOfRun s t.subject).isSome = true) :
    ¬ Shares s t u := by
  obtain ⟨v, hv, _, hsub, howner, hbusy⟩ := ht
  obtain ⟨hmem, _⟩ := mem_gradeTasks.mp hv
  rintro (hsame | hsame)
  · exact h.free.owner v hmem hbusy (howner.trans (hsame.trans h.owner))
  · rw [← hsub] at hsame hsome
    rw [← h.subject] at hsame
    exact h.free.enrollment v hmem hbusy hsome hsame

end Exclusivity

section Runs
variable [Sha256] {σ τ : Sys} {l : Time × Op} {now : Time}

/-- The submission of a run exists. -/
theorem Sys.Reachable.submitted (h : σ.Reachable) :
    ∀ g ∈ σ.store.runs, ∃ x ∈ σ.store.submissions, x.id = g.submissionId := by
  refine Transition.Reachable.invariant
    (I := fun σ => ∀ g ∈ σ.store.runs, ∃ x ∈ σ.store.submissions, x.id = g.submissionId)
    (fun _ h0 g hg => ?_) ?_ h
  · rw [h0.runs] at hg
    cases hg
  · intro σ l τ hσ hsub hst g' hg'
    have hev := Sys.Step.evolves (keys hσ) hst
    have hold : ∀ {id}, (∃ x ∈ σ.store.submissions, x.id = id) →
        ∃ x ∈ τ.store.submissions, x.id = id := by
      rintro id ⟨x, hx, hid⟩
      obtain ⟨x', hx', hid', _⟩ := hev.submissions.old hx
      exact ⟨x', hx', hid'.trans hid⟩
    rcases hev.runs.origin hg' with ⟨g, hg, _, hsame⟩ | ⟨_, hfresh⟩
    · rw [hsame.submission]
      exact hold (hsub g hg)
    · rcases Sys.Step.life hσ hst g' hg' with ⟨g, hg, hid, _⟩ | hborn
      · exact absurd (List.mem_map.mpr ⟨g, hg, hid⟩) hfresh
      · exact hold hborn.new.submission

/-- A run has an enrollment, and keeps it. -/
theorem Sys.Step.enrollmentOfRun (hσ : σ.Reachable) (h : Sys.Step σ l τ) {g : GradingRun}
    (hg : g ∈ σ.store.runs) : ∃ enrollment,
      Runs.enrollmentOfRun σ.store g.id = some enrollment ∧
      Runs.enrollmentOfRun τ.store g.id = some enrollment := by
  obtain ⟨x, hx, hxid⟩ := hσ.submitted g hg
  obtain ⟨r, hr, hrid⟩ := hσ.homed x hx
  have hev := h.evolves hσ.keys
  obtain ⟨g', hg', hgid', hgg⟩ := hev.runs.old hg
  obtain ⟨x', hx', hxid', hxx⟩ := hev.submissions.old hx
  obtain ⟨r', hr', hrid', hrr, _⟩ := hev.repositories.old hr
  refine ⟨r.enrollmentId, (enrollmentOfRun_eq hσ.keys).mpr ⟨g, hg, rfl, x, hx, hxid, r, hr, hrid, rfl⟩,
    (enrollmentOfRun_eq (hev.keys hσ.keys)).mpr ⟨g', hg', hgid', x', hx', ?_, r', hr', ?_, ?_⟩⟩
  · rw [hxid', hxid, hgg.submission]
  · rw [hrid', hrid, hxx.repository]
  · exact hrr.enrollment

/-- **A step keeps leases exclusive.** -/
theorem Sys.Step.exclusive (hσ : σ.Reachable) (hx : Exclusive σ.store l.1) (h : Sys.Step σ l τ) :
    Exclusive τ.store l.1 := by
  have hk : Keys τ.store := (h.evolves hσ.keys).keys hσ.keys
  have hstep := h.gradeStep hσ.keys hσ.inv.owned hσ.finals
  obtain ⟨p, owner, hbusy⟩ := hstep.busy hσ.keys
  have hgrade : ∀ t ∈ τ.store.tasks, Runs.busy l.1 t = true →
      WasBusy σ.store l.1 t ∨ Begins σ.store l.1 owner p t :=
    fun t ht hb => hbusy t (mem_gradeTasks.mpr ⟨ht, (busy_spec.mp hb).1⟩) hb
  -- the enrollments of busy tasks are what they were
  have henrolled : ∀ t ∈ τ.store.tasks, Runs.busy l.1 t = true → ∃ enrollment,
      Runs.enrollmentOfRun σ.store t.subject = some enrollment ∧
        Runs.enrollmentOfRun τ.store t.subject = some enrollment := by
    intro t ht hb
    have hrun : ∃ g ∈ σ.store.runs, g.id = t.subject := by
      rcases hgrade t ht hb with ⟨u, hu, _, hsub, _⟩ | hbegins
      · rw [← hsub]
        exact hσ.inv.owned u hu
      · rw [← hbegins.subject]
        exact hσ.inv.owned p hbegins.mem
    obtain ⟨g, hg, hid⟩ := hrun
    rw [← hid]
    exact h.enrollmentOfRun hσ hg
  have hpair : ∀ t ∈ τ.store.tasks, ∀ u ∈ τ.store.tasks, Runs.busy l.1 t = true →
      Runs.busy l.1 u = true → Shares σ.store t u → t = u := by
    intro t ht u hu hbt hbu hshares
    obtain ⟨_, het, _⟩ := henrolled t ht hbt
    obtain ⟨_, heu, _⟩ := henrolled u hu hbu
    refine hk.tasks.eq ht hu ?_
    rcases hgrade t ht hbt with hwt | hnt <;> rcases hgrade u hu hbu with hwu | hnu
    · obtain ⟨v, hv, hvid, hvsub, hvowner, hvbusy⟩ := hwt
      obtain ⟨w, hw, hwid, hwsub, hwowner, hwbusy⟩ := hwu
      have hvw : v = w := by
        refine hx.eq (mem_gradeTasks.mp hv).1 (mem_gradeTasks.mp hw).1 hvbusy hwbusy ?_
        rw [Shares, hvowner, hwowner, hvsub, hwsub]
        exact hshares
      rw [← hvid, ← hwid, hvw]
    · exact absurd hshares (hnu.not_shares hwt (by rw [het]; rfl))
    · exact absurd (hshares.imp Eq.symm Eq.symm) (hnt.not_shares hwu (by rw [heu]; rfl))
    · rw [← hnt.id, ← hnu.id]
  refine ⟨fun t ht u hu hbt hbu howner => hpair t ht u hu hbt hbu (Or.inl howner), ?_⟩
  intro t ht u hu hbt hbu henroll
  obtain ⟨_, het, heτ⟩ := henrolled t ht hbt
  obtain ⟨_, heu, huτ⟩ := henrolled u hu hbu
  refine hpair t ht u hu hbt hbu (Or.inr ?_)
  rw [het, heu, ← heτ, ← huτ]
  exact henroll

theorem Sys.Reachable.exclusive (h : σ.Reachable) : Exclusive σ.store σ.clock := by
  refine Transition.Reachable.invariant (I := fun σ => Exclusive σ.store σ.clock)
    (fun σ h0 => ?_) ?_ h
  · have hno : ∀ t ∈ σ.store.tasks, Runs.busy σ.clock t = true → False := by
      intro t ht hbusy
      have hkind := (busy_spec.mp hbusy).1
      rw [h0.tasks t ht] at hkind
      cases hkind
    exact ⟨fun t ht _ _ hbusy => (hno t ht hbusy).elim, fun t ht _ _ hbusy => (hno t ht hbusy).elim⟩
  · intro σ l τ hσ hx hst
    have hlater : Exclusive σ.store l.1 := hx.of_le hst.1
    have hclock : τ.clock = l.1 := by
      obtain ⟨_, _, rfl⟩ := hst
      rfl
    rw [hclock]
    exact Sys.Step.exclusive hσ hlater hst

/-- A heartbeat leaves a lease that ran out as it is. -/
theorem Sys.heartbeat_expired {task token : Uuid} {owner : String} {t : TaskRow}
    (ht : t ∈ σ.store.tasks) (hout : t.live now = false) :
    t ∈ (σ.perform now (.store (.heartbeat task token owner))).store.tasks := by
  simp only [Sys.perform, StoreOp.exec]
  split
  · rename_i s' hs'
    simp only [Queue.heartbeat, bind_ok, pure_ok] at hs'
    obtain ⟨_, _, rfl⟩ := hs'
    refine mem_updateWhere_of_neg ht ?_
    rw [Queue.holds, hout, Bool.and_false, Bool.false_and]
  · exact ht

/-- **Leases are exclusive**: at any time in any reachable state two live leases of
grade tasks have different workers and different enrollments; and a heartbeat
revives no lease that ran out. -/
theorem Sys.leases_exclusive (hσ : σ.Reachable) (hnow : σ.clock ≤ now) :
    Exclusive σ.store now ∧
      ∀ task token owner, ∀ t ∈ σ.store.tasks, t.live now = false →
        t ∈ (σ.perform now (.store (.heartbeat task token owner))).store.tasks :=
  ⟨hσ.exclusive.of_le hnow, fun _ _ _ _ ht hout => Sys.heartbeat_expired ht hout⟩

end Runs

namespace Sample

attribute [local instance] Sha256.standard

/-- Submission 21 is queued and leased, and its worker is silent from then on. -/
def silent : List (Time × Op) :=
  captured ++ [(second 11, close 40), (second 12, enqueue 50 21 false), (second 13, leaseAs 100)]

/-- After the lease ran out the worker's heartbeat does not bring it back. -/
theorem leases_exclusive_silent : ∃ σ, start.play silent = some σ ∧
    Exclusive σ.store (second 140) ∧ ∃ t ∈ σ.store.tasks, t.leaseToken = some 100 ∧
      t ∈ (σ.perform (second 140) (.store (.heartbeat t.id 100 "worker"))).store.tasks := by
  have key : (start.play silent).any (fun σ => decide (σ.clock ≤ second 140) &&
      σ.store.tasks.any fun t =>
        decide (t.leaseToken = some 100) && decide (t.live (second 140) = false)) = true := by
    decide +kernel
  obtain ⟨σ, hσ, hkey⟩ := Option.any_eq_true _ _ |>.mp key
  simp only [Bool.and_eq_true, List.any_eq_true, decide_eq_true_eq] at hkey
  obtain ⟨hclock, t, ht, htoken, hout⟩ := hkey
  have hreach : Sys.Reachable σ := ⟨start, _, initial, Sys.run_of_play hσ⟩
  obtain ⟨hx, hbeat⟩ := Sys.leases_exclusive hreach hclock
  exact ⟨σ, hσ, hx, t, ht, htoken, hbeat t.id 100 "worker" t ht hout⟩

end Sample

end Grading

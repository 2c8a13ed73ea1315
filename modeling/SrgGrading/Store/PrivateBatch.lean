import Mathlib.Data.List.Sort
import SrgGrading.Store.System

/-!
# Private grading of a whole exercise

`enqueue_private` takes the repositories of an exercise one after another, each in
transactions of its own.  An error ends the loop; what was committed before it
stays.

* `Added`: what a call adds to the runs, the grade tasks and the audit events.
* `enqueuePrivateTurn_added`: a turn adds a run, its task and its event together,
  and nothing if it fails.
* `enqueuePrivate_err`: **an error leaves the whole turns before it**, and no more.
-/

open Fallible Relational

namespace Grading

namespace Runs

/-! ### The loop -/

/-- The instant of a transaction and the ids it draws. -/
structure Draw where
  now : Time
  fresh : Nat → Uuid

/-- One turn: the store it leaves, whatever it returns. -/
def enqueuePrivateTurn (s : Store) (draw : Draw × Draw) (operator reason : String)
    (repository : Uuid) : Store × Except Error PrivateOutcome :=
  match Submissions.close s draw.1.now draw.1.fresh repository with
  | .error e => (s, .error e)
  | .ok s =>
    match enqueuePrivateRepository s draw.2.now draw.2.fresh repository operator reason with
    | .error e => (s, .error e)
    | .ok (s, outcome) => (s, .ok outcome)

def enqueuePrivateLoop (operator reason : String) : List (Draw × Draw) → Store → List Uuid →
    Store × Except Error (List PrivateOutcome)
  | draw :: draws, s, repository :: rest =>
    match enqueuePrivateTurn s draw operator reason repository with
    | (s, .error e) => (s, .error e)
    | (s, .ok outcome) =>
      let (s, outcomes) := enqueuePrivateLoop operator reason draws s rest
      (s, outcomes.map fun l => outcome :: l)
  | _, s, _ => (s, .ok [])

/-- The repositories of an exercise, in the order of their ids. -/
def repositoriesOf (s : Store) (course exercise : String) : List Uuid :=
  ((s.repositories.filter fun r => s.assignments.any fun a =>
    a.id = r.assignmentId && a.courseId = course && a.slug = exercise).map
      StudentRepository.id).insertionSort (· ≤ ·)

/-- `grading::enqueue_private`, with the draws of its transactions: the closing and
the queueing of each repository. -/
def enqueuePrivate (s : Store) (draws : Nat → Draw × Draw) (course exercise operator reason : String) :
    Store × Except Error (List PrivateOutcome) :=
  let ids := repositoriesOf s course exercise
  match (do check (!Text.blank reason) "private grading requires a reason"
            check (ids ≠ []) "exercise has no student repositories" : Except Error Unit) with
  | .error e => (s, .error e)
  | .ok () => enqueuePrivateLoop operator reason ((List.range ids.length).map draws) s ids

/-! ### What is added -/

/-- The subjects of the grade tasks. -/
def gradeSubjects (s : Store) : List Uuid :=
  (s.tasks.filter fun t => t.kind = .grade).map TaskRow.subject

/-- The targets of the `grading.private` events. -/
def privateEvents (s : Store) : List String :=
  (s.audit.filter fun a => a.action = "grading.private").map AuditEvent.target

/-- `s'` is `s` with these runs, their grade tasks and their events.  A run whose
task is there already gets no second one. -/
structure Added (s s' : Store) (queued : List Uuid) : Prop where
  runs : s'.runs.map GradingRun.id = s.runs.map GradingRun.id ++ queued
  tasks : ∃ extra, gradeSubjects s' = gradeSubjects s ++ extra ∧ extra.Sublist queued
  all : ∀ run ∈ queued, run ∈ gradeSubjects s'
  events : privateEvents s' = privateEvents s ++ queued.map fun run => String.ofList run.text

theorem Added.refl (s : Store) : Added s s [] :=
  ⟨(List.append_nil _).symm, ⟨[], (List.append_nil _).symm, .slnil⟩, fun _ h => (by cases h),
    (List.append_nil _).symm⟩

theorem Added.trans {s t u : Store} {q r : List Uuid} (h : Added s t q) (h' : Added t u r) :
    Added s u (q ++ r) := by
  obtain ⟨extra, hextra, hsub⟩ := h.tasks
  obtain ⟨more, hmore, hsub'⟩ := h'.tasks
  refine ⟨?_, ⟨extra ++ more, ?_, hsub.append hsub'⟩, fun run hrun => ?_, ?_⟩
  · rw [h'.runs, h.runs, List.append_assoc]
  · rw [hmore, hextra, List.append_assoc]
  · rcases List.mem_append.mp hrun with hq | hr
    · rw [hmore]
      exact List.mem_append_left _ (h.all run hq)
    · exact h'.all run hr
  · rw [h'.events, h.events, List.map_append, List.append_assoc]

/-- The run an outcome reports as queued. -/
def PrivateOutcome.queued (o : PrivateOutcome) : List Uuid :=
  if o.text = "Queued private grading" then o.run.toList else []

theorem gradeSubjects_updateTasks {s : Store} {p : TaskRow → Bool} {f : TaskRow → TaskRow}
    (hf : ∀ t, (f t).kind = t.kind ∧ (f t).subject = t.subject) :
    gradeSubjects (s.updateTasks p f) = gradeSubjects s := by
  change ((updateWhere p f s.tasks).filter _).map _ = (s.tasks.filter _).map _
  induction s.tasks with
  | nil => rfl
  | cons t rest ih =>
    have hkind : (if p t then f t else t).kind = t.kind ∧
        (if p t then f t else t).subject = t.subject := by
      split
      · exact hf t
      · exact ⟨rfl, rfl⟩
    rw [updateWhere, List.map_cons, ← updateWhere, List.filter_cons, List.filter_cons, hkind.1]
    split
    · rw [List.map_cons, List.map_cons, ih, hkind.2]
    · exact ih

/-- The closing of a repository adds none. -/
theorem close_added {s s' : Store} {now : Time} {fresh : Nat → Uuid} {repository : Uuid}
    (h : Submissions.close s now fresh repository = .ok s') : Added s s' [] := by
  have hfreeze : (Submissions.freeze s now repository).runs = s.runs ∧
      (Submissions.freeze s now repository).audit = s.audit ∧
      gradeSubjects (Submissions.freeze s now repository) = gradeSubjects s := by
    rw [Submissions.freeze]
    split
    · exact ⟨rfl, rfl, gradeSubjects_updateTasks fun _ => ⟨rfl, rfl⟩⟩
    · exact ⟨rfl, rfl, rfl⟩
  have hlock : ∀ {t t' : Store} {id : Uuid}, Submissions.enqueueLock t now id repository = .ok t' →
      t'.runs = t.runs ∧ t'.audit = t.audit ∧ gradeSubjects t' = gradeSubjects t := by
    intro t t' id hl
    simp only [Submissions.enqueueLock, Queue.enqueue, bind_ok, pure_ok] at hl
    obtain ⟨u, hu, rfl⟩ := hl
    have hsame : u.runs = t.runs ∧ u.audit = t.audit ∧ gradeSubjects u = gradeSubjects t := by
      split at hu
      · rw [pure_ok] at hu
        rw [hu]
        exact ⟨rfl, rfl, rfl⟩
      · simp only [bind_ok, pure_ok] at hu
        obtain ⟨_, _, rfl⟩ := hu
        refine ⟨rfl, rfl, ?_⟩
        rw [gradeSubjects, List.filter_append, List.map_append]
        exact List.append_nil _
    refine ⟨hsame.1, hsame.2.1, Eq.trans ?_ hsame.2.2⟩
    apply gradeSubjects_updateTasks
    exact fun _ => ⟨rfl, rfl⟩
  have hsum : s'.runs = s.runs ∧ s'.audit = s.audit ∧ gradeSubjects s' = gradeSubjects s := by
    simp only [Submissions.close, bind_ok] at h
    obtain ⟨p, _, h⟩ := h
    split at h
    · have hl := hlock h
      split at hl
      · exact ⟨hl.1.trans hfreeze.1, hl.2.1.trans hfreeze.2.1, hl.2.2.trans hfreeze.2.2⟩
      · exact hl
    · rw [pure_ok] at h
      rw [← h]
      split
      · exact hfreeze
      · exact ⟨rfl, rfl, rfl⟩
  refine ⟨by rw [hsum.1, List.append_nil], ⟨[], by rw [hsum.2.2, List.append_nil], .slnil⟩,
    fun _ hr => (by cases hr), ?_⟩
  rw [privateEvents, hsum.2.1]
  exact (List.append_nil _).symm

/-- A private run is added with its task. -/
theorem insertPrivate_added {s s' : Store} {now : Time} {fresh : Nat → Uuid}
    {submission baseline run : Uuid} {revision : String} {attempt : Int}
    (h : insertPrivate s now fresh submission revision attempt baseline = .ok (s', run)) :
    s'.runs.map GradingRun.id = s.runs.map GradingRun.id ++ [run] ∧
      (∃ extra, gradeSubjects s' = gradeSubjects s ++ extra ∧ extra.Sublist [run]) ∧
      run ∈ gradeSubjects s' ∧ s'.audit = s.audit := by
  simp only [insertPrivate, insertRun, Queue.enqueue, bind_ok, pure_ok, Prod.mk.injEq] at h
  obtain ⟨s₁, ⟨_, _, _, _, _, _, rfl⟩, s₂, hs₂, rfl, rfl⟩ := h
  split at hs₂
  · rename_i hthere
    rw [pure_ok] at hs₂
    subst hs₂
    refine ⟨List.map_append, ⟨[], (List.append_nil _).symm, List.nil_sublist _⟩, ?_, rfl⟩
    rw [Store.hasTask, List.any_eq_true] at hthere
    obtain ⟨t, ht, hmatch⟩ := hthere
    rw [Bool.and_eq_true, decide_eq_true_eq, decide_eq_true_eq] at hmatch
    exact List.mem_map.mpr ⟨t, List.mem_filter.mpr ⟨ht, decide_eq_true hmatch.1⟩, hmatch.2⟩
  · simp only [bind_ok, pure_ok] at hs₂
    obtain ⟨_, _, rfl⟩ := hs₂
    have hsubjects : ∀ {t t' : Store} (row : TaskRow), t'.tasks = t.tasks ++ [row] →
        row.kind = .grade → gradeSubjects t' = gradeSubjects t ++ [row.subject] := by
      intro t t' row htasks hkind
      rw [gradeSubjects, htasks, List.filter_append, List.map_append, List.filter_cons,
        if_pos (decide_eq_true hkind)]
      rfl
    refine ⟨List.map_append, ⟨[fresh 0], hsubjects (.new (fresh 1) .grade (fresh 0) 100 now) rfl rfl,
      .refl _⟩, ?_, rfl⟩
    refine List.mem_map.mpr ⟨_, List.mem_filter.mpr ⟨List.mem_append_right _
      List.mem_cons_self, ?_⟩, rfl⟩
    exact decide_eq_true rfl

/-- **The transaction of a repository adds a run, its task and its event, or
nothing**, as it reports. -/
theorem enqueuePrivateRepository_added {s s' : Store} {now : Time} {fresh : Nat → Uuid}
    {repository : Uuid} {operator reason : String} {o : PrivateOutcome}
    (h : enqueuePrivateRepository s now fresh repository operator reason = .ok (s', o)) :
    Added s s' o.queued ∧ o.repository = repository := by
  have hskip : ∀ {o : PrivateOutcome}, o.text ≠ "Queued private grading" →
      o.repository = repository → Added s s o.queued ∧ o.repository = repository := by
    intro o htext hrepository
    rw [PrivateOutcome.queued, if_neg htext]
    exact ⟨.refl s, hrepository⟩
  simp only [enqueuePrivateRepository, bind_ok] at h
  obtain ⟨p, _, h⟩ := h
  split at h
  · rw [pure_ok, Prod.mk.injEq] at h
    obtain ⟨rfl, rfl⟩ := h
    refine hskip ?_ rfl
    dsimp only
    split <;> decide
  · split at h
    · rw [pure_ok, Prod.mk.injEq] at h
      obtain ⟨rfl, rfl⟩ := h
      exact hskip (by dsimp only; decide) rfl
    · simp only [bind_ok] at h
      obtain ⟨v, _, definition, _, _, _, h⟩ := h
      split at h
      · rw [pure_ok, Prod.mk.injEq] at h
        obtain ⟨rfl, rfl⟩ := h
        exact hskip (by dsimp only; decide) rfl
      · simp only [bind_ok, pure_ok, Prod.mk.injEq] at h
        obtain ⟨attempt, _, ⟨s₁, run⟩, h₁, rfl, rfl⟩ := h
        obtain ⟨hruns, htasks, hall, haudit⟩ := insertPrivate_added h₁
        refine ⟨⟨hruns, htasks, fun r hr => ?_, ?_⟩, rfl⟩
        · rw [List.mem_singleton.mp hr]
          exact hall
        · rw [privateEvents, Store.auditEvent, List.filter_append, List.map_append, haudit]
          rfl

/-- **A turn that fails adds nothing**; one that does not adds what it reports. -/
theorem enqueuePrivateTurn_added {s s' : Store} {draw : Draw × Draw} {operator reason : String}
    {repository : Uuid} {r : Except Error PrivateOutcome}
    (h : enqueuePrivateTurn s draw operator reason repository = (s', r)) :
    match r with
    | .ok o => Added s s' o.queued ∧ o.repository = repository
    | .error _ => Added s s' [] := by
  rw [enqueuePrivateTurn] at h
  split at h
  · cases h
    exact .refl s
  · rename_i s₁ hclose
    have hclosed := close_added hclose
    split at h
    · cases h
      exact hclosed
    · rename_i s₂ o hqueue
      cases h
      have hadded := enqueuePrivateRepository_added hqueue
      exact ⟨hclosed.trans hadded.1, hadded.2⟩

/-- The loop over repositories of which none failed. -/
theorem enqueuePrivateLoop_ok {operator reason : String} {ids : List Uuid} :
    ∀ {draws : List (Draw × Draw)} {s s' : Store} {l : List PrivateOutcome},
    draws.length = ids.length →
    enqueuePrivateLoop operator reason draws s ids = (s', .ok l) →
    Added s s' (l.flatMap PrivateOutcome.queued) ∧ l.map PrivateOutcome.repository = ids := by
  induction ids with
  | nil =>
    intro draws s s' l hlen h
    rw [List.length_eq_zero_iff.mp hlen, enqueuePrivateLoop] at h
    · cases h
      exact ⟨.refl s, rfl⟩
    · exact fun _ _ _ _ => (by intro h; cases h)
  | cons repository rest ih =>
    intro draws s s' l hlen h
    cases draws with
    | nil => cases hlen
    | cons draw draws =>
      rw [enqueuePrivateLoop] at h
      split at h
      · cases h
      · rename_i s₁ outcome hturn
        obtain ⟨s₂, r, hrest⟩ : ∃ s₂ r, enqueuePrivateLoop operator reason draws s₁ rest = (s₂, r) :=
          ⟨_, _, rfl⟩
        rw [hrest] at h
        cases r with
        | error e => cases h
        | ok outcomes =>
          cases h
          have hfirst := enqueuePrivateTurn_added hturn
          have hothers := ih (Nat.succ_inj.mp hlen) hrest
          refine ⟨?_, ?_⟩
          · rw [List.flatMap_cons]
            exact hfirst.1.trans hothers.1
          · rw [List.map_cons, hfirst.2, hothers.2]

/-- A loop that failed: the turns before the failing one, which added nothing. -/
structure Stopped (operator reason : String) (draws : List (Draw × Draw)) (s s' : Store)
    (ids : List Uuid) (e : Error) where
  before : List Uuid
  failing : Uuid
  after : List Uuid
  ids_eq : ids = before ++ failing :: after
  reached : Store
  outcomes : List PrivateOutcome
  loop : enqueuePrivateLoop operator reason (draws.take before.length) s before =
    (reached, .ok outcomes)
  turn : ∃ draw, enqueuePrivateTurn reached draw operator reason failing = (s', .error e)

theorem enqueuePrivateLoop_err {operator reason : String} {e : Error} {ids : List Uuid} :
    ∀ {draws : List (Draw × Draw)} {s s' : Store},
    enqueuePrivateLoop operator reason draws s ids = (s', .error e) →
    Nonempty (Stopped operator reason draws s s' ids e) := by
  induction ids with
  | nil =>
    intro draws s s' h
    rw [enqueuePrivateLoop] at h
    · cases h
    · exact fun _ _ _ _ _ h => (by cases h)
  | cons repository rest ih =>
    intro draws s s' h
    cases draws with
    | nil =>
      rw [enqueuePrivateLoop] at h
      · cases h
      · exact fun _ _ _ _ h => (by cases h)
    | cons draw draws =>
      rw [enqueuePrivateLoop] at h
      split at h
      · rename_i s₁ e' hturn
        cases h
        exact ⟨⟨[], repository, rest, rfl, s, [], rfl, draw, hturn⟩⟩
      · rename_i s₁ outcome hturn
        obtain ⟨s₂, r, hrest⟩ : ∃ s₂ r, enqueuePrivateLoop operator reason draws s₁ rest = (s₂, r) :=
          ⟨_, _, rfl⟩
        rw [hrest] at h
        cases r with
        | ok outcomes => cases h
        | error e' =>
          cases h
          obtain ⟨⟨before, failing, after, hids, reached, outcomes, hloop, hfail⟩⟩ := ih hrest
          refine ⟨⟨repository :: before, failing, after, by rw [hids]; rfl, reached,
            outcome :: outcomes, ?_, hfail⟩⟩
          rw [List.length_cons, List.take_succ_cons, enqueuePrivateLoop, hturn]
          simp only [hloop]
          rfl

/-- **An error leaves the whole turns before it.**  Either the call was refused, or
each repository before the failing one was skipped, or got its run, its task and its
event; no other repository got any. -/
theorem enqueuePrivate_err {s s' : Store} {draws : Nat → Draw × Draw}
    {course exercise operator reason : String} {e : Error}
    (h : enqueuePrivate s draws course exercise operator reason = (s', .error e)) :
    s' = s ∨ ∃ (before after : List Uuid) (failing : Uuid) (reached : Store)
        (outcomes : List PrivateOutcome),
      repositoriesOf s course exercise = before ++ failing :: after ∧
      enqueuePrivateLoop operator reason ((List.range before.length).map draws) s before =
        (reached, .ok outcomes) ∧
      (∃ draw, enqueuePrivateTurn reached draw operator reason failing = (s', .error e)) ∧
      outcomes.map PrivateOutcome.repository = before ∧
      Added s s' (outcomes.flatMap PrivateOutcome.queued) := by
  rw [enqueuePrivate] at h
  split at h
  · cases h
    exact Or.inl rfl
  · obtain ⟨⟨before, failing, after, hids, reached, outcomes, hloop, draw, hturn⟩⟩ :=
      enqueuePrivateLoop_err h
    have hdraws : ((List.range (repositoriesOf s course exercise).length).map draws).take
        before.length = (List.range before.length).map draws := by
      rw [← List.map_take, List.take_range, hids, List.length_append, Nat.min_eq_left (by omega)]
    rw [hdraws] at hloop
    obtain ⟨hadded, hrepositories⟩ := enqueuePrivateLoop_ok (by simp) hloop
    have hlast := enqueuePrivateTurn_added hturn
    refine Or.inr ⟨before, after, failing, reached, outcomes, hids, hloop, ⟨draw, hturn⟩,
      hrepositories, ?_⟩
    have htotal := hadded.trans hlast
    rwa [List.append_nil] at htotal

end Runs

namespace Sample

/-- `revision` without its private command. -/
def publicRevision : Revision :=
  { revision with grader := some { grader with workflow := some ⟨["/grade"], none⟩ } }

/-- The digest of `publicRevision`. -/
def publicDigest : String := "724afd5573c7694b42224ab27bd46ced14ad14c1fd1898895a4ce3cafd35c705"

/-- A closed repository with a final submission. -/
def closedRepository (id enrollment submission : Uuid) (digest : String) : StudentRepository :=
  { repository with
    id, enrollmentId := enrollment, revisionDigest := digest, gradingRevision := digest
    closureDue := true, finalSubmissionId := some submission }

/-- A final submission and its completed public run. -/
def finalSubmission (id repository event : Uuid) : Submission :=
  { id, repositoryId := repository, eventId := event
    sha := "aaaaaaaaaaaaaaaaaaaaaaaaaaaaaaaaaaaaaaaa", receivedAt := nanosPerSecond
    sourceDigest := grader.sourceDigest }

def completedRun (id submission : Uuid) (digest : String) : GradingRun :=
  { Runs.newRun id submission digest 1 .completed none with points := some 5 }

/-- Two closed repositories of one exercise; the revision of the second has no
private command. -/
def mixed : Store :=
  { start.store with
    enrollments := [⟨1, "prog", 7, "student", "Student"⟩, ⟨5, "prog", 8, "other", "Other"⟩]
    revisions := [revisionRow, { revisionRow with digest := publicDigest, definition := publicRevision }]
    repositories := [closedRepository 3 1 10 revisionDigest, closedRepository 4 5 11 publicDigest]
    artifacts := grader.sourceDigest.toList.map fun d => ⟨d, 1, "source"⟩
    submissions := [finalSubmission 10 3 30, finalSubmission 11 4 31]
    runs := [completedRun 20 10 revisionDigest, completedRun 21 11 publicDigest] }

def draws (k : Nat) : Runs.Draw × Runs.Draw :=
  (⟨11 * nanosPerSecond, fun n => Fin.ofNat _ (100 * k + 100 + n)⟩,
    ⟨11 * nanosPerSecond, fun n => Fin.ofNat _ (100 * k + 150 + n)⟩)

/-- What a call leaves and returns. -/
def mixedCall : Store × Except Error (List Runs.PrivateOutcome) :=
  Runs.enqueuePrivate mixed draws "prog" "loops" "operator" "more tests"

theorem mixedCall_ran : mixedCall.2.isOk = false ∧
    mixedCall.1.runs.map GradingRun.id = [20, 21, 150] ∧
    Runs.gradeSubjects mixedCall.1 = [150] ∧ (Runs.privateEvents mixedCall.1).length = 1 := by
  decide +kernel

/-- **A call that returns an error has queued the first repository.** -/
theorem enqueuePrivate_partial : ∃ s e,
    Runs.enqueuePrivate mixed draws "prog" "loops" "operator" "more tests" = (s, .error e) ∧
    s.runs.map GradingRun.id = mixed.runs.map GradingRun.id ++ [150] ∧
    Runs.gradeSubjects s = Runs.gradeSubjects mixed ++ [150] ∧
    (Runs.privateEvents s).length = (Runs.privateEvents mixed).length + 1 := by
  obtain ⟨hfailed, hruns, htasks, hevents⟩ := mixedCall_ran
  change mixedCall.2.isOk = false at hfailed
  cases hcall : mixedCall with
  | mk s r =>
    rw [hcall] at hfailed hruns htasks hevents
    cases r with
    | ok l => cases hfailed
    | error e => exact ⟨s, e, hcall, hruns, htasks, hevents⟩

/-- The first repository was queued, the second failed. -/
theorem enqueuePrivate_err_mixed : ∃ (s : Store) (before after : List Uuid) (failing : Uuid)
    (outcomes : List Runs.PrivateOutcome),
    Runs.repositoriesOf mixed "prog" "loops" = before ++ failing :: after ∧
    outcomes.map Runs.PrivateOutcome.repository = before ∧
    Runs.Added mixed s (outcomes.flatMap Runs.PrivateOutcome.queued) := by
  obtain ⟨hfailed, hruns, _⟩ := mixedCall_ran
  cases hcall : mixedCall with
  | mk s r =>
    rw [hcall] at hfailed hruns
    cases r with
    | ok l => cases hfailed
    | error e =>
      rcases Runs.enqueuePrivate_err hcall with rfl | ⟨before, after, failing, _, outcomes, hids,
        _, _, hbefore, hadded⟩
      · cases hruns
      · exact ⟨s, before, after, failing, outcomes, hids, hbefore, hadded⟩

end Sample

end Grading

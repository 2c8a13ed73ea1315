import SrgGrading.Store.GradeSteps

/-!
# The life of a run

What a run and its grade task can be together is a small machine of its own:
queued, leased, recorded, failed, displaced and revived.  `Life` are its
transitions, and every step of the system takes each run through at most one of
them.

* `GradeStep.life`: the simulation.
* `RunInv.life`: what a run and its task keep, and `Born.runInv` where they begin.
-/

open Fallible Relational

namespace Grading

/-- The task that grades a run. -/
def Store.taskOf (s : Store) (run : Uuid) : Option TaskRow :=
  lookup TaskRow.subject run s.gradeTasks

/-! ### The task of a run -/

section TaskOf
variable {s s' : Store} {run : Uuid}

theorem Keys.gradeSubjects (hk : Keys s) : Keyed TaskRow.subject s.gradeTasks := by
  have hkeys : (s.gradeTasks.map TaskRow.dedupKey).Nodup :=
    (List.filter_sublist.map TaskRow.dedupKey).nodup hk.taskKeys
  have hpair : s.gradeTasks.map TaskRow.dedupKey =
      (s.gradeTasks.map TaskRow.subject).map fun id => (TaskKind.grade, id) := by
    rw [List.map_map]
    refine List.map_congr_left fun t ht => ?_
    rw [TaskRow.dedupKey, (mem_gradeTasks.mp ht).2]
    rfl
  rw [hpair] at hkeys
  exact List.Nodup.of_map _ hkeys

theorem Keys.taskOf (hk : Keys s) {t : TaskRow} :
    s.taskOf run = some t ↔ t ∈ s.gradeTasks ∧ t.subject = run :=
  lookup_eq_some hk.gradeSubjects

end TaskOf

/-! ### The machine -/

/-- A task as it was but for its place in the queue and the end of its lease. -/
structure SameHold (t t' : TaskRow) : Prop where
  id : t'.id = t.id
  status : t'.status = t.status
  owner : t'.leaseOwner = t.leaseOwner
  token : t'.leaseToken = t.leaseToken
  until_ : t.leaseUntil.isSome = true → t'.leaseUntil.isSome = true

/-- What a step of the system does to one run and its task. -/
inductive Life [Sha256] (calls : List Runs.AcceptCall) (now : Time) (op : Op) (s : Store) :
    GradingRun → Option TaskRow → GradingRun → Option TaskRow → Prop
  | stay (g : GradingRun) (ot : Option TaskRow) : Life calls now op s g ot g ot
  | touch (g : GradingRun) (t t' : TaskRow) (hsame : SameHold t t') :
      Life calls now op s g (some t) g (some t')
  | revive (g : GradingRun) (t : TaskRow) (hstatus : t.status = .failed ∨ t.status = .cancelled)
      (hopen : ∃ x ∈ s.submissions, x.id = g.submissionId ∧
        ∃ r ∈ s.repositories, r.id = x.repositoryId ∧ r.closureDue = false) :
      Life calls now op s g (some t) g (some { t with
        priority := 100, status := .pending, attempts := 0, availableAt := now })
  | expire (g : GradingRun) (t : TaskRow) (hleased : t.status = .leased) :
      Life calls now op s g (some t) g
        (some { t with status := .failed, lastError := some "retry budget exhausted" })
  | lease (g : GradingRun) (t : TaskRow) (owner : String) (token : Uuid)
      (hready : t.ready now = true) :
      Life calls now op s g (some t) { g with status := .running }
        (some (t.leaseTo owner token now))
  | record (g : GradingRun) (t : TaskRow) (call : Runs.AcceptCall)
      (hrec : recording calls s now op = some call)
      (hrun : g.id = call.result.runId) (hid : t.id = call.task)
      (htoken : t.leaseToken = some call.result.leaseToken)
      (howner : t.leaseOwner = some call.worker.id) (hleased : t.status = .leased)
      (hlive : t.live now = true) :
      Life calls now op s g (some t) (Runs.recordResult call g) (some { t with status := .done })
  | fail (g : GradingRun) (t : TaskRow) (hrun : g.status = .pending ∨ g.status = .running)
      (hfailed : t.status = .failed) :
      Life calls now op s g (some t) { g with status := .infrastructureFailed } (some t)
  | displace (g : GradingRun) (t : TaskRow) (r : StudentRepository) (submission : Uuid)
      (regrade : Bool) (hop : ∃ fresh, op = .store (.enqueueRun fresh submission regrade))
      (hqueues : Queues s submission regrade r) (hpublic : g.publicRunId = none)
      (hdisplaced : Runs.displaced s r.id submission t = true) (hpending : t.status = .pending) :
      Life calls now op s g (some t)
        (if g.status = .pending then { g with status := .superseded } else g)
        (some { t with status := .cancelled })
  | supersede (g : GradingRun) (t : TaskRow) (hrun : g.status = .pending)
      (hcancelled : t.status = .cancelled) :
      Life calls now op s g (some t) { g with status := .superseded } (some t)

/-- How a run comes into being. -/
structure Born (s : Store) (g : GradingRun) (ot : Option TaskRow) : Prop where
  new : NewRun s g
  kind : g.publicRunId = none ∨ ∃ b, PrivateRun s g b
  task : (g.status = .superseded ∧ g.publicRunId = none ∧ ot = none) ∨
    (g.status = .pending ∧ ∃ t, ot = some t ∧ t.status = .pending)

/-- The task of every call of `accept` in flight grades the run of its result. -/
def OwnTasks (s : Store) (calls : List Runs.AcceptCall) : Prop :=
  ∀ call ∈ calls, ∃ t ∈ s.gradeTasks, t.id = call.task ∧ t.subject = call.result.runId

/-- Every run goes through a transition of its life, or comes into being. -/
def Lives [Sha256] (calls : List Runs.AcceptCall) (now : Time) (op : Op) (s s' : Store) : Prop :=
  ∀ g' ∈ s'.runs, (∃ g ∈ s.runs, g.id = g'.id ∧
    Life calls now op s g (s.taskOf g.id) g' (s'.taskOf g.id)) ∨ Born s g' (s'.taskOf g'.id)

section Simulation
variable [Sha256] {calls : List Runs.AcceptCall} {now : Time} {op : Op} {s s' : Store}

/-- Updates of the runs and of the tasks and insertions, seen by one run. -/
theorem life_of_updates (hk : Keys s) {pr : GradingRun → Bool} {fr : GradingRun → GradingRun}
    {pt : TaskRow → Bool} {ft : TaskRow → TaskRow} {gs : List GradingRun} {ts : List TaskRow}
    (runs : s'.runs = updateWhere pr fr s.runs ++ gs)
    (tasks : s'.gradeTasks = updateWhere pt ft s.gradeTasks ++ ts)
    (hfr : ∀ g, (fr g).id = g.id) (hft : ∀ t, (ft t).subject = t.subject)
    (hts : ∀ t ∈ ts, ∀ g ∈ s.runs, t.subject ≠ g.id)
    (hborn : ∀ g ∈ gs, Born s g (s'.taskOf g.id))
    (hnone : ∀ g ∈ s.runs, (∀ t ∈ s.gradeTasks, t.subject ≠ g.id) →
      Life calls now op s g none (if pr g then fr g else g) none)
    (hsome : ∀ g ∈ s.runs, ∀ t ∈ s.gradeTasks, t.subject = g.id →
      Life calls now op s g (some t) (if pr g then fr g else g) (some (if pt t then ft t else t))) :
    Lives calls now op s s' := by
  intro g' hg'
  rw [runs] at hg'
  rcases List.mem_append.mp hg' with hold | hnew
  · obtain ⟨g, hg, rfl⟩ := mem_updateWhere.mp hold
    refine Or.inl ⟨g, hg, ?_, ?_⟩
    · split
      · exact (hfr g).symm
      · rfl
    · have htask : s'.taskOf g.id = (s.taskOf g.id).map fun t => if pt t then ft t else t := by
        rw [Store.taskOf, tasks, lookup_append_of_ne fun t ht => hts t ht g hg,
          lookup_updateWhere fun t _ => hft t, Store.taskOf]
      rw [htask]
      cases hot : s.taskOf g.id with
      | none =>
        refine hnone g hg fun t ht hsub => ?_
        rw [hk.taskOf.mpr ⟨ht, hsub⟩] at hot
        cases hot
      | some t =>
        obtain ⟨ht, hsub⟩ := hk.taskOf.mp hot
        exact hsome g hg t ht hsub
  · exact Or.inr (hborn g' hnew)

omit [Sha256] in
/-- The task of a run that is inserted with it. -/
theorem taskOf_born {t : TaskRow} {p : TaskRow → Bool} {f : TaskRow → TaskRow}
    (hown : Owned s) (tasks : s'.gradeTasks = updateWhere p f s.gradeTasks ++ [t])
    (hf : ∀ t, (f t).subject = t.subject) (hnew : ∀ g ∈ s.runs, g.id ≠ t.subject) : s'.taskOf t.subject = some t := by
  rw [Store.taskOf, tasks]
  refine lookup_concat_self fun u hu => ?_
  obtain ⟨v, hv, rfl⟩ := mem_updateWhere.mp hu
  obtain ⟨g, hg, hid⟩ := hown v hv
  intro heq
  refine hnew g hg (hid.trans (Eq.trans ?_ heq))
  split
  · exact (hf v).symm
  · rfl

omit [Sha256] in
/-- A run that is inserted without a task. -/
theorem taskOf_unborn {run : Uuid} (hown : Owned s) (tasks : s'.gradeTasks = s.gradeTasks)
    (hnew : ∀ g ∈ s.runs, g.id ≠ run) : s'.taskOf run = none := by
  rw [Store.taskOf, tasks, lookup, List.find?_eq_none]
  intro t ht hsub
  rw [decide_eq_true_eq] at hsub
  obtain ⟨g, hg, hid⟩ := hown t ht
  exact hnew g hg (hid.trans hsub)

/-- Only grade tasks change. -/
theorem life_of_tasks (hk : Keys s) {p : TaskRow → Bool} {f : TaskRow → TaskRow}
    (runs : s'.runs = s.runs) (tasks : s'.gradeTasks = updateWhere p f s.gradeTasks)
    (hf : ∀ t, (f t).subject = t.subject)
    (hlife : ∀ g ∈ s.runs, ∀ t ∈ s.gradeTasks, t.subject = g.id → p t = true →
      Life calls now op s g (some t) g (some (f t))) : Lives calls now op s s' := by
  have hruns : s'.runs = updateWhere (fun _ => false) id s.runs ++ [] := by
    rw [updateWhere_none, List.append_nil, runs]
  refine life_of_updates hk hruns (tasks.trans (List.append_nil _).symm) (fun _ => rfl) hf
    (by simp) (by simp) (fun g _ _ => .stay g none) fun g hg t ht hsub => ?_
  rw [if_neg Bool.false_ne_true]
  split
  · rename_i hp
    exact hlife g hg t ht hsub hp
  · exact .stay g (some t)

/-- A run and its task change, and no others. -/
theorem life_of_run (hk : Keys s) {t : TaskRow} {fr : GradingRun → GradingRun}
    {ft : TaskRow → TaskRow} (ht : t ∈ s.gradeTasks)
    (runs : s'.runs = updateWhere (fun g => g.id = t.subject) fr s.runs)
    (tasks : s'.gradeTasks = updateWhere (fun u => u.id = t.id) ft s.gradeTasks)
    (hfr : ∀ g, (fr g).id = g.id) (hft : ∀ t, (ft t).subject = t.subject)
    (hlife : ∀ g, g.id = t.subject → Life calls now op s g (some t) (fr g) (some (ft t))) :
    Lives calls now op s s' := by
  refine life_of_updates hk (runs.trans (List.append_nil _).symm)
    (tasks.trans (List.append_nil _).symm) hfr hft (by simp) (by simp)
    (fun g hg hno => ?_) fun g hg u hu hsub => ?_
  · rw [if_neg (by rw [decide_eq_true_eq]; exact fun h => hno t ht h.symm)]
    exact .stay g none
  · by_cases hgt : g.id = t.subject
    · have hut : u = t := hk.gradeSubjects.eq hu ht (hsub.trans hgt)
      rw [if_pos (decide_eq_true hgt), hut, if_pos (decide_eq_true rfl)]
      exact hlife g hgt
    · have hut : u.id ≠ t.id := by
        intro hid
        rw [hk.tasks.eq (mem_gradeTasks.mp hu).1 (mem_gradeTasks.mp ht).1 hid] at hsub
        exact hgt hsub.symm
      rw [if_neg (by rw [decide_eq_true_eq]; exact hgt),
        if_neg (by rw [decide_eq_true_eq]; exact hut)]
      exact .stay g (some u)

/-- A run is inserted, with a task or without. -/
theorem life_of_insert (hk : Keys s) {g : GradingRun} {ts : List TaskRow}
    (runs : s'.runs = s.runs ++ [g]) (tasks : s'.gradeTasks = s.gradeTasks ++ ts)
    (hts : ∀ t ∈ ts, t.subject = g.id) (hnew : ∀ h ∈ s.runs, h.id ≠ g.id)
    (hborn : Born s g (s'.taskOf g.id)) : Lives calls now op s s' := by
  have hruns : s'.runs = updateWhere (fun _ => false) id s.runs ++ [g] := by
    rw [updateWhere_none, runs]
  have htasks : s'.gradeTasks = updateWhere (fun _ => false) id s.gradeTasks ++ ts := by
    rw [updateWhere_none, tasks]
  refine life_of_updates hk hruns htasks (fun _ => rfl) (fun _ => rfl) (fun t ht h hh heq => ?_)
    (fun h hh => ?_) (fun g _ _ => .stay g none) fun g _ t _ _ => .stay g (some t)
  · exact hnew h hh (heq.symm.trans (hts t ht))
  · rw [List.mem_singleton.mp hh]
    exact hborn

/-- The tasks of the final submission of a repository that is closed are revived. -/
theorem life_revived (hk : Keys s) {r : StudentRepository} {x : Submission}
    (hr : r ∈ s.repositories) (hopen : r.closureDue = false) (hx : x ∈ s.submissions)
    (hrep : x.repositoryId = r.id) {g : GradingRun} (hg : g ∈ s.runs) {t : TaskRow}
    (ht : t ∈ s.gradeTasks) (hsub : t.subject = g.id)
    (hfinal : Submissions.ofFinal s x.id t = true) :
    Life calls now op s g (some t) g (some (Submissions.revive now t)) := by
  -- the task is a grade task, so its run is one of the final submission
  have hgx : x.id = g.submissionId := by
    simp only [Submissions.ofFinal, (mem_gradeTasks.mp ht).2, List.any_eq_true,
      Bool.or_eq_true, Bool.and_eq_true, decide_eq_true_eq] at hfinal
    rcases hfinal with hsnap | ⟨_, h, hh, hid, hsubm⟩
    · cases hsnap.1
    · rw [← hk.runs.eq hh hg (hid.trans hsub)]
      exact hsubm.symm
  by_cases hagain : t.status = .failed ∨ t.status = .cancelled
  · have hrev : Submissions.revive now t = { t with
        priority := 100, status := .pending, attempts := 0, availableAt := now } := by
      rcases hagain with hs | hs <;> simp [Submissions.revive, hs]
    rw [hrev]
    exact .revive g t hagain ⟨x, hx, hgx, r, hr, hrep.symm, hopen⟩
  · refine .touch g t _ ⟨rfl, ?_, rfl, rfl, fun h => h⟩
    rw [not_or] at hagain
    simp [Submissions.revive, hagain.1, hagain.2]

/-- What queueing `g` does to a run that has a task. -/
theorem life_displaced (hk : Keys s) {g : GradingRun} {r : StudentRepository} {regrade : Bool}
    (hop : ∃ fresh, op = .store (.enqueueRun fresh g.submissionId regrade))
    (hqueues : Queues s g.submissionId regrade r) {h : GradingRun} (hh : h ∈ s.runs) {u : TaskRow}
    (hu : u ∈ s.gradeTasks) (hsub : u.subject = h.id) :
    Life calls now op s h (some u)
      (if h.status = .pending && (updateWhere (Runs.displaced s r.id g.submissionId)
          (fun u => { u with status := .cancelled }) s.gradeTasks).any fun u =>
            u.status = .cancelled && u.subject = h.id then
        { h with status := .superseded } else h)
      (some (if Runs.displaced s r.id g.submissionId u then { u with status := .cancelled }
        else u)) := by
  by_cases hd : Runs.displaced s r.id g.submissionId u = true
  · have hany : (updateWhere (Runs.displaced s r.id g.submissionId)
        (fun u => { u with status := .cancelled }) s.gradeTasks).any (fun u =>
          decide (u.status = .cancelled) && decide (u.subject = h.id)) = true :=
      List.any_eq_true.mpr ⟨_, mem_updateWhere_of_pos hu hd, by simp [hsub]⟩
    rw [hany, Bool.and_true, if_pos hd]
    simp only [decide_eq_true_eq]
    have hd' := hd
    simp only [Runs.displaced, Bool.and_eq_true, List.any_eq_true, decide_eq_true_eq] at hd'
    obtain ⟨⟨_, hpending⟩, k, hk', ⟨⟨hkid, _⟩, _⟩, hkpublic⟩ := hd'
    rw [hk.runs.eq hk' hh (hkid.trans hsub), Option.isNone_iff_eq_none] at hkpublic
    exact .displace h u r g.submissionId regrade hop hqueues hkpublic hd hpending
  · rw [if_neg hd]
    split
    · rename_i hcond
      rw [Bool.and_eq_true, decide_eq_true_eq, List.any_eq_true] at hcond
      obtain ⟨hpending, v, hv, hvs⟩ := hcond
      rw [Bool.and_eq_true, decide_eq_true_eq, decide_eq_true_eq] at hvs
      obtain ⟨w, hw, rfl⟩ := mem_updateWhere.mp hv
      -- the cancelled task is the run's own, which was cancelled before
      have hwu : w = u := by
        refine hk.gradeSubjects.eq hw hu (Eq.trans ?_ (hvs.2.trans hsub.symm))
        split <;> rfl
      rw [hwu, if_neg hd] at hvs
      exact .supersede h u hpending hvs.1
    · exact .stay h (some u)

/-- A public run is queued in place of those of other submissions. -/
theorem life_queued (hk : Keys s) (hown : Owned s) {g : GradingRun} {t : TaskRow}
    {r : StudentRepository} {regrade : Bool}
    (hop : ∃ fresh, op = .store (.enqueueRun fresh g.submissionId regrade))
    (hqueues : Queues s g.submissionId regrade r) (hnew : NewRun s g)
    (hpublic : g.publicRunId = none) (hstatus : g.status = .pending)
    (ht : t.subject = g.id ∧ t.status = .pending)
    (runs : s'.runs = updateWhere (fun h => h.status = .pending &&
        (updateWhere (Runs.displaced s r.id g.submissionId)
          (fun u => { u with status := .cancelled }) s.gradeTasks).any fun u =>
            u.status = .cancelled && u.subject = h.id)
      (fun h => { h with status := .superseded }) s.runs ++ [g])
    (tasks : s'.gradeTasks = updateWhere (Runs.displaced s r.id g.submissionId)
      (fun u => { u with status := .cancelled }) s.gradeTasks ++ [t]) :
    Lives calls now op s s' := by
  refine life_of_updates hk runs tasks (fun _ => rfl) (fun _ => rfl) ?_ ?_
    (fun h hh hno => ?_) fun h hh u hu hsub => life_displaced hk hop hqueues hh hu hsub
  · intro u hu h hh heq
    rw [List.mem_singleton.mp hu, ht.1] at heq
    exact hnew.id h hh heq.symm
  · intro h hh
    rw [List.mem_singleton] at hh
    subst hh
    refine ⟨hnew, Or.inl hpublic, Or.inr ⟨hstatus, t, ?_, ht.2⟩⟩
    rw [← ht.1]
    exact taskOf_born hown tasks (fun _ => rfl) (by rw [ht.1]; exact hnew.id)
  · -- a run without a task has no cancelled one
    rw [if_neg]
    · exact .stay h none
    · rw [Bool.and_eq_true, List.any_eq_true]
      rintro ⟨_, v, hv, hvs⟩
      obtain ⟨w, hw, rfl⟩ := mem_updateWhere.mp hv
      rw [Bool.and_eq_true, decide_eq_true_eq, decide_eq_true_eq] at hvs
      refine hno w hw (Eq.trans ?_ hvs.2)
      split <;> rfl

/-- Runs whose task failed are failed. -/
theorem life_failed (hk : Keys s)
    (runs : s'.runs = updateWhere (fun g => (g.status = .pending || g.status = .running) &&
      s.gradeTasks.any fun t => t.status = .failed && t.subject = g.id)
        (fun g => { g with status := .infrastructureFailed }) s.runs)
    (tasks : s'.gradeTasks = s.gradeTasks) : Lives calls now op s s' := by
  have htasks : s'.gradeTasks = updateWhere (fun _ => false) id s.gradeTasks ++ [] := by
    rw [updateWhere_none, List.append_nil, tasks]
  refine life_of_updates hk (runs.trans (List.append_nil _).symm) htasks (fun _ => rfl)
    (fun _ => rfl) (by simp) (by simp) (fun g hg hno => ?_) fun g hg t ht hsub => ?_
  · rw [if_neg]
    · exact .stay g none
    · rw [Bool.and_eq_true, List.any_eq_true]
      rintro ⟨_, t, ht, hts⟩
      rw [Bool.and_eq_true, decide_eq_true_eq, decide_eq_true_eq] at hts
      exact hno t ht hts.2
  · rw [if_neg Bool.false_ne_true]
    split
    · rename_i hcond
      rw [Bool.and_eq_true, Bool.or_eq_true, decide_eq_true_eq, decide_eq_true_eq,
        List.any_eq_true] at hcond
      obtain ⟨hrun, v, hv, hvs⟩ := hcond
      rw [Bool.and_eq_true, decide_eq_true_eq, decide_eq_true_eq] at hvs
      rw [hk.gradeSubjects.eq hv ht (hvs.2.trans hsub.symm)] at hvs
      exact .fail g t hrun hvs.1
    · exact .stay g (some t)

/-- **The simulation**: a step takes each run through a transition of its life,
or the run comes into being. -/
theorem GradeStep.life (hk : Keys s) (hown : Owned s) (hcalls : OwnTasks s calls)
    (h : GradeStep calls now op s s') : Lives calls now op s s' := by
  cases h with
  | idle h =>
    exact life_of_tasks hk h.runs (h.tasks.trans (updateWhere_none id _).symm) (fun _ => rfl)
      fun _ _ _ _ _ hp => by cases hp
  | revived r x hr hopen hx hrep runs tasks =>
    exact life_of_tasks hk runs tasks (fun _ => rfl)
      fun _ hg _ ht hsub hfinal => life_revived hk hr hopen hx hrep hg ht hsub hfinal
  | heartbeat held until_ hheld runs tasks =>
    exact life_of_tasks hk runs tasks (fun _ => rfl)
      fun g _ t _ _ _ => .touch g t _ ⟨rfl, rfl, rfl, rfl, fun _ => rfl⟩
  | expired runs tasks =>
    refine life_of_tasks hk runs tasks (fun _ => rfl) fun g _ t _ _ hexp => ?_
    simp only [Bool.and_eq_true, decide_eq_true_eq] at hexp
    exact .expire g t hexp.1.1
  | leased t owner token ht hready hfree runs tasks =>
    exact life_of_run hk ht runs tasks (fun _ => rfl) (fun _ => rfl)
      fun g _ => .lease g t owner token hready
  | recorded call t hrec ht hid htoken howner hleased hlive runs tasks =>
    obtain ⟨v, hv, hvid, hvsub⟩ := hcalls call (mem_of_recording hrec)
    -- the call's task is the one the transaction found
    have htv : t = v := hk.tasks.eq ht (mem_gradeTasks.mp hv).1 (hid.trans hvid.symm)
    subst htv
    rw [← hvsub] at runs
    rw [← hid] at tasks
    exact life_of_run hk hv runs tasks (fun _ => rfl) (fun _ => rfl) fun g hg =>
      .record g t call hrec (hg.trans hvsub) hid htoken howner hleased hlive
  | skipped g hnew hpublic hstatus runs tasks =>
    exact life_of_insert hk runs (tasks.trans (List.append_nil _).symm) (by simp) hnew.id
      ⟨hnew, Or.inl hpublic, Or.inl ⟨hstatus, hpublic, taskOf_unborn hown tasks hnew.id⟩⟩
  | queued g t r regrade hop hqueues hnew hpublic hstatus ht runs tasks =>
    exact life_queued hk hown hop hqueues hnew hpublic hstatus ht runs tasks
  | queuedPrivate g t baseline hnew hprivate hstatus ht runs tasks =>
    have hborn : s'.taskOf g.id = some t := by
      rw [← ht.1]
      exact taskOf_born (p := fun _ => false) (f := id) hown
        (by rw [updateWhere_none]; exact tasks) (fun _ => rfl) (by rw [ht.1]; exact hnew.id)
    refine life_of_insert hk runs tasks (fun u hu => ?_) hnew.id
      ⟨hnew, Or.inr ⟨baseline, hprivate⟩, Or.inr ⟨hstatus, t, hborn, ht.2⟩⟩
    rw [List.mem_singleton.mp hu]
    exact ht.1
  | failed runs tasks => exact life_failed hk runs tasks

end Simulation

/-! ### What a run and its task keep -/

/-- The status of a run nobody recorded a result for. -/
def RunState.ungraded : RunState → Bool
  | .pending | .running | .infrastructureFailed | .superseded => true
  | _ => false

/-- A run and its task: a pending run has a pending task, and a run has a result
exactly when its task is done. -/
structure RunInv (g : GradingRun) (ot : Option TaskRow) : Prop where
  waiting : g.status = .pending → ∃ t, ot = some t ∧ t.status = .pending
  recorded : g.resultDigest.isSome = true → ∃ t, ot = some t ∧ t.status = .done
  done : ∀ t, ot = some t → t.status = .done → g.resultDigest.isSome = true
  ungraded : g.resultDigest = none → g.status.ungraded = true
  graded : g.resultDigest.isSome = true → ∃ status : RunStatus, g.status = status.state

/-- While the task is not done there is no result. -/
theorem RunInv.unrecorded {g : GradingRun} {t : TaskRow} (h : RunInv g (some t))
    (hne : t.status ≠ .done) : g.resultDigest = none := by
  cases hd : g.resultDigest with
  | none => rfl
  | some d =>
    obtain ⟨u, hu, hdone⟩ := h.recorded (by rw [hd]; rfl)
    rw [Option.some_inj] at hu
    exact absurd (hu ▸ hdone) hne

theorem Born.runInv {s : Store} {g : GradingRun} {ot : Option TaskRow} (h : Born s g ot) :
    RunInv g ot := by
  have hno : g.resultDigest = none := by rw [h.new.ungraded]; rfl
  refine ⟨fun hp => ?_, fun hr => ?_, fun t ht hdone => ?_, fun _ => ?_, fun hr => ?_⟩
  · rcases h.task with ⟨hs, _⟩ | ⟨_, ht⟩
    · rw [hs] at hp
      cases hp
    · exact ht
  · rw [hno] at hr
    cases hr
  · rcases h.task with ⟨_, _, hnone⟩ | ⟨_, u, hu, hpending⟩
    · rw [hnone] at ht
      cases ht
    · rw [hu, Option.some_inj] at ht
      rw [ht, hdone] at hpending
      cases hpending
  · rcases h.task with ⟨hs, _⟩ | ⟨hs, _⟩ <;> rw [hs] <;> rfl
  · rw [hno] at hr
    cases hr

section Invariant
variable {g g' : GradingRun} {ot ot' : Option TaskRow}

/-- A transition that leaves the run without a result, and its task not done. -/
theorem RunInv.of_unrecorded {t : TaskRow} (st : TaskStatus) (hno : g.resultDigest = none)
    (ht : t.status = st) (hne : st ≠ .done) (hwait : g.status = .pending → st = .pending)
    (hstatus : g.status.ungraded = true) : RunInv g (some t) where
  waiting hp := ⟨t, rfl, ht.trans (hwait hp)⟩
  recorded hr := by rw [hno] at hr; cases hr
  done u hu hdone := by
    rw [Option.some_inj] at hu
    exact absurd (ht.symm.trans (hu ▸ hdone)) hne
  ungraded _ := hstatus
  graded hr := by rw [hno] at hr; cases hr

theorem RunStatus.state_ne_pending (status : RunStatus) : status.state ≠ .pending := by
  cases status <;> decide

variable [Sha256] {calls : List Runs.AcceptCall} {now : Time} {op : Op} {s : Store}

theorem RunInv.life (hinv : RunInv g ot) (h : Life calls now op s g ot g' ot') :
    RunInv g' ot' := by
  cases h with
  | stay => exact hinv
  | touch t t' hsame =>
    refine ⟨fun hp => ?_, fun hr => ?_, fun u hu hdone => ?_, hinv.ungraded, hinv.graded⟩
    · obtain ⟨u, hu, hpending⟩ := hinv.waiting hp
      rw [Option.some_inj] at hu
      exact ⟨t', rfl, hsame.status.trans (hu ▸ hpending)⟩
    · obtain ⟨u, hu, hdone⟩ := hinv.recorded hr
      rw [Option.some_inj] at hu
      exact ⟨t', rfl, hsame.status.trans (hu ▸ hdone)⟩
    · rw [Option.some_inj] at hu
      exact hinv.done t rfl (hsame.status.symm.trans (hu ▸ hdone))
  | revive t hstatus hopen =>
    have hno : g.resultDigest = none :=
      hinv.unrecorded (by rcases hstatus with h | h <;> rw [h] <;> decide)
    exact .of_unrecorded .pending hno rfl (by decide) (fun _ => rfl) (hinv.ungraded hno)
  | expire t hleased =>
    have hno : g.resultDigest = none := hinv.unrecorded (by rw [hleased]; decide)
    refine .of_unrecorded .failed hno rfl (by decide) (fun hp => ?_) (hinv.ungraded hno)
    obtain ⟨u, hu, hpending⟩ := hinv.waiting hp
    rw [Option.some_inj] at hu
    rw [← hu, hleased] at hpending
    cases hpending
  | lease t owner token hready =>
    have hne : t.status ≠ .done := by
      intro hdone
      simp [TaskRow.ready, hdone] at hready
    exact .of_unrecorded .leased (hinv.unrecorded hne) rfl (by decide)
      (fun hp => by cases hp) rfl
  | record t call hrec hrun hid htoken howner hleased hlive =>
    refine ⟨fun hp => ?_, fun _ => ⟨_, rfl, rfl⟩, fun _ _ _ => rfl, fun hr => ?_,
      fun _ => ⟨call.result.status, rfl⟩⟩
    · exact absurd hp (RunStatus.state_ne_pending _)
    · cases hr
  | fail t hrun hfailed =>
    have hno : g.resultDigest = none := hinv.unrecorded (by rw [hfailed]; decide)
    exact .of_unrecorded _ hno hfailed (by decide) (fun hp => by cases hp) rfl
  | displace t r submission regrade hop hqueues hpublic hdisplaced hpending =>
    have hno : g.resultDigest = none := hinv.unrecorded (by rw [hpending]; decide)
    split
    · exact .of_unrecorded .cancelled hno rfl (by decide) (fun hp => by cases hp) rfl
    · rename_i hne
      exact .of_unrecorded .cancelled hno rfl (by decide) (fun hp => absurd hp hne)
        (hinv.ungraded hno)
  | supersede t hrun hcancelled =>
    have hno : g.resultDigest = none := hinv.unrecorded (by rw [hcancelled]; decide)
    exact .of_unrecorded _ hno hcancelled (by decide) (fun hp => by cases hp) rfl

end Invariant

end Grading

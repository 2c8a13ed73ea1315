import SrgGrading.Store.PrivateRuns

/-!
# Accepting results

A worker may lose its lease, report twice, or report something else the second
time, and several calls of `accept` may be in flight for one task.  Once a
result is recorded its task is done, which fences off every other call.

* `Sys.Step.recording_spec`: what the step that records a result finds and does.
* `Latched.step`: what stays from then on.
* `Sys.accept_once`: results are recorded by the holder of the lease, once, and
  every later report meets the recorded one.
-/

open Fallible Relational

namespace Grading

/-! ### Recording a result -/

section Recording
variable [Sha256] {σ τ : Sys} {l : Time × Op} {call : Runs.AcceptCall}

/-- The transaction that records a result. -/
theorem recording_commit {calls : List Runs.AcceptCall} {s : Store} {now : Time} {op : Op}
    (h : recording calls s now op = some call) :
    ∃ i fresh s', op = .acceptCommit i fresh ∧ calls[i]? = some call ∧ call.stage = .stored ∧
      Runs.acceptCommit s now fresh call = .ok s' ∧
      ∃ t ∈ s.tasks, t.id = call.task ∧ t.status ≠ .done := by
  cases op with
  | acceptCommit i fresh =>
    rw [recording, Option.filter_eq_some_iff] at h
    simp only [Bool.and_eq_true, decide_eq_true_eq, List.any_eq_true] at h
    obtain ⟨hat, ⟨hstage, hok⟩, t, ht, hid, hne⟩ := h
    cases hc : Runs.acceptCommit s now fresh call with
    | ok s' => exact ⟨i, fresh, s', rfl, hat, hstage, hc, t, ht, hid, hne⟩
    | error e => rw [hc] at hok; cases hok
  | _ => cases h

/-- What the last transaction of `accept` writes when the task is not done. -/
theorem acceptCommit_writes {s s' : Store} {now : Time} {fresh : Nat → Uuid} (hk : Keys s)
    (h : Runs.acceptCommit s now fresh call = .ok s') {t : TaskRow} (ht : t ∈ s.tasks)
    (hid : t.id = call.task) (hne : t.status ≠ .done) :
    s'.runs = updateWhere (fun g => g.id = call.result.runId) (Runs.recordResult call) s.runs := by
  simp only [Runs.acceptCommit, bind_ok, fetchOne_ok] at h
  obtain ⟨u, hu, h⟩ := h
  have hfound := List.find?_some hu
  simp only [Bool.and_eq_true, decide_eq_true_eq] at hfound
  have hut : u = t :=
    hk.tasks.eq (List.mem_of_find?_eq_some hu) ht (hfound.1.1.trans hid.symm)
  rw [hut, if_neg hne] at h
  simp only [bind_ok] at h
  obtain ⟨_, _, _, _, h⟩ := h
  exact (Idle.enqueue (by decide) h).runs

/-- **What a recording finds and does**: the run has no result and its task is
leased to the worker; then the run has the result and the task is done. -/
theorem Sys.Step.recording_spec (hσ : σ.Reachable) (h : Sys.Step σ l τ)
    (hrec : recording σ.accepts σ.store l.1 l.2 = some call) :
    ∃ g ∈ σ.store.runs, ∃ t, σ.store.taskOf g.id = some t ∧ Fenced l.1 call g t ∧
      g.resultDigest = none ∧ Runs.recordResult call g ∈ τ.store.runs ∧
      τ.store.taskOf g.id = some { t with status := .done } := by
  obtain ⟨i, fresh, s', hop, hat, hstage, hcommit, u, hu, huid, hne⟩ := recording_commit hrec
  have hinv := hσ.inv
  obtain ⟨t, ht, htid, hsub⟩ := hinv.calls call (mem_of_recording hrec)
  obtain ⟨g, hg, hgid⟩ := hinv.owned t ht
  have hut : u = t := hσ.keys.tasks.eq hu (mem_gradeTasks.mp ht).1 (huid.trans htid.symm)
  have htask : σ.store.taskOf g.id = some t := hσ.keys.taskOf.mpr ⟨ht, hgid.symm⟩
  have hstore : τ.store = s' := by
    obtain ⟨_, _, rfl⟩ := h
    rw [hop]
    simp only [Sys.perform, callAt_some.mpr ⟨hat, hstage⟩, hcommit]
  have hnone : g.resultDigest = none := by
    have hrun := hinv.runs g hg
    rw [htask] at hrun
    exact hrun.unrecorded (hut ▸ hne)
  have hrow : Runs.recordResult call g ∈ τ.store.runs := by
    rw [hstore, acceptCommit_writes hσ.keys hcommit hu huid hne]
    exact mem_updateWhere_of_pos hg (decide_eq_true (hgid.trans hsub))
  obtain ⟨g', hg', hid', _, hl⟩ := h.life_of_mem hσ hg
  have hgg : g' = Runs.recordResult call g :=
    ((h.evolves hσ.keys).keys hσ.keys).runs.eq hg' hrow hid'
  rcases hl.results with hsame | ⟨again, hagain, v, hv, hfenced, _, hdone⟩
  · have hresult := hsame.result
    rw [hgg, hnone] at hresult
    cases hresult
  · rw [hrec, Option.some_inj] at hagain
    rw [htask, Option.some_inj] at hv
    exact ⟨g, hg, t, htask, hagain ▸ hv ▸ hfenced, hnone, hrow, hv ▸ hdone⟩

end Recording

/-! ### From a recording on -/

section Later
variable [Sha256] {σ τ υ : Sys} {l : Time × Op} {call : Runs.AcceptCall} {g : GradingRun}

/-- What stays of a recorded call: the row of its run, its task, done under the
token it was accepted with, and what a lease says of the run. -/
structure Latched (call : Runs.AcceptCall) (g : GradingRun) (υ : Sys) : Prop where
  run : g.id = call.result.runId
  valid : call.result.validate call.lease = .ok call.points
  row : Runs.recordResult call g ∈ υ.store.runs
  task : ∃ t, υ.store.taskOf g.id = some t ∧ t.id = call.task ∧ t.status = .done ∧
    t.leaseToken = some call.result.leaseToken ∧ t.leaseOwner = some call.worker.id ∧
    t.leaseUntil.isSome = true
  work : Work υ.store υ.clock call.worker call.result.runId call.lease

theorem Latched.step (hσ : σ.Reachable) (h : Sys.Step σ l τ) (hl : Latched call g σ) :
    Latched call g τ := by
  have hclock : σ.clock ≤ τ.clock := by
    obtain ⟨hle, _, rfl⟩ := h
    exact hle
  refine ⟨hl.run, hl.valid, h.recorded hσ hl.row rfl, ?_, hl.work.step hσ h hclock⟩
  obtain ⟨t, ht, hid, hdone, htoken, howner, huntil⟩ := hl.task
  obtain ⟨g', _, _, _, hlife⟩ := h.life_of_mem hσ hl.row
  have htask : σ.store.taskOf (Runs.recordResult call g).id = some t := ht
  rw [htask] at hlife
  obtain ⟨_, t', ht', hsame⟩ := hlife.done hdone
  exact ⟨t', ht', hsame.id.trans hid, hsame.status.trans hdone, hsame.token.trans htoken,
    hsame.owner.trans howner, hsame.until_ huntil⟩

theorem Latched.run_of {taken : List (Sys × (Time × Op))} (hσ : σ.Reachable)
    (hrun : Transition.Run Sys.Step σ taken τ) (hl : Latched call g σ) : Latched call g τ := by
  induction hrun with
  | nil => exact hl
  | snoc hrun hst ih => exact ih.step (Transition.Reachable.run hσ hrun) hst

/-- A recording latches. -/
theorem Sys.Step.latched (hσ : σ.Reachable) (h : Sys.Step σ l τ)
    (hrec : recording σ.accepts σ.store l.1 l.2 = some call) :
    ∃ g ∈ σ.store.runs, ∃ t, σ.store.taskOf g.id = some t ∧ Fenced l.1 call g t ∧
      g.resultDigest = none ∧ Latched call g τ := by
  obtain ⟨g, hg, t, ht, hfenced, hnone, hrow, hdone⟩ := h.recording_spec hσ hrec
  have hmem := mem_of_recording hrec
  have hclock : σ.clock ≤ τ.clock := by
    obtain ⟨hle, _, rfl⟩ := h
    exact hle
  refine ⟨g, hg, t, ht, hfenced, hnone, hfenced.run, hσ.scores.valid call hmem, hrow,
    ⟨_, hdone, hfenced.task, rfl, hfenced.token, hfenced.owner, ?_⟩,
    (hσ.scores.work call hmem).step hσ h hclock⟩
  have hlive := hfenced.live
  rw [TaskRow.live] at hlive
  cases hu : t.leaseUntil with
  | none => rw [hu] at hlive; cases hlive
  | some u => rfl

/-- Results with one digest are one result. -/
theorem resultDigest_inj {a b : RunResult}
    (hc : CollisionFree fun bytes => bytes = toVec a.toJson ∨ bytes = toVec b.toJson)
    (h : Runs.resultDigest a = Runs.resultDigest b) : a = b :=
  RunResult.toJson_inj (toVec_inj (hc.eq (Or.inl rfl) (Or.inr rfl) h))

omit [Sha256] in
/-- Validation looks at neither the task nor the end of a lease. -/
theorem validate_congr {r : RunResult} {lease lease' : Lease}
    (htoken : lease'.leaseToken = lease.leaseToken) (hrun : lease'.runId = lease.runId)
    (hsha : lease'.sha = lease.sha) (hdigest : lease'.revisionDigest = lease.revisionDigest)
    (hrevision : lease'.revision = lease.revision) (hbase : lease'.baseline = lease.baseline) :
    r.validate lease' = r.validate lease := by
  rw [RunResult.validate, RunResult.validate, htoken, hrun, hsha, hdigest, hrevision, hbase]

namespace Latched

/-- The row the calls of `accept` find. -/
theorem fetchRun (hk : Keys υ.store) (hl : Latched call g υ) :
    υ.store.fetchRun g.id = .ok (Runs.recordResult call g) := by
  rw [Store.fetchRun, fetchOne_ok]
  exact (lookup_eq_some hk.runs).mpr ⟨hl.row, rfl⟩

/-- The recorded result is accepted again. -/
theorem again (hυ : υ.Reachable) (hl : Latched call g υ) {now : Time} (hnow : υ.clock ≤ now) :
    ∃ lease, Runs.acceptLease υ.store now call.worker call.task call.result =
      .ok ⟨call.worker, call.task, call.result, lease, call.points, .validated⟩ := by
  obtain ⟨t, ht, hid, hdone, htoken, howner, huntil⟩ := hl.task
  obtain ⟨hmem, hsub⟩ := hυ.keys.taskOf.mp ht
  obtain ⟨until_, hu⟩ := Option.isSome_iff_exists.mp huntil
  have howned : Runs.ownedTask υ.store now call.worker call.task call.result.leaseToken true
      = some t := by
    refine hυ.keys.tasks.find (mem_gradeTasks.mp hmem).1 ?_ fun u hu => ?_
    · simp [hid, (mem_gradeTasks.mp hmem).2, howner, htoken, hdone]
    · simp only [Bool.and_eq_true, decide_eq_true_eq] at hu
      exact hu.1.1.1.1.trans hid.symm
  obtain ⟨h, hh, x, v, p, hj⟩ := hl.work
  have hprov := validate_provenance hl.valid
  let lease : Lease := { call.lease with
    schemaVersion := 1, taskId := t.id, leaseToken := call.result.leaseToken, expiresAt := until_ }
  have hwork : Work υ.store now call.worker t.subject lease := by
    rw [hsub, hl.run]
    refine ⟨h, hh, x, v, p, { hj with due := ?_ }⟩
    have hdue := hj.due
    rw [Bool.or_eq_true, decide_eq_true_eq] at hdue ⊢
    exact hdue.imp id fun hlt => lt_of_lt_of_le hlt hnow
  refine ⟨lease, acceptLease_ok.mpr ⟨lease, call.points, ⟨⟨t, howned, rfl, hu, hwork⟩, rfl, rfl⟩,
    ?_, rfl⟩⟩
  rw [← hl.valid]
  exact validate_congr hprov.1 rfl rfl rfl rfl rfl

/-- The first look of a call at the recorded run. -/
theorem acceptExisting (hk : Keys υ.store) (hl : Latched call g υ) {again : Runs.AcceptCall}
    (hrun : again.result.runId = g.id) :
    Runs.acceptExisting υ.store again =
      if Runs.resultDigest call.result = Runs.resultDigest again.result then .ok true
      else .error (.message "conflicting replay") := by
  rw [Runs.acceptExisting, hrun, hl.fetchRun hk]
  simp only [Runs.recordResult, check, ensure, bind, Except.bind, pure, Except.pure]
  by_cases heq : Runs.resultDigest call.result = Runs.resultDigest again.result
  · simp only [heq, decide_true, if_true]
  · simp only [heq, decide_false, Bool.false_eq_true, if_false]

/-- The last transaction of a call on a task that is done writes nothing. -/
theorem acceptCommit (hk : Keys υ.store) (hl : Latched call g υ) {again : Runs.AcceptCall}
    (htask : again.task = call.task) {now : Time} {fresh : Nat → Uuid} {s' : Store}
    (h : Runs.acceptCommit υ.store now fresh again = .ok s') :
    s' = υ.store ∧ (again.result.runId = g.id →
      Runs.resultDigest call.result = Runs.resultDigest again.result) := by
  obtain ⟨t, ht, hid, hdone, _⟩ := hl.task
  obtain ⟨hmem, _⟩ := hk.taskOf.mp ht
  simp only [Runs.acceptCommit, bind_ok, fetchOne_ok] at h
  obtain ⟨u, hu, h⟩ := h
  have hfound := List.find?_some hu
  simp only [Bool.and_eq_true, decide_eq_true_eq] at hfound
  have hut : u = t := hk.tasks.eq (List.mem_of_find?_eq_some hu) (mem_gradeTasks.mp hmem).1
    (hfound.1.1.trans (htask.trans hid.symm))
  rw [hut, if_pos hdone] at h
  simp only [bind_ok, check_ok, pure_ok, decide_eq_true_eq] at h
  obtain ⟨row, hrow, _, hdigest, rfl⟩ := h
  refine ⟨rfl, fun hrun => ?_⟩
  rw [hrun, hl.fetchRun hk, Except.ok.injEq] at hrow
  rw [← hrow, Runs.recordResult, Option.some_inj] at hdigest
  exact hdigest

/-- The same call again commits. -/
theorem acceptCommit_again (hk : Keys υ.store) (hl : Latched call g υ) {again : Runs.AcceptCall}
    (hworker : again.worker = call.worker) (htask : again.task = call.task)
    (hresult : again.result = call.result) (now : Time) (fresh : Nat → Uuid) :
    Runs.acceptCommit υ.store now fresh again = .ok υ.store := by
  obtain ⟨t, ht, hid, hdone, htoken, howner, _⟩ := hl.task
  obtain ⟨hmem, _⟩ := hk.taskOf.mp ht
  simp only [Runs.acceptCommit, bind_ok, fetchOne_ok]
  refine ⟨t, hk.tasks.find (mem_gradeTasks.mp hmem).1 ?_ fun u hu => ?_, ?_⟩
  · simp [hworker, htask, hresult, hid, htoken, howner]
  · simp only [Bool.and_eq_true, decide_eq_true_eq] at hu
    exact hu.1.1.trans (htask.trans hid.symm)
  · rw [if_pos hdone]
    simp only [bind_ok, check_ok, pure_ok, decide_eq_true_eq]
    refine ⟨Runs.recordResult call g, ?_, (), ?_, trivial⟩
    · rw [hresult, ← hl.run]
      exact hl.fetchRun hk
    · rw [Runs.recordResult, hresult]

end Latched

/-! ### Later reports -/

/-- The call a step is the next transaction of. -/
def Sys.callOf (σ : Sys) : Op → Option Runs.AcceptCall
  | .acceptExisting i | .acceptPut i | .acceptCommit i _ | .acceptStop i => σ.accepts[i]?
  | _ => none

/-- Runs, tasks, findings and the outbox are as they were. -/
structure SameRows (s s' : Store) : Prop where
  runs : s'.runs = s.runs
  tasks : s'.tasks = s.tasks
  findings : s'.findings = s.findings
  outbox : s'.outbox = s.outbox

/-- What every state after the recording of `call` for the run `g` is like. -/
structure Settled (call : Runs.AcceptCall) (g : GradingRun) (υ : Sys) : Prop where
  /-- The run is as it was recorded. -/
  row : Runs.recordResult call g ∈ υ.store.runs
  task : ∃ t ∈ υ.store.gradeTasks, t.id = call.task ∧ t.subject = g.id ∧ t.status = .done
  /-- No other result of the run is recorded. -/
  once : ∀ (l : Time × Op) again, recording υ.accepts υ.store l.1 l.2 = some again → again.result.runId ≠ g.id
  /-- The worker may report again. -/
  again : ∀ now, υ.clock ≤ now → ∃ lease,
    Runs.acceptLease υ.store now call.worker call.task call.result =
      .ok ⟨call.worker, call.task, call.result, lease, call.points, .validated⟩
  /-- The same report succeeds, at the first look or in its last transaction. -/
  identical : ∀ again : Runs.AcceptCall, again.worker = call.worker → again.task = call.task →
    again.result = call.result → Runs.acceptExisting υ.store again = .ok true ∧
      ∀ now fresh, Runs.acceptCommit υ.store now fresh again = .ok υ.store
  /-- A call in flight for the task writes nothing of importance. -/
  quiet : ∀ l φ, Sys.Step υ l φ → ∀ again, υ.callOf l.2 = some again → again.task = call.task →
    SameRows υ.store φ.store
  /-- A different report under the token fails at both. -/
  differing : ∀ again ∈ υ.accepts, again.task = call.task →
    again.result.leaseToken = call.result.leaseToken → again.result ≠ call.result →
    (CollisionFree fun bytes =>
      bytes = toVec call.result.toJson ∨ bytes = toVec again.result.toJson) →
    Runs.acceptExisting υ.store again = .error (.message "conflicting replay") ∧
      ∀ now fresh, ∃ e, Runs.acceptCommit υ.store now fresh again = .error e

/-- A call in flight for the task of a recorded run is one for the run. -/
theorem Latched.runId_eq (hυ : υ.Reachable) (hl : Latched call g υ) {again : Runs.AcceptCall}
    (hmem : again ∈ υ.accepts) (htask : again.task = call.task) : again.result.runId = g.id := by
  obtain ⟨t, ht, hid, _⟩ := hl.task
  obtain ⟨htmem, hsub⟩ := hυ.keys.taskOf.mp ht
  obtain ⟨u, hu, huid, husub⟩ := hυ.inv.calls again hmem
  have hut : u = t := hυ.keys.tasks.eq (mem_gradeTasks.mp hu).1 (mem_gradeTasks.mp htmem).1
    (huid.trans (htask.trans hid.symm))
  rw [← husub, hut, hsub]

theorem Latched.quiet (hk : Keys υ.store) (hl : Latched call g υ) {φ : Sys}
    (h : Sys.Step υ l φ) {again : Runs.AcceptCall} (hof : υ.callOf l.2 = some again)
    (htask : again.task = call.task) : SameRows υ.store φ.store := by
  obtain ⟨now, op⟩ := l
  obtain ⟨_, _, rfl⟩ := h
  cases op with
  | store op => cases hof
  | acceptLease worker task result => cases hof
  | acceptExisting i =>
    simp only [Sys.perform]
    split
    · exact ⟨rfl, rfl, rfl, rfl⟩
    · split <;> exact ⟨rfl, rfl, rfl, rfl⟩
  | acceptPut i =>
    simp only [Sys.perform]
    split
    · exact ⟨rfl, rfl, rfl, rfl⟩
    · split
      · rename_i hput
        simp only [Submissions.put, bind_ok, pure_ok, Prod.mk.injEq] at hput
        obtain ⟨_, _, rfl, _⟩ := hput
        split <;> exact ⟨rfl, rfl, rfl, rfl⟩
      · exact ⟨rfl, rfl, rfl, rfl⟩
  | acceptCommit i fresh =>
    simp only [Sys.perform]
    split
    · exact ⟨rfl, rfl, rfl, rfl⟩
    · rename_i c hc
      have hca : c = again := by
        rw [Sys.callOf, (callAt_some.mp hc).1, Option.some_inj] at hof
        exact hof
      split
      · rename_i s' hcommit
        rw [hca] at hcommit
        rw [(hl.acceptCommit hk htask hcommit).1]
        exact ⟨rfl, rfl, rfl, rfl⟩
      · exact ⟨rfl, rfl, rfl, rfl⟩
  | acceptStop i => exact ⟨rfl, rfl, rfl, rfl⟩

theorem Latched.settled (hυ : υ.Reachable) (hl : Latched call g υ) : Settled call g υ where
  row := hl.row
  task := by
    obtain ⟨t, ht, hid, hdone, _⟩ := hl.task
    obtain ⟨hmem, hsub⟩ := hυ.keys.taskOf.mp ht
    exact ⟨t, hmem, hid, hsub, hdone⟩
  once := by
    intro l again hrec hrun
    -- the task of the recorded run is done
    obtain ⟨t, ht, hid, hdone, _⟩ := hl.task
    obtain ⟨hmem, hsub⟩ := hυ.keys.taskOf.mp ht
    obtain ⟨_, _, _, _, _, _, _, u, hu, huid, hne⟩ := recording_commit hrec
    obtain ⟨v, hv, hvid, hvsub⟩ := hυ.inv.calls again (mem_of_recording hrec)
    have hvt : v = t := hυ.keys.gradeSubjects.eq hv hmem (by rw [hvsub, hrun, hsub])
    have huv : u = v := hυ.keys.tasks.eq hu (mem_gradeTasks.mp hv).1 (huid.trans hvid.symm)
    rw [huv, hvt] at hne
    exact hne hdone
  again now hnow := hl.again hυ hnow
  identical := by
    intro again hworker htask hresult
    refine ⟨?_, hl.acceptCommit_again hυ.keys hworker htask hresult⟩
    rw [hl.acceptExisting hυ.keys (by rw [hresult, hl.run]), hresult, if_pos rfl]
  quiet _ _ hst _ hof htask := hl.quiet hυ.keys hst hof htask
  differing := by
    intro again hmem htask _ hne hc
    have hrun := hl.runId_eq hυ hmem htask
    have hdigest : Runs.resultDigest call.result ≠ Runs.resultDigest again.result :=
      fun heq => hne (resultDigest_inj hc heq).symm
    refine ⟨by rw [hl.acceptExisting hυ.keys hrun, if_neg hdigest], fun now fresh => ?_⟩
    cases hcommit : Runs.acceptCommit υ.store now fresh again with
    | error e => exact ⟨e, rfl⟩
    | ok s' => exact absurd ((hl.acceptCommit hυ.keys htask hcommit).2 hrun) hdigest

/-- **Results are accepted at most once, from the holder of the lease.**  In a
reachable state a step changes what is recorded of a run only by recording the
result of a call; it does so only if the call's worker holds the unexpired lease
of the run's task, under the token of the result, and the run has no result yet;
and from then on, in every state of every run of the system, the run stays as
recorded and every later report meets the recorded one. -/
theorem Sys.accept_once (hσ : σ.Reachable) (h : Sys.Step σ l τ) :
    (∀ g ∈ σ.store.runs, ∀ g' ∈ τ.store.runs, g'.id = g.id → SameResult g g' ∨
      ∃ call, recording σ.accepts σ.store l.1 l.2 = some call ∧ call.result.runId = g.id) ∧
    (∀ g' ∈ τ.store.runs, (∀ g ∈ σ.store.runs, g.id ≠ g'.id) → g'.resultDigest = none) ∧
    ∀ call, recording σ.accepts σ.store l.1 l.2 = some call →
      ∃ g ∈ σ.store.runs, ∃ t ∈ σ.store.gradeTasks, t.subject = g.id ∧ Fenced l.1 call g t ∧
        g.resultDigest = none ∧
        ∀ taken υ, Transition.Run Sys.Step τ taken υ → Settled call g υ := by
  refine ⟨fun g hg g' hg' hid => ?_, fun g' hg' hnew => ?_, fun call hrec => ?_⟩
  · obtain ⟨h', hh', hhid, _, hl⟩ := h.life_of_mem hσ hg
    have heq : h' = g' :=
      ((h.evolves hσ.keys).keys hσ.keys).runs.eq hh' hg' (hhid.trans hid.symm)
    rw [heq] at hl
    rcases hl.results with hsame | ⟨call, hrec, t, _, hfenced, _⟩
    · exact Or.inl hsame
    · exact Or.inr ⟨call, hrec, hfenced.run.symm⟩
  · rcases h.run_origin hσ hg' with ⟨g, hg, hid, _⟩ | hborn
    · exact absurd hid (hnew g hg)
    · rw [hborn.new.ungraded]
      rfl
  · obtain ⟨g, hg, t, ht, hfenced, hnone, hl⟩ := h.latched hσ hrec
    obtain ⟨hmem, hsub⟩ := hσ.keys.taskOf.mp ht
    refine ⟨g, hg, t, hmem, hsub, hfenced, hnone, fun taken υ hrun => ?_⟩
    have hτ : Sys.Reachable τ := Transition.Reachable.tail hσ h
    exact (hl.run_of hτ hrun).settled (Transition.Reachable.run hτ hrun)

end Later

/-! ### A result of submission 21 -/

namespace Sample

attribute [local instance] Sha256.standard

/-- The report is stored, and its last transaction is due. -/
def stored : List (Time × Op) :=
  leasing ++ reporting :: [(second 7, .acceptExisting 0), (second 7, .acceptPut 0)]

/-- Its last transaction records it for good. -/
theorem accept_once_passed : ∃ σ τ, start.play stored = some σ ∧
    Sys.Step σ (second 7, .acceptCommit 0 (ids 80)) τ ∧ ∃ call, call.result.runId = 50 ∧
      ∃ g ∈ σ.store.runs, g.id = 50 ∧ ∀ taken υ, Transition.Run Sys.Step τ taken υ →
        Settled call g υ := by
  have key : (start.play stored).any (fun σ => σ.clock ≤ second 7 &&
      (recording σ.accepts σ.store (second 7) (.acceptCommit 0 (ids 80))).any fun call =>
        call.result.runId = 50) = true := by
    rw [stored, play_reporting]
    decide +kernel
  obtain ⟨σ, hσ, hkey⟩ := Option.any_eq_true _ _ |>.mp key
  rw [Bool.and_eq_true, decide_eq_true_eq, Option.any_eq_true] at hkey
  obtain ⟨hclock, call, hrec, hrun⟩ := hkey
  rw [decide_eq_true_eq] at hrun
  have hreach : σ.Reachable := ⟨start, _, initial, Sys.run_of_play hσ⟩
  have hstep : Sys.Step σ (second 7, .acceptCommit 0 (ids 80)) _ := ⟨hclock, rfl, rfl⟩
  obtain ⟨g, hg, t, _, _, hfenced, _, hsettled⟩ := (Sys.accept_once hreach hstep).2.2 call hrec
  exact ⟨σ, _, hσ, hstep, call, hrun, g, hg, hfenced.run.trans hrun, hsettled⟩

end Sample

end Grading

import SrgGrading.Store.Life

/-!
# Calls in flight

What `owned_lease` selects, which calls of `accept` are in flight, and the
invariant of the grading queue with them.

* `ownedLease_ok`, `acceptLease_ok`: when these succeed, and with what.
* `Sys.Reachable.inv`: the invariant of the queue.
* `Sys.Step.life_of_mem`: the life of a run along a run of the system.
-/

open Fallible Relational

namespace Grading

/-! ### Calls of `accept` -/

theorem Revision.decode_ok {r r' : Revision} : r.decode = .ok r' ↔
    r' = r ∧ (rfc3339Parses r.assignment.opensAt && rfc3339Parses r.assignment.deadline) = true := by
  simp only [Revision.decode, bind_ok, ensure_ok, pure_ok]
  constructor
  · rintro ⟨_, h, rfl⟩
    exact ⟨rfl, h⟩
  · rintro ⟨rfl, h⟩
    exact ⟨(), h, rfl⟩

section Calls
variable [Sha256] {s s' : Store} {now : Time}

/-- The rows `owned_lease` joins to a run, and what it checks of them. -/
structure Joined (s : Store) (now : Time) (worker : Worker) (lease : Lease) (g : GradingRun)
    (x : Submission) (v : AssignmentRevision) (p : Store.Pinned) : Prop where
  submission : s.fetchSubmission g.submissionId = .ok x
  revision : s.fetchRevision g.revisionDigest = .ok v
  pinned : s.fetchPinned x.repositoryId = .ok p
  due : (g.publicRunId.isNone || p.deadline < now) = true
  decodes : v.definition.decode = .ok v.definition
  caps : ∃ caps, worker.resourceCaps = some caps ∧
    (worker.profiles.contains v.definition.assignment.executionProfile &&
      v.definition.assignment.resources.fits caps) = true
  valid : v.definition.validate = .ok ()
  stored : v.definition.digest = g.revisionDigest
  runId : lease.runId = g.id
  sha : lease.sha = x.sha
  revisionDigest : lease.revisionDigest = g.revisionDigest
  source : x.sourceDigest = some lease.sourceDigest
  definition : lease.revision = v.definition
  baseline : Runs.baselineOf s g p.deadline = .ok lease.baseline

/-- What `owned_lease` returns of a run, whatever its task. -/
def Work (s : Store) (now : Time) (worker : Worker) (run : Uuid) (lease : Lease) : Prop :=
  ∃ g, s.fetchRun run = .ok g ∧ ∃ x v p, Joined s now worker lease g x v p

/-- What `owned_lease` selects and returns. -/
structure Leased (s : Store) (now : Time) (worker : Worker) (task token : Uuid)
    (allowDone : Bool) (lease : Lease) : Prop where
  row : ∃ t, Runs.ownedTask s now worker task token allowDone = some t ∧ lease.taskId = t.id ∧
    t.leaseUntil = some lease.expiresAt ∧ Work s now worker t.subject lease
  schema : lease.schemaVersion = 1
  token : lease.leaseToken = token

theorem ownedLease_ok {worker : Worker} {task token : Uuid} {allowDone : Bool} {lease : Lease} :
    Runs.ownedLease s now worker task token allowDone = .ok lease ↔
      Leased s now worker task token allowDone lease := by
  constructor
  · intro h
    simp only [Runs.ownedLease, bind_ok, fetchOne_ok, ensure_ok, check_ok, pure_ok,
      decide_eq_true_eq] at h
    obtain ⟨t, ht, leaseUntil, hu, g, hg, x, hx, v, hv, p, hp, _, hdue, source, hsource, revision,
      hdecode, caps, hcaps, ⟨⟩, hvalid, _, hfits, _, hdigest, baseline, hbase, rfl⟩ := h
    obtain ⟨rfl, hparse⟩ := Revision.decode_ok.mp hdecode
    exact ⟨⟨t, ht, rfl, hu, g, hg, x, v, p, hx, hv, hp, hdue, hdecode, ⟨caps, hcaps, hfits⟩, hvalid,
      hdigest, rfl, rfl, rfl, hsource, rfl, hbase⟩, rfl, rfl⟩
  · rintro ⟨⟨t, ht, htask, hu, g, hg, x, v, p, hj⟩, hschema, htoken⟩
    obtain ⟨caps, hcaps, hfits⟩ := hj.caps
    simp only [Runs.ownedLease, bind_ok, fetchOne_ok, ensure_ok, check_ok, pure_ok,
      decide_eq_true_eq]
    refine ⟨t, ht, lease.expiresAt, hu, g, hg, x, hj.submission, v, hj.revision, p, hj.pinned, (),
      hj.due, lease.sourceDigest, hj.source, _, hj.decodes, caps, hcaps, (), hj.valid, (), hfits, (),
      hj.stored, lease.baseline, hj.baseline, ?_⟩
    rw [← hschema, ← htoken, ← htask, ← hj.runId, ← hj.sha, ← hj.revisionDigest, ← hj.definition]

theorem acceptLease_ok {worker : Worker} {task : Uuid} {result : RunResult}
    {call : Runs.AcceptCall} :
    Runs.acceptLease s now worker task result = .ok call ↔
      ∃ lease points, Leased s now worker task result.leaseToken true lease ∧
        result.validate lease = .ok points ∧
        call = ⟨worker, task, result, lease, points, .validated⟩ := by
  simp only [Runs.acceptLease, bind_ok, pure_ok, ownedLease_ok]
  constructor
  · rintro ⟨lease, hlease, points, hpoints, rfl⟩
    exact ⟨lease, points, hlease, hpoints, rfl⟩
  · rintro ⟨lease, points, hlease, hpoints, rfl⟩
    exact ⟨lease, hlease, points, hpoints, rfl⟩

omit [Sha256] in
theorem validate_provenance {r : RunResult} {lease : Lease} {points : Option Int}
    (h : r.validate lease = .ok points) :
    r.leaseToken = lease.leaseToken ∧ r.runId = lease.runId := by
  simp only [RunResult.validate, bind_ok, check_ok, Bool.and_eq_true, decide_eq_true_eq] at h
  obtain ⟨_, _, _, ⟨⟨⟨⟨_, htoken⟩, hrun⟩, _⟩, _⟩, _⟩ := h
  exact ⟨htoken, hrun⟩

omit [Sha256] in
theorem ownedTask_some {worker : Worker} {task token : Uuid} {allowDone : Bool} {t : TaskRow}
    (h : Runs.ownedTask s now worker task token allowDone = some t) :
    t ∈ s.gradeTasks ∧ t.id = task ∧ t.leaseOwner = some worker.id ∧ t.leaseToken = some token ∧
      ((t.status = .leased ∧ t.live now = true) ∨ (allowDone = true ∧ t.status = .done)) := by
  have hfound := List.find?_some h
  simp only [Bool.and_eq_true, Bool.or_eq_true, decide_eq_true_eq] at hfound
  obtain ⟨⟨⟨⟨hid, hkind⟩, howner⟩, htoken⟩, hstatus⟩ := hfound
  exact ⟨mem_gradeTasks.mpr ⟨List.mem_of_find?_eq_some h, hkind⟩, hid, howner, htoken, hstatus⟩

/-- A call that was accepted grades the run of its task. -/
theorem acceptLease_task {worker : Worker} {task : Uuid} {result : RunResult}
    {call : Runs.AcceptCall} (h : Runs.acceptLease s now worker task result = .ok call) :
    ∃ t ∈ s.gradeTasks, t.id = call.task ∧ t.subject = call.result.runId := by
  obtain ⟨lease, points, ⟨⟨t, ht, _, _, g, hg, x, v, p, hj⟩, _⟩, hvalid, rfl⟩ :=
    acceptLease_ok.mp h
  obtain ⟨hmem, hid, _⟩ := ownedTask_some ht
  rw [Store.fetchRun, fetchOne_ok] at hg
  refine ⟨t, hmem, hid, ?_⟩
  rw [← key_of_lookup hg, ← hj.runId]
  exact (validate_provenance hvalid).2.symm

/-- The calls in flight after a step: those before it, or the one that began. -/
theorem Sys.Step.accepts {σ τ : Sys} {l : Time × Op} (h : Sys.Step σ l τ)
    {call : Runs.AcceptCall} (hcall : call ∈ τ.accepts) :
    (∃ c ∈ σ.accepts, call = { c with stage := call.stage }) ∨
      ∃ worker task result, Runs.acceptLease σ.store l.1 worker task result = .ok call := by
  obtain ⟨now, op⟩ := l
  obtain ⟨_, _, rfl⟩ := h
  have hsame : ∀ {c : Runs.AcceptCall}, c ∈ σ.accepts →
      ∃ d ∈ σ.accepts, c = { d with stage := c.stage } := fun {c} hc => ⟨c, hc, rfl⟩
  have hdrop : ∀ {i : Nat} {c : Runs.AcceptCall}, c ∈ (σ.dropCall i).accepts →
      ∃ d ∈ σ.accepts, c = { d with stage := c.stage } :=
    fun hc => hsame (List.mem_of_mem_eraseIdx hc)
  have hadvance : ∀ {i : Nat} {d c : Runs.AcceptCall} {at_ next : Runs.AcceptStage},
      σ.callAt i at_ = some d → c ∈ (σ.advance i d next).accepts →
      ∃ d ∈ σ.accepts, c = { d with stage := c.stage } := by
    intro i d c at_ next hd hc
    rcases List.mem_or_eq_of_mem_set hc with h | h
    · exact hsame h
    · exact ⟨d, (mem_of_callAt hd).1, by rw [h]⟩
  cases op with
  | store op =>
    simp only [Sys.perform] at hcall
    split at hcall <;> exact Or.inl (hsame hcall)
  | acceptLease worker task result =>
    simp only [Sys.perform] at hcall
    split at hcall
    · rename_i c hc
      rcases List.mem_append.mp hcall with h | h
      · exact Or.inl (hsame h)
      · rw [List.mem_singleton.mp h]
        exact Or.inr ⟨worker, task, result, hc⟩
    · exact Or.inl (hsame hcall)
  | acceptExisting i =>
    simp only [Sys.perform] at hcall
    split at hcall
    · exact Or.inl (hsame hcall)
    · rename_i d hd
      split at hcall
      · exact Or.inl (hadvance hd hcall)
      · exact Or.inl (hdrop hcall)
  | acceptPut i =>
    simp only [Sys.perform] at hcall
    split at hcall
    · exact Or.inl (hsame hcall)
    · rename_i d hd
      split at hcall
      · exact Or.inl (hadvance hd hcall)
      · exact Or.inl (hdrop hcall)
  | acceptCommit i fresh =>
    simp only [Sys.perform] at hcall
    split at hcall
    · exact Or.inl (hsame hcall)
    · split at hcall <;> exact Or.inl (hdrop hcall)
  | acceptStop i => exact Or.inl (hdrop hcall)

end Calls

/-! ### The invariant of the grading queue -/

/-- Tasks, runs and calls belong together. -/
structure Sys.Inv (σ : Sys) : Prop where
  owned : Owned σ.store
  calls : OwnTasks σ.store σ.accepts
  runs : ∀ g ∈ σ.store.runs, RunInv g (σ.store.taskOf g.id)

section Invariant

theorem Evolves.gradeTask {R : StudentRepository → StudentRepository → Prop} {s s' : Store}
    (hev : Evolves R s s') {t : TaskRow} (ht : t ∈ s.gradeTasks) :
    ∃ t' ∈ s'.gradeTasks, t'.id = t.id ∧ t'.subject = t.subject := by
  obtain ⟨hmem, hkind⟩ := mem_gradeTasks.mp ht
  obtain ⟨t', ht', hid, hsame⟩ := hev.tasks.old hmem
  exact ⟨t', mem_gradeTasks.mpr ⟨ht', hsame.kind.trans hkind⟩, hid, hsame.subject⟩

theorem Sys.Initial.inv {σ : Sys} (h : σ.Initial) : σ.Inv where
  owned := by
    intro t ht
    obtain ⟨hmem, hkind⟩ := mem_gradeTasks.mp ht
    rw [h.tasks t hmem] at hkind
    cases hkind
  calls := by
    intro call hcall
    rw [h.accepts] at hcall
    cases hcall
  runs := by
    intro g hg
    rw [h.runs] at hg
    cases hg

variable [Sha256]

theorem GradeStep.owned {calls : List Runs.AcceptCall} {now : Time} {op : Op} {s s' : Store}
    {R : StudentRepository → StudentRepository → Prop} (hown : Owned s) (hev : Evolves R s s')
    (h : GradeStep calls now op s s') : Owned s' := by
  have hold : ∀ t ∈ s.gradeTasks, ∃ g ∈ s'.runs, g.id = t.subject := by
    intro t ht
    obtain ⟨g, hg, hid⟩ := hown t ht
    obtain ⟨g', hg', hid', _⟩ := hev.runs.old hg
    exact ⟨g', hg', hid'.trans hid⟩
  have hupdate : ∀ {p : TaskRow → Bool} {f : TaskRow → TaskRow},
      ∀ t ∈ updateWhere p f s.gradeTasks, (∀ t, (f t).subject = t.subject) →
        ∃ g ∈ s'.runs, g.id = t.subject := by
    intro p f t ht hf
    obtain ⟨u, hu, rfl⟩ := mem_updateWhere.mp ht
    obtain ⟨g, hg, hid⟩ := hold u hu
    refine ⟨g, hg, hid.trans ?_⟩
    split
    · exact (hf u).symm
    · rfl
  intro t ht
  cases h with
  | idle h => rw [h.tasks] at ht; exact hold t ht
  | revived r x hr hopen hx hrep runs tasks =>
    rw [tasks] at ht
    exact hupdate t ht fun _ => rfl
  | heartbeat held until_ hheld runs tasks =>
    rw [tasks] at ht
    exact hupdate t ht fun _ => rfl
  | expired runs tasks => rw [tasks] at ht; exact hupdate t ht fun _ => rfl
  | leased u owner token hu hready hfree runs tasks =>
    rw [tasks] at ht
    exact hupdate t ht fun _ => rfl
  | recorded call u hrec hu hid htoken howner hleased hlive runs tasks =>
    rw [tasks] at ht
    exact hupdate t ht fun _ => rfl
  | skipped g hnew hpublic hstatus runs tasks => rw [tasks] at ht; exact hold t ht
  | queued g u r regrade hop hqueues hnew hpublic hstatus hu runs tasks =>
    rw [tasks] at ht
    rcases List.mem_append.mp ht with h | h
    · exact hupdate t h fun _ => rfl
    · rw [List.mem_singleton.mp h, hu.1, runs]
      exact ⟨g, List.mem_append_right _ (List.mem_singleton_self g), rfl⟩
  | queuedPrivate g u baseline hnew hprivate hstatus hu runs tasks =>
    rw [tasks] at ht
    rcases List.mem_append.mp ht with h | h
    · exact hold t h
    · rw [List.mem_singleton.mp h, hu.1, runs]
      exact ⟨g, List.mem_append_right _ (List.mem_singleton_self g), rfl⟩
  | failed runs tasks => rw [tasks] at ht; exact hold t ht

theorem Sys.Step.inv {σ τ : Sys} {l : Time × Op} (hk : Keys σ.store) (hf : Finals σ.store)
    (hinv : σ.Inv) (h : Sys.Step σ l τ) : τ.Inv where
  owned := (h.gradeStep hk hinv.owned hf).owned hinv.owned (h.evolves hk)
  calls := by
    have hpersist : ∀ {task run : Uuid}, (∃ t ∈ σ.store.gradeTasks, t.id = task ∧ t.subject = run) →
        ∃ t ∈ τ.store.gradeTasks, t.id = task ∧ t.subject = run := by
      rintro task run ⟨t, ht, hid, hsub⟩
      obtain ⟨t', ht', hid', hsub'⟩ := (h.evolves hk).gradeTask ht
      exact ⟨t', ht', hid'.trans hid, hsub'.trans hsub⟩
    intro call hcall
    rcases h.accepts hcall with ⟨c, hc, heq⟩ | ⟨worker, task, result, hnew⟩
    · rw [heq]
      exact hpersist (hinv.calls c hc)
    · exact hpersist (acceptLease_task hnew)
  runs := by
    intro g' hg'
    have hlife := (h.gradeStep hk hinv.owned hf).life hk hinv.owned hinv.calls
    rcases hlife g' hg' with ⟨g, hg, hid, hl⟩ | hborn
    · rw [hid] at hl
      exact (hid ▸ hinv.runs g hg).life hl
    · exact hborn.runInv

theorem Sys.Reachable.inv {σ : Sys} (h : σ.Reachable) : σ.Inv := by
  refine Transition.Reachable.invariant (I := Sys.Inv) (fun _ h0 => h0.inv) ?_ h
  intro _ _ _ hσ hinv hst
  exact Sys.Step.inv (keys hσ) (finals hσ) hinv hst

/-- **Every run takes a transition of its life in every step**, or comes into being. -/
theorem Sys.Step.life {σ τ : Sys} {l : Time × Op} (hσ : σ.Reachable) (h : Sys.Step σ l τ) :
    ∀ g' ∈ τ.store.runs, (∃ g ∈ σ.store.runs, g.id = g'.id ∧
      Life σ.accepts l.1 l.2 σ.store g (σ.store.taskOf g.id) g' (τ.store.taskOf g.id)) ∨
      Born σ.store g' (τ.store.taskOf g'.id) :=
  (h.gradeStep hσ.keys hσ.inv.owned hσ.finals).life hσ.keys hσ.inv.owned hσ.inv.calls

/-- The transition an old run takes. -/
theorem Sys.Step.life_of_mem {σ τ : Sys} {l : Time × Op} (hσ : σ.Reachable) (h : Sys.Step σ l τ)
    {g : GradingRun} (hg : g ∈ σ.store.runs) :
    ∃ g' ∈ τ.store.runs, g'.id = g.id ∧ SameRun g g' ∧
      Life σ.accepts l.1 l.2 σ.store g (σ.store.taskOf g.id) g' (τ.store.taskOf g.id) := by
  obtain ⟨g', hg', hid, hsame⟩ := (h.evolves hσ.keys).runs.old hg
  refine ⟨g', hg', hid, hsame, ?_⟩
  rcases h.life hσ g' hg' with ⟨h', hh, hhid, hl⟩ | hborn
  · rw [hσ.keys.runs.eq hh hg (hhid.trans hid)] at hl
    exact hl
  · exact absurd hid.symm (hborn.new.id g hg)

end Invariant

end Grading

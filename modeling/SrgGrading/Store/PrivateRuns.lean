import SrgGrading.Store.Calls

/-!
# Private runs

A private run adjusts the score of a public one, its baseline.  What makes this
safe to repeat is that the baseline is a recorded run, which no operation
writes any more, and that the repository is closed, so that its deadline stays.

* `Sys.Step.recorded`: a recorded run stays as it is.
* `Work.step`: what a lease says of a run stays, but for the end of the lease.
* `Sys.private_never_compounds`: the baseline of a private run, its leases and
  its recorded points agree for good, and it is the only one of its kind.
-/

open Fallible Relational

namespace Grading

/-! ### Recorded runs -/

/-- The columns a result is recorded in, but for the status. -/
structure SameResult (g g' : GradingRun) : Prop where
  points : g'.points = g.points
  report : g'.reportDigest = g.reportDigest
  result : g'.resultDigest = g.resultDigest
  publicPoints : g'.publicPoints = g.publicPoints

/-- The worker of a call holds the unexpired lease of the task `t` of the run `g`. -/
structure Fenced (now : Time) (call : Runs.AcceptCall) (g : GradingRun) (t : TaskRow) : Prop where
  run : g.id = call.result.runId
  task : t.id = call.task
  token : t.leaseToken = some call.result.leaseToken
  owner : t.leaseOwner = some call.worker.id
  leased : t.status = .leased
  live : t.live now = true

section Recorded
variable [Sha256] {calls : List Runs.AcceptCall} {now : Time} {op : Op} {s : Store}
  {g g' : GradingRun} {t : TaskRow} {ot ot' : Option TaskRow}

/-- **Only the holder of the lease records a result.** -/
theorem Life.results (h : Life calls now op s g ot g' ot') :
    SameResult g g' ∨ ∃ call, recording calls s now op = some call ∧ ∃ t, ot = some t ∧
      Fenced now call g t ∧ g' = Runs.recordResult call g ∧
        ot' = some { t with status := .done } := by
  cases h with
  | record t call hrec hrun hid htoken howner hleased hlive =>
    exact Or.inr ⟨call, hrec, t, rfl, ⟨hrun, hid, htoken, howner, hleased, hlive⟩, rfl, rfl⟩
  | displace t r submission regrade hop hqueues hpublic hdisplaced hpending =>
    left
    split <;> exact ⟨rfl, rfl, rfl, rfl⟩
  | _ => exact Or.inl ⟨rfl, rfl, rfl, rfl⟩

/-- A run whose task is done moves no more. -/
theorem Life.done (hdone : t.status = .done) (h : Life calls now op s g (some t) g' ot') :
    g' = g ∧ ∃ t', ot' = some t' ∧ SameHold t t' := by
  cases h with
  | stay => exact ⟨rfl, t, rfl, rfl, rfl, rfl, rfl, fun h => h⟩
  | touch _ t' hsame => exact ⟨rfl, t', rfl, hsame⟩
  | revive _ hstatus _ => rcases hstatus with h | h <;> rw [hdone] at h <;> cases h
  | expire _ hleased => rw [hdone] at hleased; cases hleased
  | lease _ owner token hready => simp [TaskRow.ready, hdone] at hready
  | record _ call _ _ _ _ _ hleased _ => rw [hdone] at hleased; cases hleased
  | fail _ _ hfailed => rw [hdone] at hfailed; cases hfailed
  | displace _ _ _ _ _ _ _ _ hpending => rw [hdone] at hpending; cases hpending
  | supersede _ _ hcancelled => rw [hdone] at hcancelled; cases hcancelled

variable {σ τ : Sys} {l : Time × Op}

/-- **A recorded run stays as it is.** -/
theorem Sys.Step.recorded (hσ : σ.Reachable) (h : Sys.Step σ l τ) (hg : g ∈ σ.store.runs)
    (hr : g.resultDigest.isSome = true) : g ∈ τ.store.runs := by
  obtain ⟨g', hg', _, _, hl⟩ := h.life_of_mem hσ hg
  obtain ⟨t, ht, hdone⟩ := (hσ.inv.runs g hg).recorded hr
  rw [ht] at hl
  rw [← (hl.done hdone).1]
  exact hg'

theorem Sys.recorded_run {taken : List (Sys × (Time × Op))} (hσ : σ.Reachable)
    (hrun : Transition.Run Sys.Step σ taken τ) (hg : g ∈ σ.store.runs)
    (hr : g.resultDigest.isSome = true) : g ∈ τ.store.runs := by
  induction hrun with
  | nil => exact hg
  | snoc hrun hst ih => exact Sys.Step.recorded (Transition.Reachable.run hσ hrun) hst ih hr

end Recorded

/-! ### The invariant of private runs -/

/-- The status of a run that failed for no fault of the student. -/
def RunState.excused : RunState → Bool
  | .infrastructureFailed | .timedOut => true
  | _ => false

/-- The repository of a submission is closed. -/
def ClosedFor (s : Store) (submission : Uuid) : Prop :=
  ∃ x ∈ s.submissions, x.id = submission ∧
    ∃ r ∈ s.repositories, r.id = x.repositoryId ∧ r.closureDue = true

/-- `b` is what the private run `g` is to adjust: a completed public run of its
submission with a score. -/
structure RestsOn (g b : GradingRun) : Prop where
  names : g.publicRunId = some b.id
  submission : b.submissionId = g.submissionId
  isPublic : b.publicRunId = none
  completed : b.status = .completed
  scored : b.points.isSome = true

/-- The task of an excused private run is past its attempts. -/
def Spent (ot : Option TaskRow) : Prop :=
  ∃ t, ot = some t ∧ (t.status = .failed ∨ t.status = .done)

/-- The same baseline under the same revision of the grader. -/
structure SameTrial (g h : GradingRun) : Prop where
  isPrivate : g.publicRunId.isSome = true
  baseline : h.publicRunId = g.publicRunId
  revision : h.revisionDigest = g.revisionDigest

/-- What holds of the private runs of a store. -/
structure PrivateRuns (s : Store) : Prop where
  closed : ∀ g ∈ s.runs, g.publicRunId.isSome = true → ClosedFor s g.submissionId
  rests : ∀ g ∈ s.runs, g.publicRunId.isSome = true → ∃ b ∈ s.runs, RestsOn g b
  spent : ∀ g ∈ s.runs, g.publicRunId.isSome = true → g.status.excused = true →
    Spent (s.taskOf g.id)
  /-- Of the runs of one trial only the last may stand. -/
  superseded : ∀ g ∈ s.runs, ∀ h ∈ s.runs, SameTrial g h → g.attempt < h.attempt →
    g.status.excused = true
  attempts : ∀ g ∈ s.runs, ∀ h ∈ s.runs, g.submissionId = h.submissionId →
    g.attempt = h.attempt → g = h

/-- A completed run is recorded. -/
theorem RunInv.completed {g : GradingRun} {ot : Option TaskRow} (h : RunInv g ot)
    (hc : g.status = .completed) : g.resultDigest.isSome = true := by
  cases hd : g.resultDigest with
  | some d => rfl
  | none =>
    have := h.ungraded hd
    rw [hc] at this
    cases this

section Invariant
variable {s s' : Store} {g g' : GradingRun}

theorem SameRun.sameTrial {h h' : GradingRun} (hg : SameRun g g') (hh : SameRun h h')
    (hsame : SameTrial g' h') : SameTrial g h := by
  refine ⟨?_, ?_, ?_⟩
  · rw [← hg.baseline]
    exact hsame.isPrivate
  · rw [← hh.baseline, hsame.baseline, hg.baseline]
  · rw [← hh.revision, hsame.revision, hg.revision]

/-- Closed repositories stay closed. -/
theorem Evolves.closedFor {event : Option Uuid} (h : Evolves (Moves event s'.submissions) s s')
    {submission : Uuid} (hc : ClosedFor s submission) : ClosedFor s' submission := by
  obtain ⟨x, hx, hid, r, hr, hrep, hclosed⟩ := hc
  obtain ⟨x', hx', hid', hxx⟩ := h.submissions.old hx
  obtain ⟨r', hr', hrid, _, hmoves⟩ := h.repositories.old hr
  refine ⟨x', hx', hid'.trans hid, r', hr', ?_, ?_⟩
  · rw [hrid, hrep, hxx.repository]
  · rcases hmoves with hsame | ⟨hopen, _⟩ | ⟨_, hclosed', _⟩
    · exact hsame.1.trans hclosed
    · rw [hclosed] at hopen
      cases hopen
    · exact hclosed'

/-- A private run is inserted for a closed repository. -/
theorem Born.closedFor (hf : Finals s) (hp : PrivateRuns s) {ot : Option TaskRow}
    (h : Born s g ot) (hpriv : g.publicRunId.isSome = true) : ClosedFor s g.submissionId := by
  rcases h.kind with hnone | ⟨b, hb⟩
  · rw [hnone] at hpriv
    cases hpriv
  · rcases hb.first_or_failed with ⟨⟨r, hr, hfinal⟩, _⟩ | ⟨f, hf', hfb, hsub, _⟩
    · obtain ⟨hclosed, x, hx, hid, hrep⟩ := hf r hr _ hfinal
      exact ⟨x, hx, hid, r, hr, hrep.symm, hclosed⟩
    · rw [← hsub]
      exact hp.closed f hf' (by rw [hfb]; rfl)

/-- A private run is inserted on a graded public run. -/
theorem Born.restsOn {ot : Option TaskRow} (h : Born s g ot)
    (hpriv : g.publicRunId.isSome = true) : ∃ b ∈ s.runs, RestsOn g b := by
  rcases h.kind with hnone | ⟨b, hb⟩
  · rw [hnone] at hpriv
    cases hpriv
  · obtain ⟨base, hmem, hid, hsub, hpub, hcompleted, hpoints⟩ := hb.graded
    exact ⟨base, hmem, hb.isPrivate.trans (congrArg some hid.symm), hsub, hpub, hcompleted, hpoints⟩

/-- Runs with one baseline grade one submission. -/
theorem submission_eq_of_baseline (hk : Keys s)
    (hrests : ∀ g ∈ s.runs, g.publicRunId.isSome = true → ∃ b ∈ s.runs, RestsOn g b)
    {f k : GradingRun} (hf : f ∈ s.runs) (hkmem : k ∈ s.runs)
    (hpriv : f.publicRunId.isSome = true) (hsame : k.publicRunId = f.publicRunId) :
    f.submissionId = k.submissionId := by
  obtain ⟨b, hb, hfb⟩ := hrests f hf hpriv
  obtain ⟨c, hc, hkc⟩ := hrests k hkmem (by rw [hsame]; exact hpriv)
  have hbc : b = c := by
    refine hk.runs.eq hb hc (Option.some_inj.mp ?_)
    rw [← hfb.names, ← hkc.names, hsame]
  rw [← hfb.submission, ← hkc.submission, hbc]

/-- When a private run is inserted, the others of its trial are excused. -/
theorem Born.others_excused (hk : Keys s) (hp : PrivateRuns s) {ot : Option TaskRow}
    (h : Born s g ot) {f : GradingRun} (hf : f ∈ s.runs) (hsame : SameTrial f g) :
    f.status.excused = true := by
  rcases h.kind with hnone | ⟨b, hb⟩
  · have hpriv := hsame.isPrivate
    rw [← hsame.baseline, hnone] at hpriv
    cases hpriv
  · have hfb : f.publicRunId = some b := by rw [← hsame.baseline, hb.isPrivate]
    rcases hb.first_or_failed with ⟨_, hno⟩ | ⟨k, hkmem, hkb, hkg, hkrev, hkfailed, hlatest⟩
    · exact absurd hsame.revision.symm (hno f hf hfb)
    · have hkexcused : k.status.excused = true := by
        rcases hkfailed with h | h <;> rw [h] <;> rfl
      have hfk : f.submissionId = k.submissionId :=
        submission_eq_of_baseline hk hp.rests hf hkmem hsame.isPrivate (hkb.trans hfb.symm)
      -- the retried run is the latest of the submission, and may be `f` itself
      have hle : f.attempt ≤ k.attempt := hlatest f hf (hfk.trans hkg)
      by_cases heq : f.attempt = k.attempt
      · rw [hp.attempts f hf k hkmem hfk heq]
        exact hkexcused
      · refine hp.superseded f hf k hkmem ⟨hsame.isPrivate, ?_, ?_⟩ (lt_of_le_of_ne hle heq)
        · exact hkb.trans hfb.symm
        · exact hkrev.trans hsame.revision

end Invariant

section Steps
variable [Sha256] {calls : List Runs.AcceptCall} {now : Time} {op : Op} {s : Store}
  {g g' : GradingRun} {ot ot' : Option TaskRow}

/-- An excused private run of a closed repository is neither revived nor leased. -/
theorem Life.excused (hk : Keys s) (hc : ClosedFor s g.submissionId) (hinv : RunInv g ot)
    (hpriv : g.publicRunId.isSome = true) (hspent : g.status.excused = true → Spent ot)
    (h : Life calls now op s g ot g' ot') :
    (g.status.excused = true → g'.status.excused = true) ∧
      (g'.status.excused = true → Spent ot') := by
  cases h with
  | stay => exact ⟨id, hspent⟩
  | touch t t' hsame =>
    refine ⟨id, fun he => ?_⟩
    obtain ⟨u, hu, hstatus⟩ := hspent he
    rw [Option.some_inj] at hu
    exact ⟨t', rfl, by rw [hsame.status, hu]; exact hstatus⟩
  | revive t hstatus hopen =>
    obtain ⟨x, hx, hid, r, hr, hrep, hclosed⟩ := hc
    obtain ⟨y, hy, hyid, q, hq, hqrep, hqopen⟩ := hopen
    have hxy : x = y := hk.submissions.eq hx hy (hid.trans hyid.symm)
    have hrq : r = q := hk.repositories.eq hr hq (by rw [hrep, hqrep, hxy])
    rw [hrq, hqopen] at hclosed
    cases hclosed
  | expire t hleased => exact ⟨id, fun _ => ⟨_, rfl, Or.inl rfl⟩⟩
  | lease t owner token hready =>
    refine ⟨fun he => ?_, fun he => by cases he⟩
    obtain ⟨u, hu, hstatus⟩ := hspent he
    rw [Option.some_inj] at hu
    rw [hu] at hready
    rcases hstatus with h | h <;> simp [TaskRow.ready, h] at hready
  | record t call hrec hrun hid htoken howner hleased hlive =>
    refine ⟨fun he => ?_, fun _ => ⟨_, rfl, Or.inr rfl⟩⟩
    obtain ⟨u, hu, hstatus⟩ := hspent he
    rw [Option.some_inj] at hu
    rcases hstatus with h | h <;> rw [← hu, hleased] at h <;> cases h
  | fail t hrun hfailed => exact ⟨fun _ => rfl, fun _ => ⟨t, rfl, Or.inl hfailed⟩⟩
  | displace t r submission regrade hop hqueues hpublic hdisplaced hpending =>
    rw [hpublic] at hpriv
    cases hpriv
  | supersede t hrun hcancelled =>
    -- a pending run has a pending task
    obtain ⟨u, hu, hpending⟩ := hinv.waiting hrun
    rw [Option.some_inj] at hu
    rw [← hu, hcancelled] at hpending
    cases hpending

variable {σ τ : Sys} {l : Time × Op}

/-- A run after a step is one from before it, or new. -/
theorem Sys.Step.run_origin (hσ : σ.Reachable) (h : Sys.Step σ l τ) {g' : GradingRun}
    (hg' : g' ∈ τ.store.runs) :
    (∃ g ∈ σ.store.runs, g.id = g'.id ∧ SameRun g g' ∧
      Life σ.accepts l.1 l.2 σ.store g (σ.store.taskOf g.id) g' (τ.store.taskOf g'.id)) ∨
      Born σ.store g' (τ.store.taskOf g'.id) := by
  rcases h.life hσ g' hg' with ⟨g, hg, hid, hl⟩ | hborn
  · obtain ⟨g'', hg'', hid'', hsame, _⟩ := h.life_of_mem hσ hg
    have heq : g'' = g' := ((h.evolves hσ.keys).runs.keyed hσ.keys.runs).eq hg'' hg' (hid''.trans hid)
    rw [heq] at hsame
    refine Or.inl ⟨g, hg, hid, hsame, ?_⟩
    rw [← hid]
    exact hl
  · exact Or.inr hborn

/-- A step inserts at most one run. -/
theorem GradeStep.inserts {s' : Store} (h : GradeStep calls now op s s') :
    ∃ p f, ∃ new : Option GradingRun, s'.runs = updateWhere p f s.runs ++ new.toList ∧
      ∀ g : GradingRun, (f g).id = g.id := by
  have hkept : ∀ {rows}, s'.runs = s.runs ++ rows →
      s'.runs = updateWhere (fun _ => false) id s.runs ++ rows :=
    fun h => by rw [updateWhere_none, h]
  have hidle : s'.runs = s.runs → s'.runs = updateWhere (fun _ => false) id s.runs ++ [] :=
    fun h => by rw [updateWhere_none, List.append_nil, h]
  cases h with
  | idle h => exact ⟨_, _, none, hidle h.runs, fun _ => rfl⟩
  | revived _ _ _ _ _ _ runs => exact ⟨_, _, none, hidle runs, fun _ => rfl⟩
  | heartbeat _ _ _ runs => exact ⟨_, _, none, hidle runs, fun _ => rfl⟩
  | expired runs => exact ⟨_, _, none, hidle runs, fun _ => rfl⟩
  | leased _ _ _ _ _ _ runs =>
    exact ⟨_, _, none, runs.trans (List.append_nil _).symm, fun _ => rfl⟩
  | recorded _ _ _ _ _ _ _ _ _ runs =>
    exact ⟨_, _, none, runs.trans (List.append_nil _).symm, fun _ => rfl⟩
  | skipped g _ _ _ runs => exact ⟨_, _, some g, hkept runs, fun _ => rfl⟩
  | queued g _ _ _ _ _ _ _ _ _ runs => exact ⟨_, _, some g, runs, fun _ => rfl⟩
  | queuedPrivate g _ _ _ _ _ _ runs => exact ⟨_, _, some g, hkept runs, fun _ => rfl⟩
  | failed runs => exact ⟨_, _, none, runs.trans (List.append_nil _).symm, fun _ => rfl⟩

/-- Two runs a step inserts are one. -/
theorem Sys.Step.born_eq (hσ : σ.Reachable) (h : Sys.Step σ l τ) (hg : g ∈ τ.store.runs)
    (hg' : g' ∈ τ.store.runs) (hb : Born σ.store g ot) (hb' : Born σ.store g' ot') : g = g' := by
  obtain ⟨p, f, new, hruns, hid⟩ := (h.gradeStep hσ.keys hσ.inv.owned hσ.finals).inserts
  have hnew : ∀ {k : GradingRun} {o : Option TaskRow}, k ∈ τ.store.runs → Born σ.store k o →
      new = some k := by
    intro k o hk hborn
    rw [hruns] at hk
    rcases List.mem_append.mp hk with hold | hnew
    · obtain ⟨m, hm, rfl⟩ := mem_updateWhere.mp hold
      refine absurd ?_ (hborn.new.id m hm)
      split
      · exact (hid m).symm
      · rfl
    · exact Option.mem_toList.mp hnew
  rw [← Option.some_inj, ← hnew hg hb, hnew hg' hb']

/-- A step keeps what holds of private runs. -/
theorem Sys.Step.privateRuns (hσ : σ.Reachable) (hp : PrivateRuns σ.store)
    (h : Sys.Step σ l τ) : PrivateRuns τ.store := by
  have hk := hσ.keys
  have hev := h.evolves hk
  have hbase : ∀ {g b : GradingRun}, b ∈ σ.store.runs → RestsOn g b → b ∈ τ.store.runs :=
    fun hb hr => h.recorded hσ hb ((hσ.inv.runs _ hb).completed hr.completed)
  have hlife : ∀ {g g' : GradingRun}, g ∈ σ.store.runs → g'.publicRunId.isSome = true →
      SameRun g g' →
      Life σ.accepts l.1 l.2 σ.store g (σ.store.taskOf g.id) g' (τ.store.taskOf g'.id) →
      (g.status.excused = true → g'.status.excused = true) ∧
        (g'.status.excused = true → Spent (τ.store.taskOf g'.id)) := by
    intro g g' hg hpriv hsame hl
    rw [hsame.baseline] at hpriv
    exact hl.excused hk (hp.closed g hg hpriv) (hσ.inv.runs g hg) hpriv (hp.spent g hg hpriv)
  have hrests : ∀ g ∈ τ.store.runs, g.publicRunId.isSome = true →
      ∃ b ∈ τ.store.runs, RestsOn g b := by
    intro g' hg' hpriv
    rcases h.run_origin hσ hg' with ⟨g, hg, _, hsame, _⟩ | hborn
    · rw [hsame.baseline] at hpriv
      obtain ⟨b, hb, hr⟩ := hp.rests g hg hpriv
      refine ⟨b, hbase hb hr, hsame.baseline.trans hr.names, ?_, hr.isPublic, hr.completed,
        hr.scored⟩
      rw [hsame.submission]
      exact hr.submission
    · obtain ⟨b, hb, hr⟩ := hborn.restsOn hpriv
      exact ⟨b, hbase hb hr, hr⟩
  refine ⟨?_, hrests, ?_, ?_, ?_⟩
  · intro g' hg' hpriv
    rcases h.run_origin hσ hg' with ⟨g, hg, _, hsame, _⟩ | hborn
    · rw [hsame.baseline] at hpriv
      rw [hsame.submission]
      exact hev.closedFor (hp.closed g hg hpriv)
    · exact hev.closedFor (hborn.closedFor hσ.finals hp hpriv)
  · intro g' hg' hpriv he
    rcases h.run_origin hσ hg' with ⟨g, hg, _, hsame, hl⟩ | hborn
    · exact (hlife hg hpriv hsame hl).2 he
    · rcases hborn.task with ⟨_, hnone, _⟩ | ⟨hpending, _⟩
      · rw [hnone] at hpriv
        cases hpriv
      · rw [hpending] at he
        cases he
  · intro g' hg' f' hf' htrial hlt
    have hsub := submission_eq_of_baseline (hev.keys hk) hrests hg' hf' htrial.isPrivate
      htrial.baseline
    rcases h.run_origin hσ hg' with ⟨g, hg, _, hgsame, hgl⟩ | hgborn
    · refine (hlife hg htrial.isPrivate hgsame hgl).1 ?_
      rcases h.run_origin hσ hf' with ⟨f, hf, _, hfsame, _⟩ | hfborn
      · rw [hgsame.attempt, hfsame.attempt] at hlt
        exact hp.superseded g hg f hf (hgsame.sameTrial hfsame htrial) hlt
      · exact hfborn.others_excused hk hp hg (hgsame.sameTrial (.refl f') htrial)
    -- a new run is the latest of its submission
    · rcases h.run_origin hσ hf' with ⟨f, hf, _, hfsame, _⟩ | hfborn
      · have hless := hgborn.new.attempt f hf (hfsame.submission.symm.trans hsub.symm)
        rw [hfsame.attempt] at hlt
        exact absurd hlt (lt_asymm hless)
      · rw [h.born_eq hσ hg' hf' hgborn hfborn] at hlt
        exact absurd hlt (lt_irrefl _)
  · intro g' hg' f' hf' hsub hatt
    rcases h.run_origin hσ hg' with ⟨g, hg, hgid, hgsame, _⟩ | hgborn
    · rcases h.run_origin hσ hf' with ⟨f, hf, hfid, hfsame, _⟩ | hfborn
      · rw [hgsame.submission, hfsame.submission] at hsub
        rw [hgsame.attempt, hfsame.attempt] at hatt
        have hgf := hp.attempts g hg f hf hsub hatt
        exact (hev.keys hk).runs.eq hg' hf' (by rw [← hgid, ← hfid, hgf])
      · rw [hgsame.submission] at hsub
        have hless := hfborn.new.attempt g hg hsub
        rw [← hatt, hgsame.attempt] at hless
        exact absurd hless (lt_irrefl _)
    · rcases h.run_origin hσ hf' with ⟨f, hf, _, hfsame, _⟩ | hfborn
      · rw [hfsame.submission] at hsub
        have hless := hgborn.new.attempt f hf hsub.symm
        rw [hatt, hfsame.attempt] at hless
        exact absurd hless (lt_irrefl _)
      · exact h.born_eq hσ hg' hf' hgborn hfborn

omit [Sha256] in
theorem Sys.Initial.privateRuns (h : σ.Initial) : PrivateRuns σ.store := by
  have hno : ∀ g, g ∉ σ.store.runs := by
    intro g hg
    rw [h.runs] at hg
    cases hg
  exact ⟨fun g hg => absurd hg (hno g), fun g hg => absurd hg (hno g),
    fun g hg => absurd hg (hno g), fun g hg => absurd hg (hno g), fun g hg => absurd hg (hno g)⟩

theorem Sys.Reachable.privateRuns (h : σ.Reachable) : PrivateRuns σ.store := by
  refine Transition.Reachable.invariant (I := fun σ => PrivateRuns σ.store)
    (fun _ h0 => h0.privateRuns) ?_ h
  intro _ _ _ hσ hp hst
  exact Sys.Step.privateRuns hσ hp hst

end Steps

/-! ### What a lease says of a run -/

section Leases

/-- The pinned revision and the deadline of a closed repository stay. -/
theorem Evolves.pinned {event : Option Uuid} {s s' : Store}
    (h : Evolves (Moves event s'.submissions) s s') {id : Uuid} {p : Store.Pinned}
    (hp : s.fetchPinned id = .ok p) :
    ∃ p', s'.fetchPinned id = .ok p' ∧
      (p.repository.closureDue = true → p'.deadline = p.deadline) := by
  simp only [Store.fetchPinned, Store.fetchRepository, Store.fetchRevision, bind_ok, fetchOne_ok,
    pure_ok] at hp ⊢
  obtain ⟨r, hr, v, hv, rfl⟩ := hp
  obtain ⟨r', hr', hsame, _⟩ := h.repositories.lookup_some hr
  obtain ⟨v', hv', rfl⟩ := h.revisions.lookup_some hv
  refine ⟨_, ⟨r', hr', v, hsame.revision ▸ hv', rfl⟩, fun hclosed => ?_⟩
  have hid : r'.id = r.id := (key_of_lookup hr').trans (key_of_lookup hr).symm
  rw [Store.effectiveDeadline, Store.effectiveDeadline, hid,
    h.extensions r (mem_of_lookup hr) hclosed]

/-- The baseline of a private run, as its lease looks it up. -/
theorem PrivateRuns.lookup_baseline {s : Store} (hk : Keys s) (hp : PrivateRuns s) {g : GradingRun}
    (hg : g ∈ s.runs) {id : Uuid} (hid : g.publicRunId = some id) :
    ∃ b ∈ s.runs, RestsOn g b ∧ lookup GradingRun.id id s.runs = some b := by
  obtain ⟨b, hb, hr⟩ := hp.rests g hg (by rw [hid]; rfl)
  refine ⟨b, hb, hr, (lookup_eq_some hk.runs).mpr ⟨hb, ?_⟩⟩
  rw [hr.names, Option.some_inj] at hid
  exact hid

variable [Sha256] {σ τ : Sys} {l : Time × Op}

/-- **What a lease says of a run stays** from one step to the next. -/
theorem Work.step (hσ : σ.Reachable) (h : Sys.Step σ l τ) {now now' : Time} (hle : now ≤ now')
    {worker : Worker} {run : Uuid} {lease : Lease} (hw : Work σ.store now worker run lease) :
    Work τ.store now' worker run lease := by
  obtain ⟨g, hg, x, v, p, hj⟩ := hw
  have hev := h.evolves hσ.keys
  rw [Store.fetchRun, fetchOne_ok] at hg
  have hx := hj.submission
  have hv := hj.revision
  rw [Store.fetchSubmission, fetchOne_ok] at hx
  rw [Store.fetchRevision, fetchOne_ok] at hv
  obtain ⟨g', hg', hgsame⟩ := hev.runs.lookup_some hg
  obtain ⟨x', hx', hxsame⟩ := hev.submissions.lookup_some hx
  obtain ⟨v', hv', rfl⟩ := hev.revisions.lookup_some hv
  obtain ⟨p', hp', hdeadline⟩ := hev.pinned hj.pinned
  have hclosed : g.publicRunId.isSome = true → p'.deadline = p.deadline := by
    intro hpriv
    obtain ⟨y, hy, hyid, r, hr, hrep, hclosed⟩ :=
      hσ.privateRuns.closed g (mem_of_lookup hg) hpriv
    have hyx : y = x :=
      hσ.keys.submissions.eq hy (mem_of_lookup hx) (hyid.trans (key_of_lookup hx).symm)
    obtain ⟨hpmem, hpid, _⟩ := Store.fetchPinned_ok hj.pinned
    have hrp : r = p.repository := hσ.keys.repositories.eq hr hpmem (by rw [hrep, hyx, hpid])
    exact hdeadline (hrp ▸ hclosed)
  have hid : lease.runId = g'.id :=
    hj.runId.trans ((key_of_lookup hg).trans (key_of_lookup hg').symm)
  refine ⟨g', fetchOne_ok.mpr hg', x', v, p', ?_, ?_, ?_, ?_, hj.decodes, hj.caps, hj.valid,
    hj.stored.trans hgsame.revision.symm, hid, hj.sha.trans hxsame.sha.symm,
    hj.revisionDigest.trans hgsame.revision.symm, hxsame.source _ hj.source, hj.definition, ?_⟩
  · rw [hgsame.submission]
    exact fetchOne_ok.mpr hx'
  · rw [hgsame.revision]
    exact fetchOne_ok.mpr hv'
  · rw [hxsame.repository]
    exact hp'
  · have hdue := hj.due
    rw [hgsame.baseline]
    cases hpub : g.publicRunId with
    | none => rfl
    | some b =>
      rw [hpub, Option.isNone_some, Bool.false_or, decide_eq_true_eq] at hdue
      rw [Option.isNone_some, Bool.false_or, decide_eq_true_eq, hclosed (by rw [hpub]; rfl)]
      exact lt_of_lt_of_le hdue hle
  · have hbase := hj.baseline
    rw [Runs.baselineOf, hgsame.baseline]
    rw [Runs.baselineOf] at hbase
    cases hpub : g.publicRunId with
    | none =>
      rw [hpub] at hbase
      exact hbase
    | some id =>
      obtain ⟨b, hb, hrests, hlookup⟩ :=
        hσ.privateRuns.lookup_baseline hσ.keys (mem_of_lookup hg) hpub
      -- the baseline is recorded, and the deadline of the closed repository stays
      have hb' : b ∈ τ.store.runs :=
        h.recorded hσ hb ((hσ.inv.runs b hb).completed hrests.completed)
      have hlookup' : lookup GradingRun.id id τ.store.runs = some b :=
        (lookup_eq_some (hev.keys hσ.keys).runs).mpr ⟨hb', key_of_lookup hlookup⟩
      rw [hpub] at hbase
      simp only [hlookup] at hbase
      simp only [hlookup', hclosed (by rw [hpub]; rfl)]
      exact hbase

end Leases

/-! ### Points -/

/-- The public points of a recorded run: its own points, or its baseline's. -/
structure Scored (s : Store) (g : GradingRun) : Prop where
  own : g.publicRunId = none → g.publicPoints = g.points
  baseline : ∀ b ∈ s.runs, RestsOn g b → g.publicPoints = b.points

section Points
variable [Sha256]

/-- What the calls in flight are worth, and what the recorded ones were. -/
structure Scores (σ : Sys) : Prop where
  work : ∀ call ∈ σ.accepts, Work σ.store σ.clock call.worker call.result.runId call.lease
  valid : ∀ call ∈ σ.accepts, call.result.validate call.lease = .ok call.points
  scored : ∀ g ∈ σ.store.runs, g.resultDigest.isSome = true → Scored σ.store g

variable {s : Store} {σ τ : Sys} {l : Time × Op} {g g' : GradingRun}

/-- A lease carries the points of the baseline, and none of a public run. -/
theorem Joined.points (hk : Keys s)
    (hscored : ∀ b ∈ s.runs, b.status = .completed → Scored s b) {now : Time} {worker : Worker}
    {lease : Lease} {x : Submission} {v : AssignmentRevision} {p : Store.Pinned}
    (hj : Joined s now worker lease g x v p) :
    (g.publicRunId = none → lease.baseline = none) ∧
      ∀ b ∈ s.runs, RestsOn g b → lease.baseline.map PublicBaseline.points = b.points := by
  have hbase := hj.baseline
  rw [Runs.baselineOf] at hbase
  refine ⟨fun hpub => ?_, fun b hb hr => ?_⟩
  · rw [hpub] at hbase
    exact (pure_ok.mp hbase).symm
  · have hlookup : lookup GradingRun.id b.id s.runs = some b :=
      (lookup_eq_some hk.runs).mpr ⟨hb, rfl⟩
    have hown : b.publicPoints = b.points := (hscored b hb hr.completed).own hr.isPublic
    rw [hr.names] at hbase
    simp only [hlookup, bind_ok, fetchOne_ok, Option.some_inj, pure_ok] at hbase
    obtain ⟨c, rfl, points, hpoints, _, _, hlease⟩ := hbase
    rw [hown, Option.or_self] at hpoints
    rw [← hlease, hpoints]
    rfl

/-- The public points a call records. -/
theorem Scored.record (hk : Keys s) (hscored : ∀ b ∈ s.runs, b.status = .completed → Scored s b)
    {now : Time} {call : Runs.AcceptCall} (hg : g ∈ s.runs) (hid : g.id = call.result.runId)
    (hw : Work s now call.worker call.result.runId call.lease) :
    ((Runs.recordResult call g).publicRunId = none →
      (Runs.recordResult call g).publicPoints = (Runs.recordResult call g).points) ∧
    ∀ b ∈ s.runs, RestsOn g b → (Runs.recordResult call g).publicPoints = b.points := by
  obtain ⟨h, hh, x, v, p, hj⟩ := hw
  rw [Store.fetchRun, fetchOne_ok] at hh
  have hgh : h = g := hk.runs.eq (mem_of_lookup hh) hg ((key_of_lookup hh).trans hid.symm)
  rw [hgh] at hj
  obtain ⟨hnone, hsome⟩ := hj.points hk hscored
  refine ⟨fun hpub => ?_, fun b hb hr => ?_⟩
  · rw [Runs.recordResult, hnone hpub]
    rfl
  · obtain ⟨k, hk'⟩ := Option.isSome_iff_exists.mp hr.scored
    rw [Runs.recordResult, hsome b hb hr, hk']
    rfl

/-- The baseline of an old run was there before. -/
theorem Sys.Step.restsOn (hσ : σ.Reachable) (h : Sys.Step σ l τ) {b : GradingRun}
    (hg : g ∈ σ.store.runs) (hsame : SameRun g g') (hb : b ∈ τ.store.runs) (hr : RestsOn g' b) :
    b ∈ σ.store.runs ∧ RestsOn g b := by
  have hnames := hr.names
  rw [hsame.baseline] at hnames
  obtain ⟨c, hc, hgc⟩ := hσ.privateRuns.rests g hg (by rw [hnames]; rfl)
  have hc' : c ∈ τ.store.runs := h.recorded hσ hc ((hσ.inv.runs c hc).completed hgc.completed)
  have hbc : b = c := by
    refine ((h.evolves hσ.keys).keys hσ.keys).runs.eq hb hc' (Option.some_inj.mp ?_)
    rw [← hnames, hgc.names]
  rw [hbc]
  exact ⟨hc, hgc⟩

/-- A run that was recorded stays scored, and so is one that is recorded now. -/
theorem Sys.Step.scores (hσ : σ.Reachable) (hs : Scores σ) (h : Sys.Step σ l τ) :
    Scores τ := by
  have hcompleted : ∀ b ∈ σ.store.runs, b.status = .completed → Scored σ.store b :=
    fun b hb hc => hs.scored b hb ((hσ.inv.runs b hb).completed hc)
  have hclock : σ.clock ≤ τ.clock ∧ τ.clock = l.1 := by
    obtain ⟨hle, _, rfl⟩ := h
    exact ⟨hle, rfl⟩
  refine ⟨fun call hcall => ?_, fun call hcall => ?_, fun g' hg' hr => ?_⟩
  · rcases h.accepts hcall with ⟨c, hc, heq⟩ | ⟨worker, task, result, hnew⟩
    · rw [heq]
      exact (hs.work c hc).step hσ h hclock.1
    · obtain ⟨t, ht, hid, hsub⟩ := acceptLease_task hnew
      obtain ⟨lease, points, ⟨⟨u, hu, _, _, hw⟩, _⟩, _, rfl⟩ := acceptLease_ok.mp hnew
      obtain ⟨humem, huid, _⟩ := ownedTask_some hu
      have htu : t = u := hσ.keys.tasks.eq (mem_gradeTasks.mp ht).1 (mem_gradeTasks.mp humem).1
        (hid.trans huid.symm)
      rw [← htu, hsub] at hw
      exact hw.step hσ h (le_of_eq hclock.2.symm)
  · rcases h.accepts hcall with ⟨c, hc, heq⟩ | ⟨worker, task, result, hnew⟩
    · rw [heq]
      exact hs.valid c hc
    · obtain ⟨lease, points, _, hvalid, rfl⟩ := acceptLease_ok.mp hnew
      exact hvalid
  · rcases h.run_origin hσ hg' with ⟨g, hg, _, hsame, hl⟩ | hborn
    · by_cases hwas : g.resultDigest.isSome = true
      · obtain ⟨t, ht, hdone⟩ := (hσ.inv.runs g hg).recorded hwas
        rw [ht] at hl
        obtain ⟨rfl, _⟩ := hl.done hdone
        have hscored := hs.scored g' hg hwas
        refine ⟨hscored.own, fun b hb hrests => ?_⟩
        obtain ⟨hb', hrests'⟩ := h.restsOn hσ hg hsame hb hrests
        exact hscored.baseline b hb' hrests'
      · rcases hl.results with hres | ⟨call, hrec, t, _, hfenced, rfl, _⟩
        · rw [hres.result] at hr
          exact absurd hr hwas
        · have hw := hs.work call (mem_of_recording hrec)
          obtain ⟨hown, hbaseline⟩ := Scored.record hσ.keys hcompleted hg hfenced.run hw
          refine ⟨hown, fun b hb hrests => ?_⟩
          obtain ⟨hb', hrests'⟩ := h.restsOn hσ hg hsame hb hrests
          exact hbaseline b hb' hrests'
    · rw [hborn.new.ungraded] at hr
      cases hr

theorem Sys.Reachable.scores (h : σ.Reachable) : Scores σ := by
  refine Transition.Reachable.invariant (I := Scores) (fun σ h0 => ⟨?_, ?_, ?_⟩) ?_ h
  · intro call hcall
    rw [h0.accepts] at hcall
    cases hcall
  · intro call hcall
    rw [h0.accepts] at hcall
    cases hcall
  · intro g hg
    rw [h0.runs] at hg
    cases hg
  · intro _ _ _ hσ hs hst
    exact Sys.Step.scores hσ hs hst

/-- What the private run `g` adjusts is the score `k` of `b`: `b` is there
unchanged, every lease of `g` carries `k`, and a result of `g` keeps it. -/
structure Adjusts (σ : Sys) (g b : GradingRun) (k : Int) : Prop where
  kept : b ∈ σ.store.runs
  leased : ∀ now worker task token allowDone lease,
    Runs.ownedLease σ.store now worker task token allowDone = .ok lease → lease.runId = g.id →
      lease.baseline.map PublicBaseline.points = some k
  recorded : ∀ g' ∈ σ.store.runs, g'.id = g.id → g'.resultDigest.isSome = true →
    g'.publicPoints = some k

theorem Sys.Reachable.adjusts (hσ : σ.Reachable) {b : GradingRun} {k : Int}
    (hg : g ∈ σ.store.runs) (hb : b ∈ σ.store.runs) (hr : RestsOn g b)
    (hk : b.points = some k) : Adjusts σ g b k where
  kept := hb
  leased := by
    intro now worker task token allowDone lease hlease hid
    obtain ⟨⟨t, _, _, _, h, hh, x, v, p, hj⟩, _⟩ := ownedLease_ok.mp hlease
    rw [Store.fetchRun, fetchOne_ok] at hh
    have hhg : h = g := hσ.keys.runs.eq (mem_of_lookup hh) hg (hj.runId.symm.trans hid)
    rw [hhg] at hj
    rw [← hk]
    refine (hj.points hσ.keys fun c hc hcompleted => ?_).2 b hb hr
    exact hσ.scores.scored c hc ((hσ.inv.runs c hc).completed hcompleted)
  recorded := by
    intro g' hg' hid hrec
    rw [hσ.keys.runs.eq hg' hg hid] at hrec ⊢
    rw [(hσ.scores.scored g hg hrec).baseline b hb hr, hk]

/-- A run of the system keeps what a private run rests on. -/
theorem Sys.restsOn_run {taken : List (Sys × (Time × Op))} (hσ : σ.Reachable)
    (hrun : Transition.Run Sys.Step σ taken τ) (hg : g ∈ σ.store.runs) :
    ∃ g' ∈ τ.store.runs, g'.id = g.id ∧ SameRun g g' := by
  induction hrun with
  | nil => exact ⟨g, hg, rfl, .refl g⟩
  | snoc hrun hst ih =>
    obtain ⟨g', hg', hid, hsame⟩ := ih
    obtain ⟨g'', hg'', hid', hsame', _⟩ :=
      Sys.Step.life_of_mem (Transition.Reachable.run hσ hrun) hst hg'
    exact ⟨g'', hg'', hid'.trans hid, hsame.trans hsame'⟩

/-- **Private grading never compounds.**  In every reachable state a private run
rests on a completed public run of its submission with `k` points, and adjusts
these from then on; of the runs with one baseline and one revision at most one
is not excused; and the runs of a submission have different attempts. -/
theorem Sys.private_never_compounds (hσ : σ.Reachable) :
    (∀ g ∈ σ.store.runs, ∀ id, g.publicRunId = some id →
      ∃ b ∈ σ.store.runs, ∃ k, b.id = id ∧ b.submissionId = g.submissionId ∧
        b.publicRunId = none ∧ b.status = .completed ∧ b.points = some k ∧
        ∀ taken τ, Transition.Run Sys.Step σ taken τ → Adjusts τ g b k) ∧
    (∀ g ∈ σ.store.runs, ∀ h ∈ σ.store.runs, SameTrial g h →
      g.status.excused = false → h.status.excused = false → g = h) ∧
    ∀ g ∈ σ.store.runs, ∀ h ∈ σ.store.runs, g.submissionId = h.submissionId →
      g.attempt = h.attempt → g = h := by
  have hp := hσ.privateRuns
  refine ⟨fun g hg id hid => ?_, fun g hg h hh htrial hgs hhs => ?_, hp.attempts⟩
  · obtain ⟨b, hb, hr, hlookup⟩ := hp.lookup_baseline hσ.keys hg hid
    obtain ⟨k, hk⟩ := Option.isSome_iff_exists.mp hr.scored
    refine ⟨b, hb, k, key_of_lookup hlookup, hr.submission, hr.isPublic, hr.completed, hk, ?_⟩
    intro taken τ hrun
    have hτ : Sys.Reachable τ := Transition.Reachable.run hσ hrun
    have hb' := Sys.recorded_run hσ hrun hb ((hσ.inv.runs b hb).completed hr.completed)
    obtain ⟨g', hg', hid', hsame⟩ := Sys.restsOn_run hσ hrun hg
    have hr' : RestsOn g' b := ⟨hsame.baseline.trans hr.names,
      hr.submission.trans hsame.submission.symm, hr.isPublic, hr.completed, hr.scored⟩
    have ha := hτ.adjusts hg' hb' hr' hk
    exact ⟨hb', fun now worker task token allowDone lease hl hrun =>
      ha.leased now worker task token allowDone lease hl (hrun.trans hid'.symm),
      fun f hf hfid => ha.recorded f hf (hfid.trans hid'.symm)⟩
  · have hsub := submission_eq_of_baseline hσ.keys hp.rests hg hh htrial.isPrivate htrial.baseline
    rcases lt_trichotomy g.attempt h.attempt with hlt | heq | hgt
    · rw [hp.superseded g hg h hh htrial hlt] at hgs
      cases hgs
    · exact hp.attempts g hg h hh hsub heq
    · have hback : SameTrial h g := ⟨by rw [htrial.baseline]; exact htrial.isPrivate,
        htrial.baseline.symm, htrial.revision.symm⟩
      rw [hp.superseded h hh g hg hback hgt] at hhs
      cases hhs

end Points

/-! ### A private run -/

namespace Sample

attribute [local instance] Sha256.standard

/-- Submission 21 is queued and leased to `worker`. -/
def leasing : List (Time × Op) :=
  captured ++ [(second 5, enqueue 50 21 false), (second 6, leaseAs 60)]

def leased : Sys := (start.play leasing).getD start

/-- The lease of its run. -/
def lease : Lease where
  schemaVersion := 1
  taskId := 51
  runId := 50
  leaseToken := 60
  expiresAt := second 126
  sha := shaB
  revisionDigest := revisionDigest
  sourceDigest := sourceDigest
  revision := revision
  baseline := none

/-- The call of `accept` with 7 points, in flight. -/
def call : Runs.AcceptCall := ⟨worker, 51, passed 50 60 7, lease, some 7, .validated⟩

theorem passed_valid : (passed 50 60 7).validate lease = .ok (some 7) := by
  rw [RunResult.validate, show lease.revision.validate = .ok () from revision_checked.1]
  decide +kernel

theorem acceptLease_call : Runs.acceptLease leased.store (second 7) worker 51 (passed 50 60 7) =
    .ok call := by
  have key : ((Runs.ownedTask leased.store (second 7) worker 51 60 true).any (fun t =>
        t.id = 51 && t.leaseUntil = some lease.expiresAt && t.subject = 50) &&
      (lookup GradingRun.id 50 leased.store.runs).any (fun g => g.submissionId = 21 &&
        g.revisionDigest = revisionDigest && g.publicRunId.isNone) &&
      (lookup Submission.id 21 leased.store.submissions).any (fun x => x.repositoryId = 3 &&
        x.sha = shaB && x.sourceDigest = some sourceDigest) &&
      lookup AssignmentRevision.digest revisionDigest leased.store.revisions = some revisionRow &&
      (leased.store.fetchPinned 3).isOk) = true := by
    decide +kernel
  simp only [Bool.and_eq_true, Option.any_eq_true, decide_eq_true_eq,
    Option.isNone_iff_eq_none] at key
  obtain ⟨⟨⟨⟨⟨t, ht, ⟨htid, huntil⟩, hsubject⟩, g, hg, ⟨hgsub, hgrev⟩, hpublic⟩, x, hx,
    ⟨hrep, hsha⟩, hsource⟩, hrevision⟩, hpinned⟩ := key
  obtain ⟨p, hp⟩ : ∃ p, leased.store.fetchPinned 3 = .ok p := by
    cases hp : leased.store.fetchPinned 3 with
    | ok p => exact ⟨p, rfl⟩
    | error e => rw [hp] at hpinned; cases hpinned
  have hgid := key_of_lookup hg
  refine acceptLease_ok.mpr ⟨lease, some 7, ⟨⟨t, ht, htid.symm, huntil, g, ?_, x, revisionRow, p,
    ?_⟩, rfl, rfl⟩, passed_valid, rfl⟩
  · rw [hsubject]
    exact fetchOne_ok.mpr hg
  · refine ⟨?_, ?_, ?_, ?_, ?_, ⟨_, rfl, ?_⟩, revision_checked.1, revision_checked.2.trans hgrev.symm,
      hgid.symm, hsha.symm, hgrev.symm, hsource, rfl, ?_⟩
    · rw [hgsub]
      exact fetchOne_ok.mpr hx
    · rw [hgrev]
      exact fetchOne_ok.mpr hrevision
    · rw [hrep]
      exact hp
    · rw [hpublic]
      rfl
    · decide +kernel
    · decide +kernel
    · rw [Runs.baselineOf, hpublic]
      rfl

/-- The worker reports the result. -/
def reporting : Time × Op := (second 7, .acceptLease worker 51 (passed 50 60 7))

theorem play_reporting (rest : List (Time × Op)) :
    start.play (leasing ++ reporting :: rest) =
      Sys.play ⟨leased.store, second 7, [call]⟩ rest := by
  have key : ((start.play leasing).isSome && decide (leased.clock ≤ second 7) &&
      leased.accepts.isEmpty) = true := by
    decide +kernel
  simp only [Bool.and_eq_true, decide_eq_true_eq, List.isEmpty_iff] at key
  obtain ⟨⟨hplay, hclock⟩, haccepts⟩ := key
  obtain ⟨σ, hσ⟩ := Option.isSome_iff_exists.mp hplay
  have hleased : leased = σ := by rw [leased, hσ]; rfl
  rw [Sys.play_append, hσ, ← hleased, Option.bind_some, reporting,
    Sys.play_acceptLease hclock acceptLease_call, haccepts, List.nil_append]

/-- The call ends with the result recorded. -/
def committing : List (Time × Op) :=
  [(second 7, .acceptExisting 0), (second 7, .acceptPut 0), (second 7, .acceptCommit 0 (ids 80))]

/-- The public run is recorded with 7 points, and a private one queued after the
deadline. -/
def adjusting : List (Time × Op) :=
  leasing ++ reporting :: (committing ++ [(second 11, close 40),
    (second 12, .store (.enqueuePrivate (ids 70) 3 "operator" "more tests"))])

/-- The private run adjusts these 7 points for good. -/
theorem private_never_compounds_seven : ∃ σ, start.play adjusting = some σ ∧
    ∃ g ∈ σ.store.runs, g.publicRunId = some 50 ∧ ∃ b ∈ σ.store.runs, b.id = 50 ∧
      ∀ taken τ, Transition.Run Sys.Step σ taken τ → Adjusts τ g b 7 := by
  have key : (start.play adjusting).any (fun σ =>
      (σ.store.runs.any fun g => g.publicRunId = some 50) &&
        σ.store.runs.all fun g => g.id ≠ 50 || g.points = some 7) = true := by
    rw [adjusting, play_reporting]
    decide +kernel
  obtain ⟨σ, hσ, hkey⟩ := Option.any_eq_true _ _ |>.mp key
  simp only [Bool.and_eq_true, List.any_eq_true, List.all_eq_true, Bool.or_eq_true,
    decide_eq_true_eq] at hkey
  obtain ⟨⟨g, hg, hid⟩, hpoints⟩ := hkey
  have hreach : σ.Reachable := ⟨start, _, initial, Sys.run_of_play hσ⟩
  obtain ⟨b, hb, k, hbid, _, _, _, hk, hadjusts⟩ :=
    (Sys.private_never_compounds hreach).1 g hg 50 hid
  have hk7 : k = 7 := by
    rcases hpoints b hb with h | h
    · exact absurd hbid h
    · rw [hk, Option.some_inj] at h
      exact h
  exact ⟨σ, hσ, g, hg, hid, b, hb, hbid, hk7 ▸ hadjusts⟩

end Sample

end Grading

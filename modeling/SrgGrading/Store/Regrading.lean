import SrgGrading.Store.Calls

/-!
# Regrading

Queueing a run cancels the pending tasks of the public runs of the repository's
other submissions.  Which runs that touches, and when it leaves a run behind
that waits for a cancelled task.

* `displaced_iff`: the tasks of another submission that are cancelled.
* `Sys.regrade_keeps_iff`: when regrading leaves another submission alone.
* `Sys.agreement_iff`: when every waiting run has a task.
-/

open Fallible Relational

namespace Grading

/-! ### The runs of another submission -/

/-- The runs of a submission and their tasks have the status they had. -/
def KeepsStatus (s s' : Store) (submission : Uuid) : Prop :=
  ∀ g ∈ s.runs, g.submissionId = submission →
    (∃ g' ∈ s'.runs, g'.id = g.id ∧ g'.status = g.status) ∧
      ∀ t ∈ s.gradeTasks, t.subject = g.id → ∃ t' ∈ s'.gradeTasks, t'.id = t.id ∧ t'.status = t.status

instance (s s' : Store) (submission : Uuid) : Decidable (KeepsStatus s s' submission) :=
  inferInstanceAs (Decidable (∀ g ∈ s.runs, g.submissionId = submission → _ ∧ _))

/-- A public run of the submission is queued. -/
def QueuedPublic (s : Store) (submission : Uuid) : Prop :=
  ∃ g ∈ s.runs, g.submissionId = submission ∧ g.publicRunId = none ∧
    ∃ t ∈ s.gradeTasks, t.subject = g.id ∧ t.status = .pending

instance (s : Store) (submission : Uuid) : Decidable (QueuedPublic s submission) :=
  inferInstanceAs (Decidable (∃ g ∈ s.runs, _))

section Regrading
variable {s s' : Store} {now : Time} {fresh : Nat → Uuid} {x f : Submission}
  {r : StudentRepository}

/-- The pending task of a public run of another submission is displaced. -/
theorem displaced_iff (hk : Keys s) (hf : f ∈ s.submissions) (hfr : f.repositoryId = r.id)
    (hne : f.id ≠ x.id) {g : GradingRun} (hg : g ∈ s.runs) (hgf : g.submissionId = f.id)
    {t : TaskRow} (ht : t ∈ s.gradeTasks) (hsub : t.subject = g.id) :
    Runs.displaced s r.id x.id t = true ↔ t.status = .pending ∧ g.publicRunId = none := by
  have hrep : Runs.repositoryOfRun s g = some r.id := by
    rw [Runs.repositoryOfRun, hgf, (lookup_eq_some hk.submissions).mpr ⟨hf, rfl⟩, Option.map_some,
      hfr]
  simp only [Runs.displaced, (mem_gradeTasks.mp ht).2, Bool.and_eq_true, List.any_eq_true,
    decide_eq_true_eq, true_and]
  constructor
  · rintro ⟨hpending, k, hkmem, ⟨⟨hkid, _⟩, _⟩, hpublic⟩
    rw [hk.runs.eq hkmem hg (hkid.trans hsub), Option.isNone_iff_eq_none] at hpublic
    exact ⟨hpending, hpublic⟩
  · rintro ⟨hpending, hpublic⟩
    exact ⟨hpending, g, hg, ⟨⟨hsub.symm, hrep⟩, by rw [hgf]; exact hne⟩, by rw [hpublic]; rfl⟩

theorem regrade_queues {submission out : Uuid}
    (h : Runs.enqueueRun s now fresh submission true = .ok (s', out)) :
    ∃ r, Queues s submission true r := by
  simp only [Runs.enqueueRun, bind_ok] at h
  obtain ⟨x, hx, r, hr, _, _, h⟩ := h
  split at h
  · rename_i g hg
    rw [Option.filter_eq_some_iff] at hg
    cases hg.2
  · simp only [bind_ok, fetchOne_ok] at h
    obtain ⟨latest, hlatest, _⟩ := h
    exact ⟨r, ⟨x, hx, hr⟩, Or.inl rfl, latest, hlatest, rfl⟩

/-- **Regrading leaves another submission alone** exactly when it has no public
run in the queue. -/
theorem keepsStatus_iff (hk : Keys s) (hk' : Keys s') (hown : Owned s)
    (hruns : ∀ g ∈ s.runs, RunInv g (s.taskOf g.id))
    (hxs : x ∈ s.submissions) (hxr : x.repositoryId = r.id) (hr : r ∈ s.repositories)
    (hf : f ∈ s.submissions) (hfr : f.repositoryId = r.id) (hne : f.id ≠ x.id) {out : Uuid}
    (h : Runs.enqueueRun s now fresh x.id true = .ok (s', out)) :
    KeepsStatus s s' f.id ↔ ¬ QueuedPublic s f.id := by
  obtain ⟨q, hqueues⟩ := regrade_queues h
  -- the call queues a run, and in the repository of `x`
  have hqr : q = r := by
    obtain ⟨hq, y, hy, hyid, hyr⟩ := hqueues.row
    rw [hk.submissions.eq hy hxs hyid, hxr] at hyr
    exact hk.repositories.eq hq hr hyr.symm
  subst hqr
  rcases enqueueRun_cases hown h with ⟨hno, _⟩ | ⟨g₀, hnew, _, _, ⟨hno, _⟩ |
    ⟨q', hqueues', _, hsruns, t₀, _, _, hstasks⟩⟩
  · exact absurd hqueues (hno q)
  · exact absurd hqueues (hno q)
  · rw [hqueues'.unique hqueues] at hsruns hstasks
    constructor
    · rintro hkeep ⟨g, hg, hgf, hpublic, t, ht, hsub, hpending⟩
      obtain ⟨t', ht', hid, hstatus⟩ := (hkeep g hg hgf).2 t ht hsub
      have hd := (displaced_iff hk hf hfr hne hg hgf ht hsub).mpr ⟨hpending, hpublic⟩
      have hcancelled : { t with status := .cancelled } ∈ s'.gradeTasks := by
        rw [hstasks]
        exact List.mem_append_left _ (mem_updateWhere_of_pos ht hd)
      have heq := hk'.tasks.eq (mem_gradeTasks.mp ht').1 (mem_gradeTasks.mp hcancelled).1 hid
      rw [heq, hpending] at hstatus
      cases hstatus
    · intro hnone g hg hgf
      have hkept : ∀ t ∈ s.gradeTasks, t.subject = g.id →
          Runs.displaced s q.id x.id t = false := by
        intro t ht hsub
        rw [← Bool.not_eq_true, displaced_iff hk hf hfr hne hg hgf ht hsub]
        rintro ⟨hpending, hpublic⟩
        exact hnone ⟨g, hg, hgf, hpublic, t, ht, hsub, hpending⟩
      refine ⟨⟨g, ?_, rfl, rfl⟩, fun t ht hsub => ⟨t, ?_, rfl, rfl⟩⟩
      · rw [hsruns]
        refine List.mem_append_left _ (mem_updateWhere_of_neg hg ?_)
        rw [← Bool.not_eq_true, Bool.and_eq_true, decide_eq_true_eq, List.any_eq_true]
        rintro ⟨hwait, v, hv, hvs⟩
        rw [Bool.and_eq_true, decide_eq_true_eq, decide_eq_true_eq] at hvs
        -- a waiting run has a pending task, which would have to be displaced
        obtain ⟨t, htask, hpending⟩ := (hruns g hg).waiting hwait
        obtain ⟨ht, hsub⟩ := hk.taskOf.mp htask
        obtain ⟨w, hw, rfl⟩ := mem_updateWhere.mp hv
        have hwt : w = t := by
          refine hk.gradeSubjects.eq hw ht (Eq.trans ?_ (hvs.2.trans hsub.symm))
          split <;> rfl
        rw [hwt, hkept t ht hsub, if_neg Bool.false_ne_true, hpending] at hvs
        cases hvs.1
      · rw [hstasks]
        exact List.mem_append_left _ (mem_updateWhere_of_neg ht (hkept t ht hsub))

end Regrading

/-- **Regrading and the final submission.**  Regrading another submission of a
closed repository leaves the runs and grade tasks of the final one as they were
exactly when no public run of it is queued. -/
theorem Sys.regrade_keeps_iff [Sha256] {σ : Sys} (hσ : σ.Reachable) {r : StudentRepository}
    {x f : Submission} (hr : r ∈ σ.store.repositories) (hf : f ∈ σ.store.submissions)
    (hfinal : r.finalSubmissionId = some f.id) (hx : x ∈ σ.store.submissions)
    (hxr : x.repositoryId = r.id) (hne : x.id ≠ f.id) {now : Time} {fresh : Nat → Uuid}
    {s' : Store} {out : Uuid}
    (h : Runs.enqueueRun σ.store now fresh x.id true = .ok (s', out)) :
    KeepsStatus σ.store s' f.id ↔ ¬ QueuedPublic σ.store f.id := by
  obtain ⟨_, y, hy, hyid, hyr⟩ := hσ.finals r hr f.id hfinal
  rw [hσ.keys.submissions.eq hy hf hyid] at hyr
  exact keepsStatus_iff hσ.keys ((Continues.enqueueRun h).keys hσ.keys) hσ.inv.owned hσ.inv.runs
    hx hxr hr hf hyr (Ne.symm hne) h

namespace Sample

attribute [local instance] Sha256.standard

/-- The final submission 21 is being graded. -/
def grading : List (Time × Op) :=
  captured ++ [(second 11, close 40), (second 12, enqueue 50 21 false), (second 13, leaseAs 100)]

/-- The final submission 21 is in the queue. -/
def queued : List (Time × Op) :=
  captured ++ [(second 11, close 40), (second 12, enqueue 50 21 false)]

/-- Submission 11 is regraded while the final one is being graded. -/
theorem regrade_keeps_leased : ∃ σ s' out, start.play grading = some σ ∧
    Runs.enqueueRun σ.store (second 14) (ids 60) 11 true = .ok (s', out) ∧
    KeepsStatus σ.store s' 21 := by
  have key : (start.play grading).any (fun σ =>
      (Runs.enqueueRun σ.store (second 14) (ids 60) 11 true).toOption.isSome &&
      decide (∃ r ∈ σ.store.repositories, ∃ f ∈ σ.store.submissions, ∃ x ∈ σ.store.submissions,
        r.finalSubmissionId = some f.id ∧ f.id = 21 ∧ x.id = 11 ∧ x.repositoryId = r.id ∧
          ¬ QueuedPublic σ.store 21)) = true := by
    decide +kernel
  obtain ⟨σ, hσ, hkey⟩ := Option.any_eq_true _ _ |>.mp key
  rw [Bool.and_eq_true, decide_eq_true_eq] at hkey
  obtain ⟨hok, r, hr, f, hf, x, hx, hfinal, hfid, hxid, hxr, hno⟩ := hkey
  cases hrun : Runs.enqueueRun σ.store (second 14) (ids 60) 11 true with
  | error e => rw [hrun] at hok; cases hok
  | ok p =>
    refine ⟨σ, p.1, p.2, hσ, hrun, ?_⟩
    rw [← hxid] at hrun
    rw [← hfid] at hno ⊢
    exact (Sys.regrade_keeps_iff ⟨start, _, initial, Sys.run_of_play hσ⟩ hr hf hfinal hx hxr
      (by rw [hxid, hfid]; decide) hrun).mpr hno

/-- **Regrading submission 11 takes the final one out of the queue.** -/
theorem regrade_displaces_final : ∃ σ s' out, start.play queued = some σ ∧
    (∃ r ∈ σ.store.repositories, r.closureDue = true ∧ r.finalSubmissionId = some 21) ∧
    Runs.enqueueRun σ.store (second 13) (ids 60) 11 true = .ok (s', out) ∧
    ¬ KeepsStatus σ.store s' 21 := by
  have key : (start.play queued).any (fun σ =>
      decide (∃ r ∈ σ.store.repositories, r.closureDue = true ∧ r.finalSubmissionId = some 21) &&
      (Runs.enqueueRun σ.store (second 13) (ids 60) 11 true).toOption.any fun p =>
        decide (¬ KeepsStatus σ.store p.1 21)) = true := by
    decide +kernel
  obtain ⟨σ, hσ, hkey⟩ := Option.any_eq_true _ _ |>.mp key
  rw [Bool.and_eq_true, decide_eq_true_eq] at hkey
  cases hrun : Runs.enqueueRun σ.store (second 13) (ids 60) 11 true with
  | error e => rw [hrun] at hkey; cases hkey.2
  | ok p =>
    rw [hrun] at hkey
    exact ⟨σ, p.1, p.2, hσ, hkey.1, hrun, of_decide_eq_true hkey.2⟩

end Sample

/-! ### Runs and their tasks -/

/-- Every waiting run has a task that is queued, leased, or failed and to be
reported. -/
def Agreement (s : Store) : Prop :=
  ∀ g ∈ s.runs, g.status = .pending ∨ g.status = .running →
    ∃ t ∈ s.gradeTasks, t.subject = g.id ∧
      (t.status = .pending ∨ t.status = .leased ∨ t.status = .failed)

/-- A run is queued in place of one that counts as running, whose task was
revived after it had failed. -/
def DisplacesRunning (σ : Sys) (l : Time × Op) : Prop :=
  ∃ fresh submission regrade r s' out, l.2 = .store (.enqueueRun fresh submission regrade) ∧
    Runs.enqueueRun σ.store l.1 fresh submission regrade = .ok (s', out) ∧
    Queues σ.store submission regrade r ∧ ∃ g ∈ σ.store.runs, g.status = .running ∧
      ∃ t ∈ σ.store.gradeTasks, t.subject = g.id ∧
        Runs.displaced σ.store r.id submission t = true

/-- What agreement asks of one run and its task. -/
def Agrees (g : GradingRun) (ot : Option TaskRow) : Prop :=
  g.status = .pending ∨ g.status = .running →
    ∃ t, ot = some t ∧ (t.status = .pending ∨ t.status = .leased ∨ t.status = .failed)

theorem agreement_iff_agrees {s : Store} (hk : Keys s) :
    Agreement s ↔ ∀ g ∈ s.runs, Agrees g (s.taskOf g.id) := by
  constructor
  · intro h g hg hw
    obtain ⟨t, ht, hsub, hstatus⟩ := h g hg hw
    exact ⟨t, hk.taskOf.mpr ⟨ht, hsub⟩, hstatus⟩
  · intro h g hg hw
    obtain ⟨t, ht, hstatus⟩ := h g hg hw
    obtain ⟨hmem, hsub⟩ := hk.taskOf.mp ht
    exact ⟨t, hmem, hsub, hstatus⟩

section Agreement
variable [Sha256] {σ τ : Sys} {l : Time × Op}

/-- A step that displaces a running run leaves it without a task. -/
theorem not_agreement_of_displaces (hσ : σ.Reachable) (h : Sys.Step σ l τ)
    (hd : DisplacesRunning σ l) : ¬ Agreement τ.store := by
  obtain ⟨fresh, submission, regrade, r, s', out, hop, hrun, hqueues, g, hg, hrunning, t, ht, hsub,
    hdisplaced⟩ := hd
  have hstore : τ.store = s' := by
    obtain ⟨_, _, rfl⟩ := h
    rw [hop]
    simp only [Sys.perform, StoreOp.exec, hrun]
    rfl
  have hk' : Keys τ.store := (h.evolves hσ.keys).keys hσ.keys
  rw [hstore] at hk' ⊢
  rcases enqueueRun_cases hσ.inv.owned hrun with ⟨hno, _⟩ | ⟨g₀, hnew, _, _, ⟨hno, _⟩ |
    ⟨q, hq, _, hruns, t₀, _, _, htasks⟩⟩
  · exact absurd hqueues (hno r)
  · exact absurd hqueues (hno r)
  · rw [hq.unique hqueues] at hruns htasks
    have hcancelled : { t with status := .cancelled } ∈ s'.gradeTasks := by
      rw [htasks]
      exact List.mem_append_left _ (mem_updateWhere_of_pos ht hdisplaced)
    have hg' : g ∈ s'.runs := by
      rw [hruns]
      refine List.mem_append_left _ (mem_updateWhere_of_neg hg ?_)
      rw [hrunning]
      rfl
    intro hagree
    obtain ⟨t', ht', hsub', hstatus⟩ := hagree g hg' (Or.inr hrunning)
    rw [hk'.gradeSubjects.eq ht' hcancelled (hsub'.trans hsub.symm)] at hstatus
    rcases hstatus with hs | hs | hs <;> cases hs

/-- A transition keeps the agreement, unless it displaces a running run. -/
theorem Agrees.life {calls : List Runs.AcceptCall} {now : Time} {op : Op} {s : Store}
    {g g' : GradingRun} {ot ot' : Option TaskRow} (hinv : RunInv g ot) (ha : Agrees g ot)
    (h : Life calls now op s g ot g' ot')
    (hno : ∀ t r submission regrade, ot = some t →
      (∃ fresh, op = .store (.enqueueRun fresh submission regrade)) →
      Queues s submission regrade r → Runs.displaced s r.id submission t = true →
        g.status ≠ .running) : Agrees g' ot' := by
  cases h with
  | stay => exact ha
  | touch t t' hsame =>
    intro hw
    obtain ⟨u, hu, hstatus⟩ := ha hw
    rw [Option.some_inj] at hu
    exact ⟨t', rfl, by rw [hsame.status, hu]; exact hstatus⟩
  | revive t hstatus hopen => exact fun _ => ⟨_, rfl, Or.inl rfl⟩
  | expire t hleased => exact fun _ => ⟨_, rfl, Or.inr (Or.inr rfl)⟩
  | lease t owner token hready => exact fun _ => ⟨_, rfl, Or.inr (Or.inl rfl)⟩
  | record t call hrec hrun hid htoken howner hleased hlive =>
    intro hw
    have hw : call.result.status.state = .pending ∨ call.result.status.state = .running := hw
    cases hs : call.result.status <;> rw [hs] at hw <;> rcases hw with hw | hw <;> cases hw
  | fail t hrun hfailed =>
    intro hw
    rcases hw with hw | hw <;> cases hw
  | displace t r submission regrade hop hqueues hpublic hdisplaced hpending =>
    have hnot := hno t r submission regrade rfl hop hqueues hdisplaced
    split
    · intro hw
      rcases hw with hw | hw <;> cases hw
    · rename_i hne
      exact fun hw => (hw.elim hne hnot).elim
  | supersede t hrun hcancelled =>
    intro hw
    rcases hw with hw | hw <;> cases hw

omit [Sha256] in
theorem Born.agrees {s : Store} {g : GradingRun} {ot : Option TaskRow} (h : Born s g ot) :
    Agrees g ot := by
  intro hw
  rcases h.task with ⟨hs, _⟩ | ⟨_, t, ht, hpending⟩
  · rw [hs] at hw
    rcases hw with hw | hw <;> cases hw
  · exact ⟨t, ht, Or.inl hpending⟩

/-- **One step**: agreement is kept exactly by a step that displaces no running run. -/
theorem agreement_step (hσ : σ.Reachable) (ha : Agreement σ.store) (h : Sys.Step σ l τ) :
    Agreement τ.store ↔ ¬ DisplacesRunning σ l := by
  refine ⟨fun hτ hd => not_agreement_of_displaces hσ h hd hτ, fun hno => ?_⟩
  by_cases hsame : τ.store = σ.store
  · rw [hsame]
    exact ha
  have hk' : Keys τ.store := (h.evolves hσ.keys).keys hσ.keys
  rw [agreement_iff_agrees hσ.keys] at ha
  rw [agreement_iff_agrees hk']
  intro g' hg'
  rcases h.life hσ g' hg' with ⟨g, hg, hid, hl⟩ | hborn
  · rw [← hid]
    refine (ha g hg).life (hσ.inv.runs g hg) hl ?_
    rintro t r submission regrade ht ⟨fresh, hop⟩ hqueues hdisplaced hrunning
    obtain ⟨hmem, hsub⟩ := hσ.keys.taskOf.mp ht
    -- the transaction committed, as the store changed
    cases hrun : Runs.enqueueRun σ.store l.1 fresh submission regrade with
    | error e =>
      refine hsame ?_
      obtain ⟨_, _, rfl⟩ := h
      rw [hop]
      simp only [Sys.perform, StoreOp.exec, hrun]
      rfl
    | ok p =>
      exact hno ⟨fresh, submission, regrade, r, p.1, p.2, hop, hrun, hqueues, g, hg, hrunning, t,
        hmem, hsub, hdisplaced⟩
  · exact hborn.agrees

/-- **Runs and tasks agree** all along a run of the system exactly when no step
of it displaces a running run. -/
theorem Sys.agreement_iff {taken : List (Sys × (Time × Op))} (h0 : σ.Initial)
    (hrun : Transition.Run Sys.Step σ taken τ) :
    ((∀ p ∈ taken, Agreement p.1.store) ∧ Agreement τ.store) ↔
      ∀ p ∈ taken, ¬ DisplacesRunning p.1 p.2 := by
  refine hrun.exact_of_step (fun σ l => ¬ DisplacesRunning σ l)
    (I := fun σ => Agreement σ.store) (J := Sys.Reachable) (Q := fun _ => True)
    (fun _ _ _ hσ h => Transition.Reachable.tail hσ h) (fun _ _ _ _ _ => trivial)
    (fun _ _ _ hσ _ ha h => agreement_step hσ ha h) (Transition.Reachable.start_mem h0) ?_ trivial
  intro g hg
  rw [h0.runs] at hg
  cases hg

end Agreement

instance (s : Store) : Decidable (Agreement s) :=
  inferInstanceAs (Decidable (∀ g ∈ s.runs, _ → ∃ t ∈ s.gradeTasks, _))

namespace Sample

attribute [local instance] Sha256.standard

/-- A run that is queued and leased. -/
theorem agreement_grading : ∃ σ, start.play grading = some σ ∧ Agreement σ.store := by
  have hplay : (start.play grading).isSome = true := by decide +kernel
  have hno : (start.trace grading).all (fun p =>
      p.1.store.runs.all fun g => decide (g.status ≠ .running)) = true := by
    decide +kernel
  obtain ⟨σ, hσ⟩ := Option.isSome_iff_exists.mp hplay
  rw [List.all_eq_true] at hno
  refine ⟨σ, hσ, ((Sys.agreement_iff initial (Sys.run_of_play hσ)).mpr fun p hp => ?_).2⟩
  rintro ⟨_, _, _, _, _, _, _, _, _, g, hg, hrunning, _⟩
  exact of_decide_eq_true (List.all_eq_true.mp (hno p hp) g hg) hrunning

/-- The final run's worker is lost eight times; closing revives its task, and
submission 11 is regraded. -/
def exhausted : List (Time × Op) :=
  captured ++ [(second 4, .store (.extend 3 (second 2000) "operator" "illness")),
    (second 5, enqueue 50 21 false)] ++
  (List.range 8).map (fun i : Nat => (second (6 + 121 * i), leaseAs (ids 100 i))) ++
  [(second 980, .store .expireExhausted), (second 2001, close 40),
    (second 2002, enqueue 60 11 true)]

/-- **A run that counts as running is left with a cancelled task.** -/
theorem disagreement_exhausted : ∃ σ, start.play exhausted = some σ ∧ ¬ Agreement σ.store := by
  have key : (start.play exhausted).any (fun σ => decide (¬ Agreement σ.store)) = true := by
    decide +kernel
  obtain ⟨σ, hσ, hkey⟩ := Option.any_eq_true _ _ |>.mp key
  exact ⟨σ, hσ, of_decide_eq_true hkey⟩

end Sample

end Grading

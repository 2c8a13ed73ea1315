import SrgGrading.Admin.Dispatcher

/-!
# What a step does to an operation

`Turn` lists the transitions between the nine states of an operation, each with
the step that makes it.

* `Sys.Step.turns`: every step takes each operation through one of them, and
  adds at most an operation that was just submitted.
* `Sys.Step.jobs`: a worker keeps its job until it takes another operation.
-/

open Fallible Relational

namespace Grading.Admin

variable [Sha256]

/-- What a step does to one operation; the texts on its page are left open. -/
inductive Turn (σ : Sys) (now : Time) (op : Op) : Operation → Operation → Prop
  | stay (o : Operation) (output : String) : Turn σ now op o { o with output }
  | revalidate (o : Operation) (output : String) (hstate : o.state = .validating) :
      Turn σ now op o { o with state := .pendingValidation, output }
  | interrupt (o : Operation) (output : String) (hstate : o.state = .applying) :
      Turn σ now op o { o with state := .uncertain, output }
  | expire (o : Operation) (hstate : o.state = .ready) :
      Turn σ now op o { o with state := .expired, confirmationToken := none }
  | validate (o : Operation) (output : String) (hstate : o.state = .pendingValidation) :
      Turn σ now op o { o with state := .validating, output }
  | apply (o : Operation) (output : String) (worker : Nat) (locked : List Uuid)
      (hop : op = .select worker locked) (hidle : σ.idle worker = true)
      (hnext : σ.portal.next locked = some o) (hstate : o.state = .queued) :
      Turn σ now op o { o with state := .applying, output }
  | ready (o : Operation) (worker : Nat) (job : Job) (prepared report token output : String)
      (hop : op = .prepared worker (.ok (prepared, report)) token)
      (hjob : σ.jobAt worker = some (job, .running)) (hphase : job.phase = .validating)
      (hid : job.id = o.id) (hstate : o.state = .validating) :
      Turn σ now op o { o with
        state := .ready, plan := some ⟨job.input, prepared⟩, output
        confirmationToken := some token, confirmationHash := some (Portal.digestOf token)
        validatedUntil := some (now + 15 * 60 * nanosPerSecond) }
  | confirm (o : Operation) (csrf token : String) (hop : op = .confirm o.id o.actor csrf token)
      (htaken : σ.portal.confirmable now o.id o.actor csrf token o = true) :
      Turn σ now op o { o with state := .queued, confirmationToken := none }
  | succeed (o : Operation) (output : String) (download : Option String)
      (hstate : o.state = .applying) :
      Turn σ now op o { o with state := .succeeded, download, output }
  | fail (o : Operation) (output : String) :
      Turn σ now op o { o with state := .failed, confirmationToken := none, output }

/-- An operation as it is submitted. -/
structure Submits (σ : Sys) (now : Time) (op : Op) (o : Operation) : Prop where
  op : ∃ csrf, op = .submit o.id o.actor csrf o.input ∧ o.sessionHash = Portal.digestOf csrf
  allowed : σ.portal.admins.contains o.actor = true ∧ σ.portal.recentCount now o.actor < 60 ∧
    σ.portal.activeCount o.actor < 4
  fresh : ∀ x ∈ σ.portal.operations, x.id ≠ o.id
  state : o.state = .pendingValidation
  unprepared : o.plan = none ∧ o.confirmationHash = none ∧ o.validatedUntil = none
  created : o.createdAt = now

-- the equations of a step are made once, here, for all the proofs below
attribute [local simp] Sys.perform

section Turns
variable {σ τ : Sys} {now : Time} {op : Op}

/-- The operations after a step, from those before. -/
def Turns (σ : Sys) (now : Time) (op : Op) (operations : List Operation) : Prop :=
  Grows Operation.id (Turn σ now op) (Submits σ now op) σ.portal.operations operations

theorem Turn.refl (o : Operation) : Turn σ now op o o := .stay o o.output

theorem Turns.refl : Turns σ now op σ.portal.operations := Grows.refl fun o _ => .refl o

theorem Turns.update {q : Operation → Bool} {f : Operation → Operation}
    (h : ∀ o ∈ σ.portal.operations, q o = true → (f o).id = o.id ∧ Turn σ now op o (f o)) :
    Turns σ now op (updateWhere q f σ.portal.operations) :=
  Grows.update h fun o _ => .refl o

/-- What `submit` adds. -/
theorem submit_spec {fresh : Uuid} {actor : Int} {csrf : String} {input : Input}
    {p : Portal} {out : Uuid}
    (h : σ.portal.submit now fresh actor csrf input = .ok (p, out)) :
    ∃ o, p.operations = σ.portal.operations ++ [o] ∧
      Submits σ now (.submit fresh actor csrf input) o := by
  simp only [Portal.submit, bind_ok, check_ok, ensure_ok, pure_ok, Prod.mk.injEq,
    Bool.and_eq_true, decide_eq_true_eq, Bool.not_eq_true', List.any_eq_false] at h
  obtain ⟨_, _, _, ⟨⟨hadmin, hrecent⟩, hactive⟩, _, hfresh, _, _, rfl, _⟩ := h
  exact ⟨_, rfl, ⟨csrf, rfl, rfl⟩, ⟨hadmin, hrecent, hactive⟩, hfresh, rfl, ⟨rfl, rfl, rfl⟩, rfl⟩

theorem turns_submit {fresh : Uuid} {actor : Int} {csrf : String} {input : Input}
    {p : Portal} {out : Uuid}
    (h : σ.portal.submit now fresh actor csrf input = .ok (p, out)) :
    Turns σ now (.submit fresh actor csrf input) p.operations := by
  obtain ⟨o, hp, hnew⟩ := submit_spec h
  rw [hp]
  exact Grows.insert (fun o _ => .refl o) hnew hnew.fresh

theorem confirm_operations {id : Uuid} {actor : Int} {csrf token : String} :
    (σ.portal.confirm now id actor csrf token).1.operations =
      updateWhere (σ.portal.confirmable now id actor csrf token)
        (fun o => { o with state := .queued, confirmationToken := none }) σ.portal.operations := by
  rw [Portal.confirm]
  split <;> rfl

theorem turns_confirm {id : Uuid} {actor : Int} {csrf token : String} :
    Turns σ now (.confirm id actor csrf token)
      (σ.portal.confirm now id actor csrf token).1.operations := by
  rw [confirm_operations]
  refine .update fun o _ htaken => ⟨rfl, ?_⟩
  have hkey := htaken
  simp only [Portal.confirmable, Bool.and_eq_true, decide_eq_true_eq] at hkey
  obtain ⟨⟨⟨⟨⟨⟨hid, hactor⟩, _⟩, _⟩, _⟩, _⟩, _⟩ := hkey
  subst hid hactor
  exact .confirm o csrf token rfl htaken

theorem turns_recover : Turns σ now op σ.portal.recover.operations := by
  refine .update fun o _ hstate => ⟨rfl, ?_⟩
  rw [Bool.or_eq_true, decide_eq_true_eq, decide_eq_true_eq] at hstate
  rcases hstate with hs | hs
  · rw [if_pos hs]
    exact .revalidate o _ hs
  · rw [if_neg (by rw [hs]; decide)]
    exact .interrupt o _ hs

theorem turns_expire : Turns σ now op (σ.portal.expire now).operations := by
  refine .update fun o _ hstate => ⟨rfl, ?_⟩
  rw [Bool.and_eq_true, decide_eq_true_eq] at hstate
  exact .expire o hstate.1

omit [Sha256] in
theorem next_spec {p : Portal} {locked : List Uuid} {o : Operation}
    (h : p.next locked = some o) :
    o ∈ p.operations ∧ (o.state = .pendingValidation ∨ o.state = .queued) := by
  have hmem := List.argmin_mem h
  simp only [List.mem_filter, Bool.and_eq_true, Bool.or_eq_true, decide_eq_true_eq] at hmem
  exact ⟨hmem.1, hmem.2.1⟩

theorem turns_begin (hk : Keyed Operation.id σ.portal.operations) {worker : Nat}
    {locked : List Uuid} {o : Operation} (hidle : σ.idle worker = true)
    (h : σ.portal.next locked = some o) :
    Turns σ now (.select worker locked) (σ.portal.begin o (jobOf o).phase).operations := by
  obtain ⟨hmem, hstate⟩ := next_spec h
  refine .update fun x hx hid => ⟨rfl, ?_⟩
  rw [decide_eq_true_eq] at hid
  rw [hk.eq hx hmem hid]
  rcases hstate with hs | hs
  · have hphase : (jobOf o).phase = .validating := by rw [jobOf, hs]; rfl
    rw [hphase]
    exact .validate o _ hs
  · have hphase : (jobOf o).phase = .applying := by rw [jobOf, hs]; rfl
    rw [hphase]
    exact .apply o _ worker locked rfl hidle h hs

theorem turns_adminChange {id : Int} {grant recovery : Bool} {operator reason : String} {p : Portal}
    (h : σ.portal.adminChange id grant recovery operator reason = .ok p) :
    Turns σ now op p.operations := by
  have hsame : p.operations = σ.portal.operations := by
    simp only [Portal.adminChange, bind_ok] at h
    obtain ⟨_, _, h⟩ := h
    split at h
    · rw [pure_ok] at h
      rw [← h]
      rfl
    · simp only [bind_ok, pure_ok] at h
      obtain ⟨_, _, rfl⟩ := h
      rfl
  rw [hsame]
  exact .refl

theorem turns_select (hk : Keyed Operation.id σ.portal.operations) {worker : Nat}
    {locked : List Uuid} :
    Turns σ now (.select worker locked)
      (σ.perform now (.select worker locked)).portal.operations := by
  simp only [Sys.perform]
  split
  · rename_i hidle
    split
    · exact .refl
    · rename_i hnext
      exact turns_begin hk hidle hnext
  · exact .refl

/-- The plan of the job is stored, or its failure is to be recorded. -/
theorem turns_prepared {worker : Nat} {result : Except String (String × String)}
    {token : String} :
    Turns σ now (.prepared worker result token)
      (σ.perform now (.prepared worker result token)).portal.operations := by
  simp only [Sys.perform]
  split
  · rename_i job hjob
    split
    · rename_i hphase
      cases result with
      | error text => exact .refl
      | ok answer =>
        refine .update fun o _ hstate => ⟨rfl, ?_⟩
        rw [Bool.and_eq_true, decide_eq_true_eq, decide_eq_true_eq] at hstate
        exact .ready o worker job answer.1 answer.2 token _ rfl hjob hphase hstate.1.symm hstate.2
    · exact .refl
  · exact .refl

theorem turns_applied {worker : Nat} {result : Except String (String × Option String)} :
    Turns σ now (.applied worker result)
      (σ.perform now (.applied worker result)).portal.operations := by
  simp only [Sys.perform]
  split
  · split
    · cases result with
      | error text => exact .refl
      | ok answer =>
        refine .update fun o _ hstate => ⟨rfl, ?_⟩
        rw [Bool.and_eq_true, decide_eq_true_eq, decide_eq_true_eq] at hstate
        exact .succeed o _ _ hstate.2
    · exact .refl
  · exact .refl

/-- **Every step** takes each operation through one turn. -/
theorem Sys.Step.turns {l : Time × Op} (hk : Keyed Operation.id σ.portal.operations)
    (h : Sys.Step σ l τ) : Turns σ l.1 l.2 τ.portal.operations := by
  obtain ⟨now, op⟩ := l
  obtain ⟨_, rfl⟩ := h
  cases op with
  | submit fresh actor csrf input =>
    simp only [Sys.perform]
    split
    · rename_i hsubmit
      exact turns_submit hsubmit
    · exact .refl
  | confirm id actor csrf token => exact turns_confirm
  | adminChange id grant recovery operator reason =>
    simp only [Sys.perform]
    split
    · rename_i hchange
      exact turns_adminChange hchange
    · exact .refl
  | start =>
    simp only [Sys.perform]
    split
    · exact .refl
    · exact turns_recover
  | loseGuard worker => exact .refl
  | stop worker => exact .refl
  | expire worker =>
    simp only [Sys.perform]
    split
    · exact turns_expire
    · exact .refl
  | select worker locked => exact turns_select hk
  | authorize worker =>
    simp only [Sys.perform]
    split <;> exact .refl
  | recheck worker =>
    simp only [Sys.perform]
    split
    · exact .refl
    · exact .refl
    · split <;> exact .refl
  | prepared worker result token => exact turns_prepared
  | progress worker text =>
    simp only [Sys.perform]
    split
    · split
      · exact .update fun o _ _ => ⟨rfl, .stay o _⟩
      · exact .refl
    · exact .refl
  | applied worker result => exact turns_applied
  | recordFailure worker diagnostic =>
    simp only [Sys.perform]
    split
    · exact .update fun o _ _ => ⟨rfl, .fail o _⟩
    · exact .refl

theorem Sys.Reachable.keyed (h : σ.Reachable) : Keyed Operation.id σ.portal.operations := by
  refine Transition.Reachable.invariant
    (I := fun σ => Keyed Operation.id σ.portal.operations) (fun _ h0 => ?_) ?_ h
  · rw [h0.operations]
    exact List.nodup_nil
  · intro _ _ _ _ hk hst
    exact (Sys.Step.turns hk hst).keyed hk

end Turns

/-! ### Jobs -/

section Jobs
variable {σ τ : Sys} {l : Time × Op}

omit [Sha256] in
/-- A worker after a change of workers is one from before, changed or not. -/
theorem mem_modify {workers : List Dispatcher} {i : Nat} {f : Dispatcher → Dispatcher}
    {w : Dispatcher} (h : w ∈ workers.modify i f) :
    w ∈ workers ∨ ∃ v ∈ workers, w = f v := by
  obtain ⟨n, hn⟩ := List.mem_iff_getElem?.mp h
  rw [List.getElem?_modify, Option.map_eq_map, Option.map_eq_some_iff] at hn
  obtain ⟨v, hv, rfl⟩ := hn
  have hmem := List.mem_of_getElem? hv
  split
  · exact Or.inr ⟨v, hmem, rfl⟩
  · exact Or.inl hmem

/-- Some worker is at work on `job`. -/
def OldJob (σ : Sys) (job : Job) : Prop := ∃ w ∈ σ.workers, ∃ stage, w.work = some (job, stage)

omit [Sha256] in
theorem oldJob_of_jobAt {worker : Nat} {job : Job} {stage : Stage}
    (h : σ.jobAt worker = some (job, stage)) : OldJob σ job := by
  rw [Sys.jobAt, Option.bind_eq_some_iff] at h
  obtain ⟨w, hw, hwork⟩ := h
  exact ⟨w, List.mem_of_getElem? hw, stage, hwork⟩

/-- No worker starts a job between two states. -/
def KeepsJobs (σ τ : Sys) : Prop :=
  ∀ w ∈ τ.workers, ∀ job stage, w.work = some (job, stage) → OldJob σ job

omit [Sha256] in
theorem KeepsJobs.of_workers (h : ∀ w ∈ τ.workers, w ∈ σ.workers) : KeepsJobs σ τ :=
  fun w hw _ stage hwork => ⟨w, h w hw, stage, hwork⟩

omit [Sha256] in
theorem KeepsJobs.refl (σ : Sys) : KeepsJobs σ σ := .of_workers fun _ h => h

omit [Sha256] in
theorem keepsJobs_setWork {worker : Nat} {work : Option (Job × Stage)}
    (hold : ∀ job stage, work = some (job, stage) → OldJob σ job) :
    KeepsJobs σ (σ.setWork worker work) := by
  intro w hw job stage hwork
  rcases mem_modify hw with hmem | ⟨v, _, rfl⟩
  · exact ⟨w, hmem, stage, hwork⟩
  · exact hold job stage hwork

omit [Sha256] in
/-- A worker ends its job. -/
theorem keepsJobs_none (σ : Sys) (worker : Nat) : KeepsJobs σ (σ.setWork worker none) :=
  keepsJobs_setWork fun _ _ h => by cases h

omit [Sha256] in
/-- A worker goes on with its job. -/
theorem keepsJobs_some {worker : Nat} {job : Job} {stage : Stage}
    (h : σ.jobAt worker = some (job, stage)) (stage' : Stage) :
    KeepsJobs σ (σ.setWork worker (some (job, stage'))) := by
  refine keepsJobs_setWork fun job' _ hsome => ?_
  rw [Option.some_inj, Prod.mk.injEq] at hsome
  rw [← hsome.1]
  exact oldJob_of_jobAt h

theorem keepsJobs_recheck (σ : Sys) (now : Time) (worker : Nat) :
    KeepsJobs σ (σ.perform now (.recheck worker)) := by
  simp only [Sys.perform]
  split
  · exact .refl σ
  · exact .refl σ
  · rename_i hjob
    split
    · exact .refl σ
    · exact keepsJobs_some hjob _

theorem keepsJobs_prepared (σ : Sys) (now : Time) (worker : Nat)
    (result : Except String (String × String)) (token : String) :
    KeepsJobs σ (σ.perform now (.prepared worker result token)) := by
  simp only [Sys.perform]
  split
  · rename_i hjob
    split
    · cases result with
      | ok answer => exact keepsJobs_none σ worker
      | error text => exact keepsJobs_some hjob _
    · exact .refl σ
  · exact .refl σ

theorem keepsJobs_applied (σ : Sys) (now : Time) (worker : Nat)
    (result : Except String (String × Option String)) :
    KeepsJobs σ (σ.perform now (.applied worker result)) := by
  simp only [Sys.perform]
  split
  · rename_i hjob
    split
    · cases result with
      | ok answer => exact keepsJobs_none σ worker
      | error text => exact keepsJobs_some hjob _
    · exact .refl σ
  · exact .refl σ

theorem keepsJobs_start (σ : Sys) (now : Time) : KeepsJobs σ (σ.perform now .start) := by
  simp only [Sys.perform]
  split
  · exact .refl σ
  · intro w hw job stage hwork
    rcases List.mem_append.mp hw with hmem | hnew
    · exact ⟨w, hmem, stage, hwork⟩
    · rw [List.mem_singleton.mp hnew] at hwork
      cases hwork

/-- A worker that selects an operation starts its job. -/
theorem jobs_select {now : Time} {worker : Nat} {locked : List Uuid} {w : Dispatcher}
    (hw : w ∈ (σ.perform now (.select worker locked)).workers) {job : Job} {stage : Stage}
    (hwork : w.work = some (job, stage)) :
    OldJob σ job ∨ ∃ o, σ.portal.next locked = some o ∧ job = jobOf o := by
  simp only [Sys.perform] at hw
  split at hw
  · split at hw
    · exact Or.inl ⟨w, hw, stage, hwork⟩
    · rename_i o hnext
      rcases mem_modify hw with hmem | ⟨v, _, rfl⟩
      · exact Or.inl ⟨w, hmem, stage, hwork⟩
      · refine Or.inr ⟨o, hnext, ?_⟩
        have hpair : some (jobOf o, Stage.selected) = some (job, stage) := hwork
        rw [Option.some_inj, Prod.mk.injEq] at hpair
        exact hpair.1.symm
  · exact Or.inl ⟨w, hw, stage, hwork⟩

/-- Only a worker that selects an operation starts a job. -/
theorem keepsJobs_perform (now : Time) {op : Op} (hop : ∀ worker locked, op ≠ .select worker locked) :
    KeepsJobs σ (σ.perform now op) := by
  cases op with
  | submit fresh actor csrf input =>
    simp only [Sys.perform]
    split <;> exact .refl σ
  | confirm id actor csrf token => exact .refl σ
  | adminChange id grant recovery operator reason =>
    simp only [Sys.perform]
    split <;> exact .refl σ
  | start => exact keepsJobs_start σ now
  | loseGuard worker =>
    intro w hw job stage hwork
    rcases mem_modify hw with hmem | ⟨v, hv, rfl⟩
    · exact ⟨w, hmem, stage, hwork⟩
    · exact ⟨v, hv, stage, hwork⟩
  | stop worker => exact .of_workers fun _ hw => List.mem_of_mem_eraseIdx hw
  | expire worker =>
    simp only [Sys.perform]
    split <;> exact .refl σ
  | select worker locked => exact absurd rfl (hop worker locked)
  | authorize worker =>
    simp only [Sys.perform]
    split
    · rename_i hjob
      exact keepsJobs_some hjob _
    · exact .refl σ
  | recheck worker => exact keepsJobs_recheck σ now worker
  | prepared worker result token => exact keepsJobs_prepared σ now worker result token
  | progress worker text =>
    simp only [Sys.perform]
    split
    · split <;> exact .refl σ
    · exact .refl σ
  | applied worker result => exact keepsJobs_applied σ now worker result
  | recordFailure worker diagnostic =>
    simp only [Sys.perform]
    split
    · exact keepsJobs_none σ worker
    · exact .refl σ

/-- **Where the jobs come from.** -/
theorem Sys.Step.jobs (h : Sys.Step σ l τ) {w : Dispatcher} (hw : w ∈ τ.workers) {job : Job}
    {stage : Stage} (hwork : w.work = some (job, stage)) :
    OldJob σ job ∨ ∃ locked o, σ.portal.next locked = some o ∧ job = jobOf o := by
  obtain ⟨now, op⟩ := l
  obtain ⟨_, rfl⟩ := h
  by_cases hop : ∃ worker locked, op = .select worker locked
  · obtain ⟨worker, locked, rfl⟩ := hop
    exact (jobs_select hw hwork).imp_right fun h => ⟨locked, h⟩
  · exact Or.inl (keepsJobs_perform now (fun worker locked h => hop ⟨worker, locked, h⟩) w hw job
      stage hwork)

end Jobs

end Grading.Admin

import SrgGrading.Admin.Turns

/-!
# Confirmed operations, applied once

An operation is applied after its administrator confirmed it, with the plan that
was validated, and it starts being applied at most once whatever stops.

* `Vouched`: the steps of the run that stand behind the state of an operation.
* `Backed`: the operation behind the job of a worker.
* `Sys.applied_once_confirmed`: the two together, over every run.
-/

open Fallible Relational

namespace Grading.Admin

/-! ### What happened before -/

/-- The steps of a run, each with the state it was taken in. -/
abbrev History := List (Sys × (Time × Op))

/-- An administrator submitted the operation in the session of `csrf`. -/
def Submitted (history : History) (csrf : String) (o : Operation) : Prop :=
  ∃ p ∈ history, p.2.2 = .submit o.id o.actor csrf o.input ∧
    p.1.portal.admins.contains o.actor = true

/-- Then it was validated: its plan was stored and `token` issued. -/
def Validated (history : History) (csrf token : String) (o : Operation) : Prop :=
  ∃ start p rest, history = start ++ p :: rest ∧ Submitted start csrf o ∧
    ∃ worker job prepared report, p.2.2 = .prepared worker (.ok (prepared, report)) token ∧
      p.1.jobAt worker = some (job, .running) ∧ job.id = o.id ∧ job.input = o.input ∧
      o.plan = some ⟨o.input, prepared⟩ ∧
      o.validatedUntil = some (p.2.1 + 15 * 60 * nanosPerSecond)

section Digests

variable [Sha256]

/-- Then its actor, an administrator, confirmed it in time, with a session and a
token of the same digests. -/
def Confirmed (history : History) (csrf token csrf' token' : String) (o : Operation) : Prop :=
  ∃ start p rest, history = start ++ p :: rest ∧ Validated start csrf token o ∧
    p.2.2 = .confirm o.id o.actor csrf' token' ∧
    Portal.digestOf csrf' = Portal.digestOf csrf ∧
    Portal.digestOf token' = Portal.digestOf token ∧
    p.1.portal.admins.contains o.actor = true ∧
    ∃ t, o.validatedUntil = some t ∧ p.2.1 < t

/-! ### States and columns -/

/-- Validation is over. -/
def OperationState.past : OperationState → Bool
  | .pendingValidation | .validating => false
  | _ => true

/-- The operation was confirmed and is to be applied. -/
def OperationState.confirmed : OperationState → Bool
  | .queued | .applying => true
  | _ => false

/-- Nothing leads back to being applied. -/
def OperationState.spent : OperationState → Bool
  | .applying | .succeeded | .failed | .uncertain | .expired => true
  | _ => false

/-- The columns of the request. -/
structure SameRequest (o o' : Operation) : Prop where
  id : o'.id = o.id
  actor : o'.actor = o.actor
  session : o'.sessionHash = o.sessionHash
  input : o'.input = o.input

/-- The columns of the validation. -/
structure SamePlan (o o' : Operation) : Prop where
  plan : o'.plan = o.plan
  until_ : o'.validatedUntil = o.validatedUntil
  confirmation : o'.confirmationHash = o.confirmationHash

section Columns
variable {σ : Sys} {now : Time} {op : Op} {o o' : Operation} {history rest : History}
  {csrf token csrf' token' : String}

theorem Turn.request (h : Turn σ now op o o') : SameRequest o o' := by
  cases h <;> exact ⟨rfl, rfl, rfl, rfl⟩

/-- Past its validation an operation keeps its plan. -/
theorem Turn.past (h : Turn σ now op o o') (hpast : o.state.past = true) :
    o'.state.past = true ∧ SamePlan o o' := by
  cases h with
  | revalidate _ hstate | validate _ hstate =>
    rw [hstate] at hpast
    cases hpast
  | ready worker job prepared report token output hop hjob hphase hid hstate =>
    rw [hstate] at hpast
    cases hpast
  | stay => exact ⟨hpast, rfl, rfl, rfl⟩
  | _ => exact ⟨rfl, rfl, rfl, rfl⟩

omit [Sha256] in
theorem Submitted.mono (h : Submitted history csrf o) (hsame : SameRequest o o') :
    Submitted (history ++ rest) csrf o' := by
  obtain ⟨p, hp, hop, hadmin⟩ := h
  refine ⟨p, List.mem_append_left _ hp, ?_, ?_⟩
  · rw [hsame.id, hsame.actor, hsame.input]
    exact hop
  · rw [hsame.actor]
    exact hadmin

omit [Sha256] in
theorem Validated.mono (h : Validated history csrf token o) (hsame : SameRequest o o')
    (hplan : SamePlan o o') : Validated (history ++ rest) csrf token o' := by
  obtain ⟨start, p, more, rfl, hsubmitted, worker, job, prepared, report, hop, hjob, hid, hinput,
    hstored, htime⟩ := h
  have hstart : Submitted start csrf o' := by
    have hnil : Submitted (start ++ []) csrf o' := hsubmitted.mono hsame
    rw [List.append_nil] at hnil
    exact hnil
  refine ⟨start, p, more ++ rest, by rw [List.append_assoc, List.cons_append], hstart, worker, job,
    prepared, report, hop, hjob, ?_, ?_, ?_, ?_⟩
  · rw [hsame.id]
    exact hid
  · rw [hsame.input]
    exact hinput
  · rw [hplan.plan, hsame.input]
    exact hstored
  · rw [hplan.until_]
    exact htime

theorem Confirmed.mono (h : Confirmed history csrf token csrf' token' o)
    (hsame : SameRequest o o') (hplan : SamePlan o o') :
    Confirmed (history ++ rest) csrf token csrf' token' o' := by
  obtain ⟨start, p, more, rfl, hvalidated, hop, hsession, htoken, hadmin, t, ht, hlt⟩ := h
  have hstart : Validated start csrf token o' := by
    have hnil : Validated (start ++ []) csrf token o' := hvalidated.mono hsame hplan
    rw [List.append_nil] at hnil
    exact hnil
  refine ⟨start, p, more ++ rest, by rw [List.append_assoc, List.cons_append], hstart, ?_, hsession,
    htoken, ?_, t, ?_, hlt⟩
  · rw [hsame.id, hsame.actor]
    exact hop
  · rw [hsame.actor]
    exact hadmin
  · rw [hplan.until_]
    exact ht

end Columns

/-! ### The invariant -/

/-- What stands behind an operation. -/
structure Vouched (history : History) (o : Operation) : Prop where
  submitted : ∃ csrf, Submitted history csrf o ∧ o.sessionHash = Portal.digestOf csrf
  validated : o.state = .ready → ∃ csrf token, Validated history csrf token o ∧
    o.sessionHash = Portal.digestOf csrf ∧ o.confirmationHash = some (Portal.digestOf token)
  confirmed : o.state.confirmed = true → ∃ csrf token csrf' token',
    Confirmed history csrf token csrf' token' o

/-- What stands behind the job of a worker. -/
def Backed (history : History) (operations : List Operation) (job : Job) : Prop :=
  ∃ o ∈ operations, o.id = job.id ∧ o.actor = job.actor ∧ o.input = job.input ∧
    (job.phase = .applying → o.state.past = true ∧ o.plan = job.plan ∧
      ∃ csrf token csrf' token', Confirmed history csrf token csrf' token' o)

/-- The operations are vouched for, and the jobs are backed. -/
structure Sys.Inv (history : History) (σ : Sys) : Prop where
  operations : ∀ o ∈ σ.portal.operations, Vouched history o
  jobs : ∀ w ∈ σ.workers, ∀ job stage, w.work = some (job, stage) →
    Backed history σ.portal.operations job

section Invariant
variable {σ τ : Sys} {l : Time × Op} {o o' : Operation} {history : History}

/-- What a step does to what stands behind an operation. -/
theorem Vouched.turn (hk : Keyed Operation.id σ.portal.operations) (hinv : Sys.Inv history σ)
    (ho : o ∈ σ.portal.operations) (h : Turn σ l.1 l.2 o o') :
    Vouched (history ++ [(σ, l)]) o' := by
  have hv := hinv.operations o ho
  obtain ⟨csrf₀, hsubmitted, hsession₀⟩ := hv.submitted
  have hsame := h.request
  have hagain : ∃ csrf, Submitted (history ++ [(σ, l)]) csrf o' ∧
      o'.sessionHash = Portal.digestOf csrf :=
    ⟨csrf₀, hsubmitted.mono hsame, hsame.session.trans hsession₀⟩
  -- a state that is neither ready nor confirmed asks for nothing more
  have hplain : o'.state ≠ .ready → o'.state.confirmed = false →
      Vouched (history ++ [(σ, l)]) o' := by
    intro hready hconfirmed
    refine ⟨hagain, fun hr => absurd hr hready, fun hc => ?_⟩
    rw [hconfirmed] at hc
    cases hc
  cases h with
  | stay output =>
    have hplan : SamePlan o { o with output } := ⟨rfl, rfl, rfl⟩
    refine ⟨hagain, fun hr => ?_, fun hc => ?_⟩
    · obtain ⟨csrf, token, hvalidated, hsession, htoken⟩ := hv.validated hr
      exact ⟨csrf, token, hvalidated.mono hsame hplan, hsession, htoken⟩
    · obtain ⟨csrf, token, csrf', token', hconfirmed⟩ := hv.confirmed hc
      exact ⟨csrf, token, csrf', token', hconfirmed.mono hsame hplan⟩
  | apply output worker locked hop hidle hnext hstate =>
    refine ⟨hagain, (fun hr => by cases hr), fun _ => ?_⟩
    obtain ⟨csrf, token, csrf', token', hconfirmed⟩ := hv.confirmed (by rw [hstate]; rfl)
    exact ⟨csrf, token, csrf', token', hconfirmed.mono hsame ⟨rfl, rfl, rfl⟩⟩
  | ready worker job prepared report token output hop hjob hphase hid hstate =>
    refine ⟨hagain, fun _ => ?_, fun hc => by cases hc⟩
    -- the job's input is that of the operation
    have hinput : job.input = o.input := by
      rw [Sys.jobAt, Option.bind_eq_some_iff] at hjob
      obtain ⟨w, hw, hwork⟩ := hjob
      obtain ⟨x, hx, hxid, _, hxinput, _⟩ :=
        hinv.jobs w (List.mem_of_getElem? hw) job _ hwork
      rw [← hxinput, hk.eq hx ho (hxid.trans hid)]
    refine ⟨csrf₀, token, ?_, hsession₀, rfl⟩
    refine ⟨history, (σ, l), [], rfl, ?_, worker, job, prepared, report, hop, hjob, hid, hinput, ?_,
      rfl⟩
    · exact hsubmitted
    · rw [hinput]
  | confirm csrf' token' hop htaken =>
    refine ⟨hagain, (fun hr => by cases hr), fun _ => ?_⟩
    simp only [Portal.confirmable, Bool.and_eq_true, decide_eq_true_eq, Option.any_eq_true] at htaken
    obtain ⟨⟨⟨⟨⟨_, hsession'⟩, hready⟩, t, ht, hlt⟩, htoken'⟩, hadmin⟩ := htaken
    obtain ⟨csrf, token, hvalidated, hsession, htoken⟩ := hv.validated hready
    refine ⟨csrf, token, csrf', token', history, (σ, l), [], rfl, ?_, hop, ?_, ?_, hadmin, t, ht,
      hlt⟩
    · exact hvalidated
    · rw [← hsession', hsession]
    · rw [htoken, Option.some_inj] at htoken'
      exact htoken'.symm
  | revalidate output hstate => exact hplain (fun hr => by cases hr) rfl
  | interrupt output hstate => exact hplain (fun hr => by cases hr) rfl
  | expire hstate => exact hplain (fun hr => by cases hr) rfl
  | validate output hstate => exact hplain (fun hr => by cases hr) rfl
  | succeed output download hstate => exact hplain (fun hr => by cases hr) rfl
  | fail output => exact hplain (fun hr => by cases hr) rfl

theorem Submits.vouched (h : Submits σ l.1 l.2 o) : Vouched (history ++ [(σ, l)]) o := by
  obtain ⟨csrf, hop, hsession⟩ := h.op
  have hstate := h.state
  refine ⟨⟨csrf, ⟨(σ, l), ?_, hop, h.allowed.1⟩, hsession⟩, fun hr => ?_, fun hc => ?_⟩
  · exact List.mem_append_right _ (List.mem_singleton_self _)
  · rw [hstate] at hr
    cases hr
  · rw [hstate] at hc
    cases hc

theorem Backed.turns (ht : Turns σ l.1 l.2 τ.portal.operations) {job : Job}
    (h : Backed history σ.portal.operations job) :
    Backed (history ++ [(σ, l)]) τ.portal.operations job := by
  obtain ⟨o, ho, hid, hactor, hinput, happlying⟩ := h
  obtain ⟨o', ho', _, hturn⟩ := ht.old ho
  have hsame := hturn.request
  refine ⟨o', ho', hsame.id.trans hid, hsame.actor.trans hactor, hsame.input.trans hinput,
    fun hphase => ?_⟩
  obtain ⟨hpast, hplan, csrf, token, csrf', token', hconfirmed⟩ := happlying hphase
  obtain ⟨hpast', hsamePlan⟩ := hturn.past hpast
  exact ⟨hpast', hsamePlan.plan.trans hplan, csrf, token, csrf', token',
    hconfirmed.mono hsame hsamePlan⟩

/-- The job of a worker that takes an operation is backed by it. -/
theorem backed_jobOf (hv : Vouched history o) (ho : o ∈ σ.portal.operations) :
    Backed history σ.portal.operations (jobOf o) := by
  refine ⟨o, ho, rfl, rfl, rfl, fun hphase => ?_⟩
  have hstate : o.state = .queued := by
    by_contra hne
    rw [jobOf, if_neg hne] at hphase
    cases hphase
  refine ⟨by rw [hstate]; rfl, rfl, hv.confirmed ?_⟩
  rw [hstate]
  rfl

/-- **One step** keeps operations vouched for and jobs backed. -/
theorem Sys.Step.inv (hk : Keyed Operation.id σ.portal.operations) (hinv : Sys.Inv history σ)
    (h : Sys.Step σ l τ) : Sys.Inv (history ++ [(σ, l)]) τ := by
  have hturns := h.turns hk
  refine ⟨fun o' ho' => ?_, fun w hw job stage hwork => ?_⟩
  · rcases hturns.origin ho' with ⟨o, ho, _, hturn⟩ | ⟨hnew, _⟩
    · exact Vouched.turn hk hinv ho hturn
    · exact hnew.vouched
  · rcases h.jobs hw hwork with ⟨v, hv, stage', hold⟩ | ⟨locked, o, hnext, rfl⟩
    · exact (hinv.jobs v hv job stage' hold).turns hturns
    · obtain ⟨hmem, _⟩ := next_spec hnext
      exact (backed_jobOf (hinv.operations o hmem) hmem).turns hturns

/-- **All along a run** they are. -/
theorem Sys.inv_of_run {taken : History} (h0 : σ.Initial)
    (hrun : Transition.Run Sys.Step σ taken τ) : Sys.Inv taken τ := by
  induction hrun with
  | nil =>
    refine ⟨fun o ho => ?_, fun w hw => ?_⟩
    · rw [h0.operations] at ho
      cases ho
    · rw [h0.workers] at hw
      cases hw
  | snoc hr hst ih => exact Sys.Step.inv (Sys.Reachable.keyed ⟨_, _, h0, hr⟩) ih hst

end Invariant

/-! ### At most once -/

/-- Operation `id` enters the applying state. -/
def Sys.applies (σ : Sys) (l : Time × Op) (id : Uuid) : Bool :=
  (σ.portal.operations.all fun o => o.id ≠ id || o.state ≠ .applying) &&
    (σ.perform l.1 l.2).portal.operations.any fun o => o.id = id && o.state = .applying

/-- Operation `id` is being applied or over. -/
def Sys.Spent (id : Uuid) (σ : Sys) : Prop :=
  ∃ o ∈ σ.portal.operations, o.id = id ∧ o.state.spent = true

section Once
variable {σ τ : Sys} {l : Time × Op} {id : Uuid} {o o' : Operation}

/-- What is spent stays spent. -/
theorem Turn.spent (h : Turn σ l.1 l.2 o o') (hspent : o.state.spent = true) :
    o'.state.spent = true := by
  cases h with
  | stay => exact hspent
  | revalidate _ hstate | validate _ hstate =>
    rw [hstate] at hspent
    cases hspent
  | ready worker job prepared report token output hop hjob hphase hid hstate =>
    rw [hstate] at hspent
    cases hspent
  | confirm csrf token hop htaken =>
    simp only [Portal.confirmable, Bool.and_eq_true, decide_eq_true_eq] at htaken
    rw [htaken.1.1.1.2] at hspent
    cases hspent
  | _ => rfl

/-- An operation that enters the applying state was queued and is taken. -/
theorem Sys.Step.applies (hk : Keyed Operation.id σ.portal.operations) (h : Sys.Step σ l τ)
    (ha : σ.applies l id = true) :
    ∃ o ∈ σ.portal.operations, o.id = id ∧ o.state = .queued ∧
      ∃ worker locked, l.2 = .select worker locked ∧ σ.idle worker = true ∧
        σ.portal.next locked = some o := by
  have hturns := h.turns hk
  obtain ⟨_, rfl⟩ := h
  rw [Sys.applies, Bool.and_eq_true, List.all_eq_true, List.any_eq_true] at ha
  obtain ⟨hbefore, o', ho', hafter⟩ := ha
  rw [Bool.and_eq_true, decide_eq_true_eq, decide_eq_true_eq] at hafter
  rcases hturns.origin ho' with ⟨o, ho, hid, hturn⟩ | ⟨hnew, _⟩
  · have hsame : o.id = id := hid.symm.trans hafter.1
    have hnot : o.state ≠ .applying := by
      have hkey := hbefore o ho
      rw [Bool.or_eq_true, decide_eq_true_eq, decide_eq_true_eq] at hkey
      exact hkey.resolve_left fun hne => hne hsame
    cases hturn with
    | stay => exact absurd hafter.2 hnot
    | apply output worker locked hop hidle hnext hstate =>
      exact ⟨o, ho, hsame, hstate, worker, locked, hop, hidle, hnext⟩
    | _ => cases hafter.2
  · have hstate := hnew.state
    rw [hafter.2] at hstate
    cases hstate

theorem applies_once {taken : History} (h0 : σ.Initial)
    (hrun : Transition.Run Sys.Step σ taken τ) :
    taken.countP (fun p => p.1.applies p.2 id) ≤ 1 := by
  have honce := Transition.Run.once (I := Sys.Reachable) (L := Sys.Spent id)
    (E := fun σ l => σ.applies l id) (fun _ _ _ hσ hst => hσ.tail hst) ?_ ?_ hrun
    (Transition.Reachable.start_mem h0)
  · exact honce.1
  · intro σ l τ hσ hst ha
    obtain ⟨o, ho, hid, hqueued, _⟩ := Sys.Step.applies hσ.keyed hst ha
    refine ⟨?_, ?_⟩
    · rintro ⟨x, hx, hxid, hspent⟩
      rw [hσ.keyed.eq hx ho (hxid.trans hid.symm), hqueued] at hspent
      cases hspent
    · obtain ⟨_, rfl⟩ := hst
      rw [Sys.applies, Bool.and_eq_true, List.any_eq_true] at ha
      obtain ⟨_, o', ho', hafter⟩ := ha
      rw [Bool.and_eq_true, decide_eq_true_eq, decide_eq_true_eq] at hafter
      exact ⟨o', ho', hafter.1, by rw [hafter.2]; rfl⟩
  · rintro σ l τ hσ hst ⟨o, ho, hid, hspent⟩
    obtain ⟨o', ho', hid', hturn⟩ := (Sys.Step.turns hσ.keyed hst).old ho
    exact ⟨o', ho', hid'.trans hid, hturn.spent hspent⟩

end Once

/-! ### The result -/

/-- The strings of a step that are compared by their digests. -/
def Op.secrets : Op → List String
  | .submit _ _ csrf _ => [csrf]
  | .confirm _ _ csrf token => [csrf, token]
  | .prepared _ _ token => [token]
  | _ => []

/-- The bytes of such a string. -/
def Presented (history : History) (bytes : List UInt8) : Prop :=
  ∃ p ∈ history, ∃ s ∈ p.2.2.secrets, s.toList.flatMap String.utf8EncodeChar = bytes

/-- The step begins to apply `plan` for operation `id`. -/
def AppliesPlan (σ : Sys) (op : Op) (id : Uuid) (plan : Plan) : Prop :=
  ∃ worker job, op = .authorize worker ∧ σ.jobAt worker = some (job, .selected) ∧ job.id = id ∧
    job.phase = .applying ∧ job.plan = some plan ∧ authorize σ.portal job = .running

section Result
variable {σ τ : Sys} {taken before after : History} {p : Sys × (Time × Op)} {o : Operation}
  {csrf token csrf' token' : String} {id : Uuid} {plan : Plan}

theorem digestOf_inj (hcf : CollisionFree (Presented taken)) {a b : String}
    (ha : ∃ p ∈ taken, a ∈ p.2.2.secrets) (hb : ∃ p ∈ taken, b ∈ p.2.2.secrets)
    (h : Portal.digestOf a = Portal.digestOf b) : a = b := by
  obtain ⟨p, hp, hpa⟩ := ha
  obtain ⟨q, hq, hqb⟩ := hb
  have hbytes := hcf.eq ⟨p, hp, a, hpa, rfl⟩ ⟨q, hq, b, hqb, rfl⟩ h
  have hstring : String.ofList a.toList = String.ofList b.toList := by
    apply String.toByteArray_inj.mp
    simp only [String.toByteArray_ofList, List.utf8Encode]
    exact congrArg _ hbytes
  exact String.toList_inj.mp (String.ofList_injective hstring)

/-- Where digests do not collide, the operation was confirmed from its own
session with its own token. -/
theorem Confirmed.own (h : Confirmed before csrf token csrf' token' o)
    (hcf : CollisionFree (Presented (before ++ after))) :
    Confirmed before csrf token csrf token o := by
  obtain ⟨start, p, rest, rfl, hvalidated, hop, hsession, htoken, hallowed⟩ := h
  obtain ⟨submission, v, more, rfl, hsubmitted, worker, job, prepared, report, hprepared, hjob⟩ :=
    hvalidated
  obtain ⟨q, hq, hsubmit, hadmin⟩ := hsubmitted
  have hsecrets : csrf' ∈ p.2.2.secrets ∧ token' ∈ p.2.2.secrets := by
    rw [hop, Op.secrets]
    simp
  have hpast : ∀ x ∈ submission ++ v :: more ++ p :: rest,
      x ∈ submission ++ v :: more ++ p :: rest ++ after :=
    fun x hx => List.mem_append_left _ hx
  have hthis : p ∈ submission ++ v :: more ++ p :: rest ++ after := hpast p (by simp)
  have hvalidation : v ∈ submission ++ v :: more ++ p :: rest ++ after := hpast v (by simp)
  have hq' : q ∈ submission ++ v :: more ++ p :: rest ++ after := hpast q (by simp [hq])
  have hcsrf : csrf' = csrf := by
    refine digestOf_inj hcf ⟨p, hthis, hsecrets.1⟩ ⟨q, hq', ?_⟩ hsession
    rw [hsubmit, Op.secrets]
    exact List.mem_singleton_self csrf
  have htok : token' = token := by
    refine digestOf_inj hcf ⟨p, hthis, hsecrets.2⟩ ⟨v, hvalidation, ?_⟩ htoken
    rw [hprepared, Op.secrets]
    exact List.mem_singleton_self token
  rw [hcsrf, htok] at hop
  exact ⟨_, p, rest, rfl, ⟨submission, v, more, rfl, ⟨q, hq, hsubmit, hadmin⟩, worker, job, prepared,
    report, hprepared, hjob⟩, hop, rfl, rfl, hallowed⟩

/-- An operation that enters the applying state was confirmed. -/
theorem confirmed_of_applies (h0 : σ.Initial)
    (hrun : Transition.Run Sys.Step σ (before ++ p :: after) τ)
    (happlies : p.1.applies p.2 id = true) :
    ∃ o ∈ p.1.portal.operations, o.id = id ∧
      ∃ csrf token csrf' token', Confirmed before csrf token csrf' token' o := by
  obtain ⟨hbefore, _, hstep, _⟩ := hrun.split
  have hkeyed := Sys.Reachable.keyed ⟨σ, before, h0, hbefore⟩
  have hinv := Sys.inv_of_run h0 hbefore
  obtain ⟨o, ho, hid, hqueued, _⟩ := hstep.applies hkeyed happlies
  refine ⟨o, ho, hid, (hinv.operations o ho).confirmed ?_⟩
  rw [hqueued]
  rfl

/-- The plan that is applied was stored with the operation before it was
confirmed. -/
theorem confirmed_of_appliesPlan (h0 : σ.Initial)
    (hrun : Transition.Run Sys.Step σ (before ++ p :: after) τ)
    (happlies : AppliesPlan p.1 p.2.2 id plan) :
    ∃ o ∈ p.1.portal.operations, o.id = id ∧ o.plan = some plan ∧ plan.input = o.input ∧
      ∃ csrf token csrf' token', Confirmed before csrf token csrf' token' o := by
  obtain ⟨hbefore, _, _, _⟩ := hrun.split
  have hinv := Sys.inv_of_run h0 hbefore
  obtain ⟨worker, job, _, hjob, hid, hphase, hplan, hrunning⟩ := happlies
  rw [Sys.jobAt, Option.bind_eq_some_iff] at hjob
  obtain ⟨w, hw, hwork⟩ := hjob
  obtain ⟨o, ho, hsame, _, hinput, hbacked⟩ := hinv.jobs w (List.mem_of_getElem? hw) job _ hwork
  obtain ⟨_, hstored, hconfirmed⟩ := hbacked hphase
  refine ⟨o, ho, hsame.trans hid, hstored.trans hplan, ?_, hconfirmed⟩
  -- `process` compares the two inputs
  rw [authorize, hphase, hplan] at hrunning
  by_cases hadmin : p.1.portal.admins.contains job.actor = true
  · rw [hadmin] at hrunning
    by_cases hsame : plan.input = job.input
    · exact hsame.trans hinput.symm
    · simp [hsame] at hrunning
  · rw [Bool.not_eq_true] at hadmin
    rw [hadmin] at hrunning
    cases hrunning

/-- **Operations are applied at most once and only after confirmation.** -/
theorem Sys.applied_once_confirmed (h0 : σ.Initial) (hrun : Transition.Run Sys.Step σ taken τ)
    (hcf : CollisionFree (Presented taken)) (id : Uuid) :
    taken.countP (fun p => p.1.applies p.2 id) ≤ 1 ∧
      ∀ before p after, taken = before ++ p :: after →
        (p.1.applies p.2 id = true →
          ∃ o ∈ p.1.portal.operations, o.id = id ∧
            ∃ csrf token, Confirmed before csrf token csrf token o) ∧
        ∀ plan, AppliesPlan p.1 p.2.2 id plan →
          ∃ o ∈ p.1.portal.operations, o.id = id ∧ o.plan = some plan ∧ plan.input = o.input ∧
            ∃ csrf token, Confirmed before csrf token csrf token o := by
  refine ⟨applies_once h0 hrun, fun before p after hsplit => ⟨fun ha => ?_, fun plan ha => ?_⟩⟩
  · rw [hsplit] at hrun hcf
    obtain ⟨o, ho, hid, csrf, token, _, _, hconfirmed⟩ := confirmed_of_applies h0 hrun ha
    exact ⟨o, ho, hid, csrf, token, hconfirmed.own hcf⟩
  · rw [hsplit] at hrun hcf
    obtain ⟨o, ho, hid, hplan, hinput, csrf, token, _, _, hconfirmed⟩ :=
      confirmed_of_appliesPlan h0 hrun ha
    exact ⟨o, ho, hid, hplan, hinput, csrf, token, hconfirmed.own hcf⟩

end Result

end Digests

/-! ### An operation that is applied -/

namespace Sample
attribute [local instance] Sha256.standard

/-- The course is uploaded, validated, confirmed and applied. -/
def upload : List (Time × Op) :=
  [(second 1, submit 1), (second 1, .start)] ++ validation 2 ++ [(second 3, confirm 1)] ++
    application 4

/-- The upload as the run it is. -/
def uploaded : History := Transition.traceOf Sys.next start upload

theorem upload_runs : ∃ τ, Transition.replay Sys.next start upload = some τ := by
  have key : (Transition.replay Sys.next start upload).isSome = true := by decide +kernel
  exact Option.isSome_iff_exists.mp key

/-- The upload presents two strings, of different digests. -/
theorem upload_collisionFree : CollisionFree (Presented uploaded) := by
  have hsecrets : ∀ p ∈ uploaded, ∀ s ∈ p.2.2.secrets, s = "a" ∨ s = "b" := by
    have hops : uploaded.map (fun p => p.2.2.secrets) =
        [["a"], [], [], [], ["b"], ["a", "b"], [], [], []] := by decide +kernel
    intro p hp s hs
    have hmem := List.mem_map_of_mem (f := fun p => p.2.2.secrets) hp
    rw [hops] at hmem
    simp only [List.mem_cons, List.not_mem_nil, or_false] at hmem
    rcases hmem with h | h | h | h | h | h | h | h | h <;> rw [h] at hs <;> simp_all
  have hne : Sha256.sum [97] ≠ Sha256.sum [98] := by decide +kernel
  have ha : "a".toList.flatMap String.utf8EncodeChar = [97] := by decide +kernel
  have hb : "b".toList.flatMap String.utf8EncodeChar = [98] := by decide +kernel
  rintro x y ⟨p, hp, s, hs, rfl⟩ ⟨q, hq, t, ht, rfl⟩ hsum
  rcases hsecrets p hp s hs with rfl | rfl <;> rcases hsecrets q hq t ht with rfl | rfl
  · rfl
  · rw [ha, hb] at hsum
    exact absurd hsum hne
  · rw [ha, hb] at hsum
    exact absurd hsum.symm hne
  · rfl

theorem upload_applied_once_confirmed :
    (uploaded.any fun p => p.1.applies p.2 1) = true ∧
      uploaded.countP (fun p => p.1.applies p.2 1) ≤ 1 ∧
      ∀ before p after, uploaded = before ++ p :: after →
        (p.1.applies p.2 1 = true →
          ∃ o ∈ p.1.portal.operations, o.id = 1 ∧
            ∃ csrf token, Confirmed before csrf token csrf token o) ∧
        ∀ plan, AppliesPlan p.1 p.2.2 1 plan →
          ∃ o ∈ p.1.portal.operations, o.id = 1 ∧ o.plan = some plan ∧ plan.input = o.input ∧
            ∃ csrf token, Confirmed before csrf token csrf token o := by
  obtain ⟨τ, hτ⟩ := upload_runs
  refine ⟨by decide +kernel, ?_⟩
  exact Sys.applied_once_confirmed initial (Transition.run_of_replay Sys.step_of_next hτ)
    upload_collisionFree 1

end Sample

end Grading.Admin

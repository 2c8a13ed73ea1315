import SrgGrading.Admin.Turns

/-!
# The limits of an administrator

`submit` allows an administrator four active operations and sixty an hour.  An
operation that waits for its confirmation is not active, and `confirm` counts
nothing, so the first limit holds only while nothing is confirmed over it.

* `Sys.Step.withinQuota_iff`: the one step that breaks a limit.
* `Sys.quota_iff`: the limits hold along a run exactly when no step is that one.
-/

open Fallible Relational

namespace Grading.Admin

/-- At most four active operations for each administrator, and at most sixty in
the hour before any moment from now on. -/
def Sys.WithinQuota (σ : Sys) : Prop :=
  ∀ actor, σ.portal.activeCount actor ≤ 4 ∧
    ∀ now, σ.clock ≤ now → σ.portal.recentCount now actor ≤ 60

/-- An operation is confirmed while its actor has four active ones already. -/
def Sys.overfills [Sha256] (σ : Sys) (l : Time × Op) : Bool :=
  match l.2 with
  | .confirm id actor csrf token =>
    decide (4 ≤ σ.portal.activeCount actor) &&
      σ.portal.operations.any (σ.portal.confirmable l.1 id actor csrf token)
  | _ => false

section Digests
variable [Sha256] {σ τ : Sys} {l : Time × Op} {now : Time} {op : Op} {o o' : Operation}

/-! ### Turns and the two counts -/

/-- The columns that are counted by. -/
theorem Turn.counted (h : Turn σ now op o o') :
    o'.actor = o.actor ∧ o'.createdAt = o.createdAt := by
  cases h <;> exact ⟨rfl, rfl⟩

/-- Only a confirmation makes an operation active. -/
theorem Turn.active (h : Turn σ now op o o') (hactive : o'.state.active = true) :
    o.state.active = true ∨ ∃ csrf token, op = .confirm o.id o.actor csrf token ∧
      σ.portal.confirmable now o.id o.actor csrf token o = true := by
  cases h with
  | stay => exact Or.inl hactive
  | revalidate _ hstate | validate _ hstate =>
    rw [hstate]
    exact Or.inl rfl
  | apply output worker locked hop hidle hnext hstate =>
    rw [hstate]
    exact Or.inl rfl
  | confirm csrf token hop htaken => exact Or.inr ⟨csrf, token, hop, htaken⟩
  | _ => cases hactive

/-- The operations after a step that submits none. -/
def Keeps (σ : Sys) (now : Time) (op : Op) (operations : List Operation) : Prop :=
  Grows Operation.id (Turn σ now op) (fun _ => False) σ.portal.operations operations

/-- A step submits one operation or none. -/
theorem Sys.Step.submits_or_keeps (hk : Keyed Operation.id σ.portal.operations)
    (h : Sys.Step σ l τ) :
    (∃ o, τ.portal.operations = σ.portal.operations ++ [o] ∧ Submits σ l.1 l.2 o) ∨
      Keeps σ l.1 l.2 τ.portal.operations := by
  have hturns := h.turns hk
  have hkeeps : (∀ fresh actor csrf input, l.2 ≠ .submit fresh actor csrf input) →
      Keeps σ l.1 l.2 τ.portal.operations := by
    intro hne
    refine hturns.mono (fun _ _ _ hturn => hturn) fun o hnew => ?_
    obtain ⟨csrf, hop, _⟩ := hnew.op
    exact hne _ _ _ _ hop
  obtain ⟨now, op⟩ := l
  obtain ⟨_, rfl⟩ := h
  cases op with
  | submit fresh actor csrf input =>
    simp only [Sys.perform]
    split
    · rename_i hsubmit
      exact Or.inl (submit_spec hsubmit)
    · exact Or.inr (Grows.refl fun o _ => .refl o)
  | _ => exact Or.inr (hkeeps fun _ _ _ _ hop => by cases hop)

/-- Where nothing of an administrator is confirmed, nothing becomes active. -/
theorem Keeps.activeCount_le {actor : Int} (h : Keeps σ l.1 l.2 τ.portal.operations)
    (hnot : ∀ o ∈ σ.portal.operations, o.actor = actor → ∀ csrf token,
      l.2 = .confirm o.id o.actor csrf token →
        σ.portal.confirmable l.1 o.id o.actor csrf token o = false) :
    τ.portal.activeCount actor ≤ σ.portal.activeCount actor := by
  refine h.countP_le (fun o ho o' hturn hcounted => ?_) fun _ hfalse => hfalse.elim
  rw [Bool.and_eq_true, decide_eq_true_eq] at hcounted
  have hactor := hturn.counted.1.symm.trans hcounted.1
  rcases hturn.active hcounted.2 with hactive | ⟨csrf, token, hop, htaken⟩
  · rw [hactor, hactive]
    simp
  · rw [hnot o ho hactor csrf token hop] at htaken
    cases htaken

theorem Keeps.recentCount_le {actor : Int} {later : Time}
    (h : Keeps σ l.1 l.2 τ.portal.operations) :
    τ.portal.recentCount later actor ≤ σ.portal.recentCount later actor := by
  refine h.countP_le (fun o ho o' hturn hcounted => ?_) fun _ hfalse => hfalse.elim
  rw [hturn.counted.1, hturn.counted.2] at hcounted
  exact hcounted

omit [Sha256] in
/-- The hour moves on. -/
theorem recentCount_anti (p : Portal) (actor : Int) {later : Time} (hle : now ≤ later) :
    p.recentCount later actor ≤ p.recentCount now actor := by
  refine List.countP_mono_left fun o _ hcounted => ?_
  rw [Bool.and_eq_true, decide_eq_true_eq, decide_eq_true_eq] at hcounted ⊢
  exact ⟨hcounted.1, lt_of_le_of_lt (Int.sub_le_sub_right hle hour) hcounted.2⟩

/-! ### Steps -/

/-- A submission stays within the limits. -/
theorem Submits.withinQuota (hnew : Submits σ l.1 l.2 o) (hclock : σ.clock ≤ l.1)
    (hτ : τ.portal.operations = σ.portal.operations ++ [o] ∧ τ.clock = l.1)
    (hq : σ.WithinQuota) : τ.WithinQuota := by
  intro actor
  obtain ⟨_, hrecent, hactive⟩ := hnew.allowed
  obtain ⟨hold, hhour⟩ := hq actor
  rw [Portal.activeCount, hτ.1, List.countP_append, List.countP_singleton]
  refine ⟨?_, fun later hlater => ?_⟩
  · by_cases hactor : o.actor = actor
    · rw [hactor, Portal.activeCount] at hactive
      split <;> omega
    · rw [if_neg (by simp [hactor])]
      exact hold
  · rw [hτ.2] at hlater
    rw [Portal.recentCount, hτ.1, List.countP_append, List.countP_singleton]
    have hanti := recentCount_anti σ.portal actor hlater
    by_cases hactor : o.actor = actor
    · rw [hactor] at hrecent
      rw [Portal.recentCount] at hanti
      split <;> omega
    · rw [if_neg (by simp [hactor])]
      exact hhour later (hclock.trans hlater)

/-- A confirmed operation is one more active one. -/
theorem activeCount_confirm (hk : Keyed Operation.id σ.portal.operations) {id : Uuid}
    {actor : Int} {csrf token : String} (ho : o ∈ σ.portal.operations)
    (htaken : σ.portal.confirmable now id actor csrf token o = true) :
    (σ.portal.confirm now id actor csrf token).1.activeCount actor =
      σ.portal.activeCount actor + 1 := by
  have hspec : ∀ x, σ.portal.confirmable now id actor csrf token x = true →
      x.id = id ∧ x.actor = actor ∧ x.state = .ready := by
    intro x hx
    simp only [Portal.confirmable, Bool.and_eq_true, decide_eq_true_eq] at hx
    exact ⟨hx.1.1.1.1.1.1, hx.1.1.1.1.1.2, hx.1.1.1.2⟩
  obtain ⟨hid, hactor, hready⟩ := hspec o htaken
  rw [Portal.activeCount, confirm_operations]
  refine countP_updateWhere_succ hk ho htaken (fun x _ hx => (hspec x hx).1.trans hid.symm) ?_ ?_
  · rw [hready, Bool.and_eq_false_iff]
    exact Or.inr rfl
  · rw [Bool.and_eq_true, decide_eq_true_eq]
    exact ⟨hactor, rfl⟩

/-- **One step** keeps the limits unless it confirms an operation over them. -/
theorem Sys.Step.withinQuota_iff (hk : Keyed Operation.id σ.portal.operations)
    (hq : σ.WithinQuota) (h : Sys.Step σ l τ) : τ.WithinQuota ↔ σ.overfills l = false := by
  have hcase := h.submits_or_keeps hk
  obtain ⟨hclock, hτ⟩ := h
  have hclock' : τ.clock = l.1 := by rw [hτ]
  rcases hcase with ⟨o, hoperations, hnew⟩ | hkeeps
  · obtain ⟨csrf, hop, _⟩ := hnew.op
    have hfalse : σ.overfills l = false := by rw [overfills, hop]
    exact ⟨fun _ => hfalse, fun _ => hnew.withinQuota hclock ⟨hoperations, hclock'⟩ hq⟩
  · constructor
    · intro hτq
      by_contra hover
      rw [Bool.not_eq_false] at hover
      obtain ⟨now, op⟩ := l
      cases op with
      | confirm id actor csrf token =>
        simp only [overfills, Bool.and_eq_true, decide_eq_true_eq, List.any_eq_true] at hover
        obtain ⟨hfull, o, ho, htaken⟩ := hover
        have hcount := (hτq actor).1
        have hone : τ.portal.activeCount actor = σ.portal.activeCount actor + 1 := by
          rw [hτ]
          exact activeCount_confirm hk ho htaken
        omega
      | _ => cases hover
    · intro hover actor
      refine ⟨?_, fun later hlater => ?_⟩
      · by_cases hconfirms : ∃ o ∈ σ.portal.operations, o.actor = actor ∧ ∃ csrf token,
            l.2 = .confirm o.id o.actor csrf token ∧
              σ.portal.confirmable l.1 o.id o.actor csrf token o = true
        · -- the confirmation finds fewer than four
          obtain ⟨o, ho, rfl, csrf, token, hop, htaken⟩ := hconfirms
          have hone : τ.portal.activeCount o.actor = σ.portal.activeCount o.actor + 1 := by
            rw [hτ, hop]
            exact activeCount_confirm hk ho htaken
          have hany : σ.portal.operations.any
              (σ.portal.confirmable l.1 o.id o.actor csrf token) = true :=
            List.any_eq_true.mpr ⟨o, ho, htaken⟩
          simp only [overfills, hop, hany, Bool.and_true, decide_eq_false_iff_not] at hover
          omega
        · refine (hkeeps.activeCount_le fun o ho hactor csrf token hop => ?_).trans (hq actor).1
          rw [Bool.eq_false_iff]
          exact fun htaken => hconfirms ⟨o, ho, hactor, csrf, token, hop, htaken⟩
      · rw [hclock'] at hlater
        exact hkeeps.recentCount_le.trans ((hq actor).2 later (hclock.trans hlater))

/-! ### The result -/

/-- **The limits hold along a run exactly when nothing is confirmed over them.** -/
theorem Sys.quota_iff {taken : List (Sys × (Time × Op))} (h0 : σ.Initial)
    (hrun : Transition.Run Sys.Step σ taken τ) :
    ((∀ p ∈ taken, p.1.WithinQuota) ∧ τ.WithinQuota) ↔
      ∀ p ∈ taken, p.1.overfills p.2 = false := by
  refine Transition.Run.exact_of_step (fun σ l => σ.overfills l = false) (J := Sys.Reachable)
    (Q := fun _ => True) (I := Sys.WithinQuota)
    (fun _ _ _ hσ hst => hσ.tail hst) (fun _ _ _ _ _ => trivial) ?_ hrun
    (Transition.Reachable.start_mem h0) ?_ trivial
  · intro σ l τ hσ _ hq hst
    exact Sys.Step.withinQuota_iff hσ.keyed hq hst
  · intro actor
    rw [Portal.activeCount, h0.operations]
    refine ⟨Nat.zero_le 4, fun now _ => ?_⟩
    rw [Portal.recentCount, h0.operations]
    exact Nat.zero_le 60

end Digests

/-! ### An operation confirmed over the limit -/

namespace Sample
attribute [local instance] Sha256.standard

/-- A first operation waits for its confirmation while four more are submitted;
then it is confirmed. -/
def crowding : List (Time × Op) :=
  [(second 1, submit 1), (second 1, .start)] ++ validation 2 ++
    [(second 3, submit 2), (second 3, submit 3), (second 3, submit 4), (second 3, submit 5),
      (second 4, confirm 1)]

theorem crowding_runs : ∃ τ, Transition.replay Sys.next start crowding = some τ ∧
    τ.portal.activeCount 7 = 5 := by
  have key : (Transition.replay Sys.next start crowding).any
      (fun τ => decide (τ.portal.activeCount 7 = 5)) = true := by decide +kernel
  obtain ⟨τ, hτ, hfive⟩ := Option.any_eq_true _ _ |>.mp key
  exact ⟨τ, hτ, of_decide_eq_true hfive⟩

/-- Five operations of one administrator are active. -/
theorem quota_exceeded : ¬ ∀ σ, Sys.Reachable σ → σ.WithinQuota := by
  intro h
  obtain ⟨τ, hτ, hfive⟩ := crowding_runs
  have hrun := Transition.run_of_replay Sys.step_of_next hτ
  have hfour := (h τ ⟨start, _, initial, hrun⟩ 7).1
  omega

theorem quota_crowding :
    ((∀ p ∈ Transition.traceOf Sys.next start crowding, p.1.WithinQuota) ∧
      ∃ τ, Transition.replay Sys.next start crowding = some τ ∧ τ.WithinQuota) ↔
      ∀ p ∈ Transition.traceOf Sys.next start crowding, p.1.overfills p.2 = false := by
  obtain ⟨τ, hτ, _⟩ := crowding_runs
  have hiff := Sys.quota_iff initial (Transition.run_of_replay Sys.step_of_next hτ)
  rw [hτ]
  simp only [Option.some_inj, exists_eq_left']
  exact hiff

end Sample

end Grading.Admin

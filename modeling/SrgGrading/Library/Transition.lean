import Mathlib.Tactic.Common

/-!
# Runs of a labelled transition system

A system is a relation `step s l s'` between states, with a label `l` that
names what was done.  A `Run` lists the transitions taken, each with the state
it was taken in.

* `Run.invariant`: what every step keeps, a run keeps.
* `Run.guarded`: the same for a run whose steps all meet a side condition.
* `Run.exact_of_step`: where the side condition is exact for a step, it is for a run.
* `Run.once`: an event that needs a latch open, and shuts it for good, happens
  at most once in a run.
* `run_of_replay`: replaying steps that are computed is a run.
-/

namespace Transition

variable {σ ℓ : Type*} (step : σ → ℓ → σ → Prop)

/-- A run from `s`: the transitions taken, in order, and the state after them. -/
inductive Run (s : σ) : List (σ × ℓ) → σ → Prop
  | nil : Run s [] s
  | snoc {taken : List (σ × ℓ)} {t u : σ} {l : ℓ} :
      Run s taken t → step t l u → Run s (taken ++ [(t, l)]) u

/-- The states some run from `start` ends in. -/
def Reachable (start : σ → Prop) (s : σ) : Prop :=
  ∃ s₀ taken, start s₀ ∧ Run step s₀ taken s

variable {step}

namespace Run

variable {s t u : σ} {taken more : List (σ × ℓ)} {l : ℓ}

theorem single (h : step s l t) : Run step s [(s, l)] t := .snoc .nil h

theorem trans (h : Run step s taken t) (h' : Run step t more u) :
    Run step s (taken ++ more) u := by
  induction h' with
  | nil => rw [List.append_nil]; exact h
  | snoc _ hs ih => rw [← List.append_assoc]; exact .snoc ih hs

/-- **The invariant rule.** -/
theorem invariant {I : σ → Prop} (hstep : ∀ s l t, I s → step s l t → I t)
    (h : Run step s taken t) (hs : I s) : I t := by
  induction h with
  | nil => exact hs
  | snoc _ hst ih => exact hstep _ _ _ ih hst

/-- Every state a run passes through satisfies the invariant. -/
theorem invariant_taken {I : σ → Prop} (hstep : ∀ s l t, I s → step s l t → I t)
    (h : Run step s taken t) (hs : I s) : ∀ p ∈ taken, I p.1 := by
  induction h with
  | nil => intro p hp; simp at hp
  | snoc hr _ ih =>
    intro p hp
    rcases List.mem_append.mp hp with h1 | h1
    · exact ih p h1
    · rw [List.mem_singleton] at h1
      rw [h1]
      exact hr.invariant hstep hs

/-- **The guarded invariant rule**: an invariant that a step keeps when it
meets `ok` holds after every run whose steps all meet it. -/
theorem guarded (ok : σ → ℓ → Prop) {I : σ → Prop}
    (hstep : ∀ s l t, I s → ok s l → step s l t → I t)
    (h : Run step s taken t) (hok : ∀ p ∈ taken, ok p.1 p.2) (hs : I s) : I t := by
  induction h with
  | nil => exact hs
  | snoc _ hst ih =>
    have hlast := hok _ (List.mem_append_right _ (List.mem_singleton_self _))
    exact hstep _ _ _ (ih fun p hp => hok p (List.mem_append_left _ hp)) hlast hst

/-- **The exact rule**: where a step keeps `I` exactly when it meets `ok`, `I`
holds all along a run exactly when every step of it meets `ok`.  `J` is known
of every state from the start on, `Q` back from the end. -/
theorem exact_of_step (ok : σ → ℓ → Prop) {I J Q : σ → Prop}
    (hJ : ∀ s l t, J s → step s l t → J t) (hQ : ∀ s l t, step s l t → Q t → Q s)
    (hstep : ∀ s l t, J s → Q t → I s → step s l t → (I t ↔ ok s l))
    (h : Run step s taken t) (hJs : J s) (hIs : I s) (hQt : Q t) :
    ((∀ p ∈ taken, I p.1) ∧ I t) ↔ ∀ p ∈ taken, ok p.1 p.2 := by
  induction h with
  | nil =>
    constructor
    · intro _ p hp
      cases hp
    · intro _
      refine ⟨fun p hp => ?_, hIs⟩
      cases hp
  | @snoc taken t u l hr hst ih =>
    have ih := ih (hQ _ _ _ hst hQt)
    have hJt := hr.invariant hJ hJs
    have hlast : (t, l) ∈ taken ++ [(t, l)] := List.mem_append_right _ (List.mem_singleton_self _)
    constructor
    · rintro ⟨htaken, hu⟩ p hp
      have hIt := htaken (t, l) hlast
      rcases List.mem_append.mp hp with h1 | h1
      · exact ih.mp ⟨fun q hq => htaken q (List.mem_append_left _ hq), hIt⟩ p h1
      · rw [List.mem_singleton.mp h1]
        exact (hstep _ _ _ hJt hQt hIt hst).mp hu
    · intro hok
      obtain ⟨hbefore, hIt⟩ := ih.mpr fun p hp => hok p (List.mem_append_left _ hp)
      refine ⟨fun p hp => ?_, (hstep _ _ _ hJt hQt hIt hst).mpr (hok (t, l) hlast)⟩
      rcases List.mem_append.mp hp with h1 | h1
      · exact hbefore p h1
      · rw [List.mem_singleton.mp h1]
        exact hIt

/-- A run up to one of its transitions. -/
theorem split {p : σ × ℓ} {after : List (σ × ℓ)} (h : Run step s (taken ++ p :: after) t) :
    Run step s taken p.1 ∧ ∃ u, step p.1 p.2 u ∧ Run step u after t := by
  generalize hall : taken ++ p :: after = all at h
  induction h generalizing after with
  | nil =>
    rw [List.append_eq_nil_iff] at hall
    cases hall.2
  | @snoc all' t u l hr hst ih =>
    rcases List.eq_nil_or_concat after with hnil | ⟨init, last, hlast⟩
    · rw [hnil] at hall ⊢
      obtain ⟨rfl, hp⟩ := List.append_inj' hall rfl
      cases hp
      exact ⟨hr, u, hst, .nil⟩
    · rw [hlast, List.concat_eq_append, ← List.cons_append, ← List.append_assoc] at hall
      obtain ⟨hinit, hp⟩ := List.append_inj' hall rfl
      cases hp
      obtain ⟨hbefore, v, hv, hafter⟩ := ih hinit
      rw [hlast, List.concat_eq_append]
      exact ⟨hbefore, v, hv, .snoc hafter hst⟩

/-- Every transition of a run is a step from a state the run reached before. -/
theorem mem_step (h : Run step s taken t) {p : σ × ℓ} (hp : p ∈ taken) :
    ∃ before u after, Run step s before p.1 ∧ step p.1 p.2 u ∧ Run step u after t := by
  induction h with
  | nil => simp at hp
  | @snoc taken t u l hr hst ih =>
    rcases List.mem_append.mp hp with h1 | h1
    · obtain ⟨b, v, a, hb, hv, ha⟩ := ih h1
      exact ⟨b, v, a ++ [(t, l)], hb, hv, .snoc ha hst⟩
    · rw [List.mem_singleton] at h1
      subst h1
      exact ⟨taken, u, [], hr, hst, .nil⟩

/-- **At most once.**  `E` happens only while the latch `L` is open and shuts
it; no step opens it again.  Then `E` happens at most once. -/
theorem once {I L : σ → Prop} {E : σ → ℓ → Bool}
    (hI : ∀ s l t, I s → step s l t → I t)
    (hopen : ∀ s l t, I s → step s l t → E s l = true → ¬ L s ∧ L t)
    (hshut : ∀ s l t, I s → step s l t → L s → L t)
    (h : Run step s taken t) (hs : I s) :
    taken.countP (fun p => E p.1 p.2) ≤ 1 ∧
      (0 < taken.countP (fun p => E p.1 p.2) → L t) := by
  induction h with
  | nil => simp
  | @snoc taken t u l hr hst ih =>
    have hIt := hr.invariant hI hs
    rw [List.countP_append, List.countP_singleton]
    by_cases hE : E t l = true
    · obtain ⟨hL, hLu⟩ := hopen _ _ _ hIt hst hE
      have hzero : taken.countP (fun p => E p.1 p.2) = 0 := by
        by_contra hne
        exact hL (ih.2 (Nat.pos_of_ne_zero hne))
      rw [hzero, if_pos hE]
      exact ⟨Nat.le_refl 1, fun _ => hLu⟩
    · rw [if_neg hE, Nat.add_zero]
      exact ⟨ih.1, fun hpos => hshut _ _ _ hIt hst (ih.2 hpos)⟩

end Run

namespace Reachable

variable {start : σ → Prop} {s t : σ}

theorem start_mem (h : start s) : Reachable step start s := ⟨s, [], h, .nil⟩

theorem run {taken : List (σ × ℓ)} (h : Reachable step start s) (hr : Run step s taken t) :
    Reachable step start t := by
  obtain ⟨s₀, before, h0, hb⟩ := h
  exact ⟨s₀, before ++ taken, h0, hb.trans hr⟩

theorem tail {l : ℓ} (h : Reachable step start s) (hs : step s l t) : Reachable step start t :=
  h.run (.single hs)

/-- The invariant rule for reachable states; each step starts in a reachable one. -/
theorem invariant {I : σ → Prop} (hinit : ∀ s, start s → I s)
    (hstep : ∀ s l t, Reachable step start s → I s → step s l t → I t)
    (h : Reachable step start s) : I s := by
  obtain ⟨s₀, taken, h0, hr⟩ := h
  induction hr with
  | nil => exact hinit _ h0
  | snoc hr hst ih => exact hstep _ _ _ ⟨s₀, _, h0, hr⟩ ih hst

end Reachable

/-! ### Replaying -/

section Replay

variable (next : σ → ℓ → Option σ)

/-- The state after the given steps, if each of them may be taken. -/
def replay : σ → List ℓ → Option σ
  | s, [] => some s
  | s, l :: rest => (next s l).bind fun t => replay t rest

/-- The transitions `replay` takes. -/
def traceOf : σ → List ℓ → List (σ × ℓ)
  | _, [] => []
  | s, l :: rest => (s, l) :: ((next s l).map fun t => traceOf t rest).getD []

/-- The labels of a trace are those given. -/
theorem mem_of_traceOf {next : σ → ℓ → Option σ} {ls : List ℓ} {s : σ} {p : σ × ℓ}
    (hp : p ∈ traceOf next s ls) : p.2 ∈ ls := by
  induction ls generalizing s with
  | nil => cases hp
  | cons l rest ih =>
    rcases List.mem_cons.mp hp with h | h
    · rw [h]
      exact List.mem_cons_self
    · cases hnext : next s l with
      | none =>
        rw [hnext] at h
        cases h
      | some t =>
        rw [hnext] at h
        exact List.mem_cons_of_mem _ (ih h)

/-- What `replay` does is a run. -/
theorem run_of_replay {next : σ → ℓ → Option σ} (hnext : ∀ s l t, next s l = some t → step s l t)
    {ls : List ℓ} : ∀ {s t : σ}, replay next s ls = some t →
    Run step s (traceOf next s ls) t := by
  induction ls with
  | nil =>
    intro s t h
    rw [replay, Option.some_inj] at h
    rw [h]
    exact .nil
  | cons l rest ih =>
    intro s t h
    rw [replay, Option.bind_eq_some_iff] at h
    obtain ⟨u, hu, hrest⟩ := h
    have hfirst := Run.single (hnext s l u hu)
    rw [traceOf, hu]
    exact hfirst.trans (ih hrest)

end Replay

end Transition

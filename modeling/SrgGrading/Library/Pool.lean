import SrgGrading.Library.Program
import SrgGrading.Library.Transition

/-!
# Pools of programs

Any number of programs run side by side on one world, each doing one request at
a time.  A program is called with an argument, ends with a value or an error,
and may be killed between any two requests.

* `eval`: what a program yields when every request has one answer.
* `Within`: what a program yields when the answers are among the expected ones.
* `Ends`: a program that runs alone.
* `Pool.within`: what every call of a pool yields.
-/

namespace Program

variable {Req : Type → Type} {ε α β : Type}

/-- What a program yields when each request has one answer. -/
def eval (answer : {β : Type} → Req β → β) : Program Req ε α → Except ε α
  | done a => .ok a
  | fail e => .error e
  | call r k => eval answer (k (answer r))

@[simp] theorem eval_pure (answer : {β : Type} → Req β → β) (a : α) :
    eval answer (Pure.pure a : Program Req ε α) = .ok a := rfl

@[simp] theorem eval_request (answer : {β : Type} → Req β → β) (r : Req β) :
    eval answer (request r : Program Req ε β) = .ok (answer r) := rfl

@[simp] theorem eval_lift (answer : {β : Type} → Req β → β) (x : Except ε α) :
    eval answer (lift x : Program Req ε α) = x := by
  cases x <;> rfl

@[simp] theorem eval_bind (answer : {β : Type} → Req β → β) (p : Program Req ε α)
    (f : α → Program Req ε β) :
    eval answer (p >>= f) = eval answer p >>= fun a => eval answer (f a) := by
  induction p with
  | done a => rfl
  | fail e => rfl
  | call r k ih => exact ih (answer r)

/-! ### Expected answers -/

/-- Every request of a program is in `ok` while the answers are in `ans`, and it
yields what `Q` says. -/
def Within (ok : {β : Type} → Req β → Prop) (ans : {β : Type} → Req β → β → Prop) :
    Program Req ε α → (Except ε α → Prop) → Prop
  | done a, Q => Q (.ok a)
  | fail e, Q => Q (.error e)
  | call r k, Q => ok r ∧ ∀ a, ans r a → Within ok ans (k a) Q

namespace Within

variable {ok : {β : Type} → Req β → Prop} {ans : {β : Type} → Req β → β → Prop}
  {p : Program Req ε α} {Q : Except ε α → Prop}

theorem mono {Q' : Except ε α → Prop} (h : Within ok ans p Q) (hQ : ∀ r, Q r → Q' r) :
    Within ok ans p Q' := by
  induction p with
  | done a => exact hQ _ h
  | fail e => exact hQ _ h
  | call r k ih => exact ⟨h.1, fun a ha => ih a (h.2 a ha)⟩

/-- **The rule of sequence**; an error of the first program is one of both. -/
theorem bind {f : α → Program Req ε β} {R : Except ε β → Prop} (h : Within ok ans p Q)
    (hok : ∀ a, Q (.ok a) → Within ok ans (f a) R) (herror : ∀ e, Q (.error e) → R (.error e)) :
    Within ok ans (p >>= f) R := by
  induction p with
  | done a => exact hok a h
  | fail e => exact herror e h
  | call r k ih => exact ⟨h.1, fun a ha => ih a (h.2 a ha)⟩

theorem request {r : Req α} (h : ok r) (hQ : ∀ a, ans r a → Q (.ok a)) :
    Within ok ans (Program.request r : Program Req ε α) Q :=
  ⟨h, hQ⟩

theorem lift {x : Except ε α} (h : Q x) : Within ok ans (Program.lift x : Program Req ε α) Q := by
  cases x <;> exact h

theorem pure {a : α} (h : Q (.ok a)) : Within ok ans (Pure.pure a : Program Req ε α) Q := h

end Within

/-! ### Programs that run alone -/

section Alone
variable {W : Type}

section Ends
variable (serve : {β : Type} → Req β → W → β → W → Prop)

/-- A program that nobody interferes with, from one world to another. -/
inductive Ends : Program Req ε α → W → Except ε α → W → Prop
  | done (a : α) (w : W) : Ends (done a) w (.ok a) w
  | fail (e : ε) (w : W) : Ends (fail e) w (.error e) w
  | call {β : Type} {r : Req β} {k : β → Program Req ε α} {w w' w'' : W} {a : β}
      {result : Except ε α} (h : serve r w a w') (hrest : Ends (k a) w' result w'') :
      Ends (call r k) w result w''

end Ends

/-- A program on a service that is computed. -/
def exec (step : {β : Type} → Req β → W → β × W) : Program Req ε α → W → Except ε α × W
  | done a, w => (.ok a, w)
  | fail e, w => (.error e, w)
  | call r k, w => exec step (k (step r w).1) (step r w).2

theorem ends_of_exec {serve : {β : Type} → Req β → W → β → W → Prop}
    {step : {β : Type} → Req β → W → β × W}
    (hstep : ∀ {β : Type} (r : Req β) w, serve r w (step r w).1 (step r w).2)
    (p : Program Req ε α) (w : W) : Ends serve p w (p.exec step w).1 (p.exec step w).2 := by
  induction p generalizing w with
  | done a => exact .done a w
  | fail e => exact .fail e w
  | call r k ih => exact .call (hstep r w) (ih _ _)

/-- What a program yields alone is among what it yields with expected answers. -/
theorem Within.ends {ok : {β : Type} → Req β → Prop} {ans : {β : Type} → Req β → β → Prop}
    {serve : {β : Type} → Req β → W → β → W → Prop} {I : W → Prop} {p : Program Req ε α}
    {Q : Except ε α → Prop} (h : Within ok ans p Q)
    (hserve : ∀ {β : Type} (r : Req β) w a w', I w → ok r → serve r w a w' → ans r a ∧ I w')
    {w w' : W} {result : Except ε α} (hI : I w) (hends : Ends serve p w result w') :
    Q result ∧ I w' := by
  induction hends with
  | done a w => exact ⟨h, hI⟩
  | fail e w => exact ⟨h, hI⟩
  | call hs _ ih =>
    obtain ⟨ha, hI'⟩ := hserve _ _ _ _ hI h.1 hs
    exact ih (h.2 _ ha) hI'

end Alone

end Program

/-! ### Pools -/

/-- What is called, who serves its requests, and what calling it and ending it
do to the world. -/
structure Service (Req : Type → Type) (ε α κ W : Type) where
  body : κ → Program Req ε α
  serve : {β : Type} → κ → Req β → W → β → W → Prop
  enter : κ → W → W → Prop
  leave : κ → W → W → Prop

/-- A world and the calls in progress. -/
structure Pool (Req : Type → Type) (ε α κ W : Type) where
  world : W
  running : List (κ × Program Req ε α)

namespace Pool

inductive Event (ε α κ : Type)
  | start (c : κ)
  | request (c : κ)
  | finish (c : κ) (result : Except ε α)
  | kill (c : κ)

variable {Req : Type → Type} {ε α κ W : Type}

inductive Step (service : Service Req ε α κ W) :
    Pool Req ε α κ W → Event ε α κ → Pool Req ε α κ W → Prop
  | start {w w' : W} {running : List (κ × Program Req ε α)} (c : κ) (h : service.enter c w w') :
      Step service ⟨w, running⟩ (.start c) ⟨w', running ++ [(c, service.body c)]⟩
  | request {w w' : W} {before after : List (κ × Program Req ε α)} {c : κ} {β : Type}
      {r : Req β} {k : β → Program Req ε α} {a : β} (h : service.serve c r w a w') :
      Step service ⟨w, before ++ (c, .call r k) :: after⟩ (.request c)
        ⟨w', before ++ (c, k a) :: after⟩
  | done {w w' : W} {before after : List (κ × Program Req ε α)} {c : κ} (a : α)
      (h : service.leave c w w') :
      Step service ⟨w, before ++ (c, .done a) :: after⟩ (.finish c (.ok a)) ⟨w', before ++ after⟩
  | fail {w w' : W} {before after : List (κ × Program Req ε α)} {c : κ} (e : ε)
      (h : service.leave c w w') :
      Step service ⟨w, before ++ (c, .fail e) :: after⟩ (.finish c (.error e)) ⟨w', before ++ after⟩
  | kill {w w' : W} {before after : List (κ × Program Req ε α)} {c : κ}
      {p : Program Req ε α} (h : service.leave c w w') :
      Step service ⟨w, before ++ (c, p) :: after⟩ (.kill c) ⟨w', before ++ after⟩

section Within
variable {service : Service Req ε α κ W} {I : W → Prop} {ok : {β : Type} → Req β → Prop}
  {ans : {β : Type} → Req β → β → Prop} {Q : κ → Except ε α → Prop}

/-- Every call in progress will yield what `Q` says. -/
def Promises (ok : {β : Type} → Req β → Prop) (ans : {β : Type} → Req β → β → Prop)
    (Q : κ → Except ε α → Prop) (σ : Pool Req ε α κ W) : Prop :=
  ∀ e ∈ σ.running, e.2.Within ok ans (Q e.1)

theorem Promises.step (hbody : ∀ c, (service.body c).Within ok ans (Q c))
    (hserve : ∀ {β : Type} c (r : Req β) w a w', I w → ok r → service.serve c r w a w' →
      ans r a ∧ I w')
    (henter : ∀ c w w', I w → service.enter c w w' → I w')
    (hleave : ∀ c w w', I w → service.leave c w w' → I w')
    {σ τ : Pool Req ε α κ W} {e : Event ε α κ} (hσ : I σ.world ∧ σ.Promises ok ans Q)
    (h : Step service σ e τ) :
    (I τ.world ∧ τ.Promises ok ans Q) ∧ ∀ c result, e = .finish c result → Q c result := by
  obtain ⟨hI, hall⟩ := hσ
  have hothers : ∀ {before after : List (κ × Program Req ε α)} {x : κ × Program Req ε α},
      (∀ e ∈ before ++ x :: after, e.2.Within ok ans (Q e.1)) →
      ∀ e ∈ before ++ after, e.2.Within ok ans (Q e.1) := fun hall e he =>
    hall e (List.mem_append.mpr ((List.mem_append.mp he).imp_right (List.mem_cons_of_mem _)))
  cases h with
  | start c h =>
    refine ⟨⟨henter c _ _ hI h, fun x hx => ?_⟩, fun _ _ h => by cases h⟩
    rcases List.mem_append.mp hx with hold | hnew
    · exact hall x hold
    · rw [List.mem_singleton.mp hnew]
      exact hbody c
  | request h =>
    have hmine := hall _ (List.mem_append_right _ List.mem_cons_self)
    obtain ⟨ha, hI'⟩ := hserve _ _ _ _ _ hI hmine.1 h
    refine ⟨⟨hI', fun x hx => ?_⟩, fun _ _ h => by cases h⟩
    rcases List.mem_append.mp hx with hx | hx
    · exact hall x (List.mem_append_left _ hx)
    · rcases List.mem_cons.mp hx with hx | hx
      · rw [hx]
        exact hmine.2 _ ha
      · exact hall x (List.mem_append_right _ (List.mem_cons_of_mem _ hx))
  | done a h =>
    have hmine := hall _ (List.mem_append_right _ List.mem_cons_self)
    refine ⟨⟨hleave _ _ _ hI h, hothers hall⟩, fun c result heq => ?_⟩
    cases heq
    exact hmine
  | fail error h =>
    have hmine := hall _ (List.mem_append_right _ List.mem_cons_self)
    refine ⟨⟨hleave _ _ _ hI h, hothers hall⟩, fun c result heq => ?_⟩
    cases heq
    exact hmine
  | kill h => exact ⟨⟨hleave _ _ _ hI h, hothers hall⟩, fun _ _ h => by cases h⟩

/-- **What the calls of a pool yield**, when the world keeps answering as they
expect. -/
theorem within (hbody : ∀ c, (service.body c).Within ok ans (Q c))
    (hserve : ∀ {β : Type} c (r : Req β) w a w', I w → ok r → service.serve c r w a w' →
      ans r a ∧ I w')
    (henter : ∀ c w w', I w → service.enter c w w' → I w')
    (hleave : ∀ c w w', I w → service.leave c w w' → I w')
    {σ τ : Pool Req ε α κ W} {taken : List (Pool Req ε α κ W × Event ε α κ)}
    (hI : I σ.world) (hidle : σ.running = []) (hrun : Transition.Run (Step service) σ taken τ) :
    I τ.world ∧ ∀ p ∈ taken, ∀ c result, p.2 = .finish c result → Q c result := by
  have hstart : I σ.world ∧ σ.Promises ok ans Q := by
    refine ⟨hI, fun e he => ?_⟩
    rw [hidle] at he
    cases he
  have hkeep : ∀ (s : Pool Req ε α κ W) e t, I s.world ∧ s.Promises ok ans Q →
      Step service s e t → I t.world ∧ t.Promises ok ans Q := fun s e t hs hst =>
    (Promises.step hbody hserve henter hleave hs hst).1
  refine ⟨(hrun.invariant hkeep hstart).1, fun p hp c result heq => ?_⟩
  have hbefore := hrun.invariant_taken hkeep hstart p hp
  obtain ⟨_, t, _, _, hst, _⟩ := hrun.mem_step hp
  exact (Promises.step hbody hserve henter hleave hbefore hst).2 c result heq

end Within

/-! ### A call that runs alone -/

section Alone
variable (service : Service Req ε α κ W)

/-- A call that nobody interferes with is a run of the pool. -/
theorem run_of_ends {c : κ} {w w₁ w₂ : W} {result : Except ε α}
    (hends : (service.body c).Ends (service.serve c) w result w₁) (hleave : service.leave c w₁ w₂)
    {w₀ : W} (henter : service.enter c w₀ w) :
    ∃ taken s, Transition.Run (Step service) ⟨w₀, []⟩ (taken ++ [(s, .finish c result)]) ⟨w₂, []⟩ := by
  have hrun : ∀ {p : Program Req ε α} {w result w₁}, p.Ends (service.serve c) w result w₁ →
      service.leave c w₁ w₂ → ∃ taken s, Transition.Run (Step service) ⟨w, [(c, p)]⟩
        (taken ++ [(s, .finish c result)]) ⟨w₂, []⟩ := by
    intro p w result w₁ hends hleave
    induction hends with
    | done a w =>
      have hdone : Step service ⟨w, [] ++ (c, .done a) :: []⟩ (.finish c (.ok a)) ⟨w₂, []⟩ :=
        .done a hleave
      exact ⟨[], _, .snoc .nil hdone⟩
    | fail e w =>
      have hfail : Step service ⟨w, [] ++ (c, .fail e) :: []⟩ (.finish c (.error e)) ⟨w₂, []⟩ :=
        .fail e hleave
      exact ⟨[], _, .snoc .nil hfail⟩
    | @call β r k w w' _ b _ hserve _ ih =>
      obtain ⟨taken, s, hrest⟩ := ih hleave
      have hrequest : Step service ⟨w, [] ++ (c, .call r k) :: []⟩ (.request c)
          ⟨w', [] ++ (c, k b) :: []⟩ := .request hserve
      exact ⟨(_, .request c) :: taken, s, (Transition.Run.single hrequest).trans hrest⟩
  obtain ⟨taken, s, h⟩ := hrun hends hleave
  refine ⟨(_, .start c) :: taken, s, (Transition.Run.single ?_).trans h⟩
  exact .start c henter

end Alone

end Pool

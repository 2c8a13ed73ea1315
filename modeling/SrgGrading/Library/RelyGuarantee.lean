import Mathlib.Data.List.Nodup
import SrgGrading.Library.Pool

/-!
# Pools of programs that rely on each other

Each call of a pool guarantees the others what it does to the world, and relies
on what they guarantee.  A triple for each call alone then holds in every run of
the pool, with calls starting, ending and being killed at any time.

* `Program.ask`: a request that may be refused.
* `Program.Yields`: what a program yields that nobody interferes with.
* `Pool.Discipline`: what calls rely on and guarantee.
* `Discipline.Sound.step`: one step of a pool keeps what is promised.
* `Discipline.returns`: what the world keeps along every run, what the calls
  return, and that it lasts.
-/

namespace Program

section Ask
variable {Req : Type → Type} {ε α W : Type}

/-- A request that may be refused. -/
def ask (r : Req (Except ε α)) : Program Req ε α := do
  let result ← request r
  lift result

/-- **The rule of requests that may be refused.** -/
theorem Triple.ask {serve : {β : Type} → Req β → W → β → W → Prop} {rely guar : W → W → Prop}
    {P : W → Prop} {r : Req (Except ε α)} {Q : α → W → Prop} (hstable : ∀ a, Stable rely (Q a))
    (hserve : ∀ w x w', P w → serve r w x w' → guar w w' ∧ ∀ a, x = .ok a → Q a w') :
    Triple serve rely guar P (Program.ask r) Q := by
  refine Triple.bind (Triple.request (R := fun x w => ∀ a, x = .ok a → Q a w) ?_ hserve) fun x => ?_
  · exact fun x w w' hrely hQ a ha => hstable a w w' hrely (hQ a ha)
  · exact Triple.lift.mono (fun _ hw => hw) fun a w hw => hw.1 a hw.2

end Ask

section Yields
variable {Req : Type → Type} {ε α β W : Type} {step : {β : Type} → Req β → W → β × W}

section Def
variable (step : {β : Type} → Req β → W → β × W)

/-- A program that nobody interferes with ends with a value. -/
def Yields (p : Program Req ε α) (w : W) (a : α) (w' : W) : Prop := p.exec step w = (.ok a, w')

end Def

namespace Yields

theorem pure (a : α) (w : W) : Yields step (Pure.pure a : Program Req ε α) w a w := rfl

theorem request (r : Req β) (w : W) :
    Yields step (Program.request r : Program Req ε β) w (step r w).1 (step r w).2 := rfl

theorem of_eq {r : Req β} {w w' : W} {a : β} (h : step r w = (a, w')) :
    Yields step (Program.request r : Program Req ε β) w a w' := by
  have hrequest : Yields step (Program.request r : Program Req ε β) w _ _ := request r w
  rwa [h] at hrequest

theorem lift {x : Except ε α} {a : α} (h : x = .ok a) (w : W) :
    Yields step (Program.lift x : Program Req ε α) w a w := by
  rw [h]
  rfl

theorem bind {p : Program Req ε α} {f : α → Program Req ε β} {w w' w'' : W} {a : α} {b : β}
    (h : Yields step p w a w') (hf : Yields step (f a) w' b w'') :
    Yields step (p >>= f) w b w'' := by
  induction p generalizing w with
  | done c =>
    cases h
    exact hf
  | fail e => cases h
  | call r k ih => exact ih _ h

theorem ask {r : Req (Except ε α)} {w w' : W} {a : α} (h : step r w = (.ok a, w')) :
    Yields step (Program.ask r) w a w' :=
  (of_eq h).bind (lift rfl w')

theorem ends {serve : {β : Type} → Req β → W → β → W → Prop}
    (hstep : ∀ {β : Type} (r : Req β) w, serve r w (step r w).1 (step r w).2)
    {p : Program Req ε α} {w w' : W} {a : α} (h : Yields step p w a w') :
    Ends serve p w (.ok a) w' := by
  have hends := ends_of_exec hstep p w
  rw [h] at hends
  exact hends

end Yields

/-- **A triple holds** of a program that nobody interferes with. -/
theorem Triple.yields {serve : {β : Type} → Req β → W → β → W → Prop} {rely guar : W → W → Prop}
    {P : W → Prop} {Q : α → W → Prop} {p : Program Req ε α}
    (hstep : ∀ {β : Type} (r : Req β) w, serve r w (step r w).1 (step r w).2)
    (h : Triple serve rely guar P p Q) {w w' : W} {a : α} (hP : P w) (hy : Yields step p w a w') :
    Q a w' := by
  induction p generalizing P w with
  | done b =>
    cases hy
    exact h _ hP
  | fail e => cases hy
  | call r k ih =>
    obtain ⟨R, _, hserve, hrest⟩ := h
    exact ih _ (hrest _) (hserve _ _ _ hP (hstep r w)).2 hy

end Yields

end Program

namespace Pool

variable {Req : Type → Type} {ε α κ W : Type}

/-- What each call relies on the others to do and what it does to them, in
worlds that keep an invariant.  Calls that have begun have different names. -/
structure Discipline (service : Service Req ε α κ W) (ι : Type) where
  name : κ → ι
  inv : W → Prop
  begun : ι → W → Prop
  rely : κ → W → W → Prop
  guar : κ → W → W → Prop
  inv_guar : ∀ {c w w'}, inv w → guar c w w' → inv w'
  begun_guar : ∀ {c i w w'}, begun i w → guar c w w' → begun i w'
  rely_of_guar : ∀ {c c' w w'}, name c ≠ name c' → inv w → guar c w w' → rely c' w w'
  enter : ∀ {c w w'}, inv w → service.enter c w w' →
    ¬ begun (name c) w ∧ begun (name c) w' ∧ guar c w w'
  leave : ∀ {c w w'}, inv w → begun (name c) w → service.leave c w w' → guar c w w'

namespace Discipline

variable {service : Service Req ε α κ W} {ι : Type} (d : Discipline service ι)
  {pre : κ → W → Prop} {post : κ → α → W → Prop}

/-- The calls in progress have different names, and each stands at a point of its
program where what it relies on holds. -/
structure Sound (post : κ → α → W → Prop) (σ : Pool Req ε α κ W) : Prop where
  inv : d.inv σ.world
  names : (σ.running.map fun e => d.name e.1).Nodup
  begun : ∀ e ∈ σ.running, d.begun (d.name e.1) σ.world
  point : ∀ e ∈ σ.running, ∃ P, Program.Stable (d.rely e.1) P ∧ P σ.world ∧
    Program.Triple (service.serve e.1) (d.rely e.1) (d.guar e.1) P e.2 (post e.1)

variable {d}

/-- What one call does, the others stand. -/
theorem Sound.others {w w' : W} {before after : List (κ × Program Req ε α)}
    {x : κ × Program Req ε α} (h : d.Sound post ⟨w, before ++ x :: after⟩)
    (hguar : d.guar x.1 w w') : d.Sound post ⟨w', before ++ after⟩ := by
  have hnames := h.names
  rw [List.map_append, List.map_cons, List.nodup_middle, List.nodup_cons] at hnames
  have hmem : ∀ e ∈ before ++ after, e ∈ before ++ x :: after := fun e he =>
    List.mem_append.mpr ((List.mem_append.mp he).imp_right (List.mem_cons_of_mem _))
  refine ⟨d.inv_guar h.inv hguar, ?_, fun e he => ?_, fun e he => ?_⟩
  · rw [List.map_append]
    exact hnames.2
  · exact d.begun_guar (h.begun e (hmem e he)) hguar
  · obtain ⟨P, hstable, hP, htriple⟩ := h.point e (hmem e he)
    refine ⟨P, hstable, hstable _ _ (d.rely_of_guar (fun heq => ?_) h.inv hguar) hP, htriple⟩
    refine hnames.1 ?_
    rw [← List.map_append, heq]
    exact List.mem_map_of_mem he

theorem Sound.insert {w : W} {before after : List (κ × Program Req ε α)}
    {x : κ × Program Req ε α} (h : d.Sound post ⟨w, before ++ after⟩)
    (hname : d.name x.1 ∉ (before ++ after).map fun e => d.name e.1)
    (hbegun : d.begun (d.name x.1) w)
    (hpoint : ∃ P, Program.Stable (d.rely x.1) P ∧ P w ∧
      Program.Triple (service.serve x.1) (d.rely x.1) (d.guar x.1) P x.2 (post x.1)) :
    d.Sound post ⟨w, before ++ x :: after⟩ := by
  have hcases : ∀ e ∈ before ++ x :: after, e = x ∨ e ∈ before ++ after := by
    intro e he
    rw [List.mem_append, List.mem_cons] at he
    rw [List.mem_append]
    tauto
  refine ⟨h.inv, ?_, fun e he => ?_, fun e he => ?_⟩
  · rw [List.map_append, List.map_cons, List.nodup_middle, List.nodup_cons, ← List.map_append]
    exact ⟨hname, h.names⟩
  · rcases hcases e he with heq | he
    · rw [heq]
      exact hbegun
    · exact h.begun e he
  · rcases hcases e he with heq | he
    · rw [heq]
      exact hpoint
    · exact h.point e he

theorem Sound.step (hpre : ∀ c, Program.Stable (d.rely c) (pre c))
    (henter : ∀ c w w', d.inv w → service.enter c w w' → pre c w')
    (hbody : ∀ c, Program.Triple (service.serve c) (d.rely c) (d.guar c) (pre c)
      (service.body c) (post c))
    {σ τ : Pool Req ε α κ W} {e : Event ε α κ} (hσ : d.Sound post σ) (h : Step service σ e τ) :
    d.Sound post τ ∧ (∃ c, d.guar c σ.world τ.world) ∧
      ∀ c a, e = .finish c (.ok a) → post c a σ.world := by
  cases h with
  | @start w w' running c h =>
    obtain ⟨hnew, hbegun, hguar⟩ := d.enter hσ.inv h
    have hfresh : d.name c ∉ running.map fun e => d.name e.1 := by
      intro hmem
      obtain ⟨e, he, heq⟩ := List.mem_map.mp hmem
      exact hnew (heq ▸ hσ.begun e he)
    have hold : d.Sound post ⟨w', running ++ []⟩ := by
      refine ⟨d.inv_guar hσ.inv hguar, ?_, fun e he => ?_, fun e he => ?_⟩
      · rw [List.append_nil]
        exact hσ.names
      · rw [List.append_nil] at he
        exact d.begun_guar (hσ.begun e he) hguar
      · rw [List.append_nil] at he
        obtain ⟨P, hstable, hP, htriple⟩ := hσ.point e he
        refine ⟨P, hstable, hstable _ _ (d.rely_of_guar (fun heq => ?_) hσ.inv hguar) hP, htriple⟩
        exact hfresh (heq ▸ List.mem_map_of_mem he)
    refine ⟨hold.insert ?_ hbegun ⟨pre c, hpre c, henter c _ _ hσ.inv h, hbody c⟩,
      ⟨c, hguar⟩, fun _ _ h => by cases h⟩
    rw [List.append_nil]
    exact hfresh
  | @request w w' before after c β r k a h =>
    obtain ⟨P, _, hP, R, hstable, hserve, hrest⟩ :=
      hσ.point _ (List.mem_append_right _ List.mem_cons_self)
    obtain ⟨hguar, hR⟩ := hserve _ _ _ hP h
    have hnames := hσ.names
    rw [List.map_append, List.map_cons, List.nodup_middle, List.nodup_cons,
      ← List.map_append] at hnames
    have hbegun := hσ.begun _ (List.mem_append_right _ List.mem_cons_self)
    refine ⟨?_, ⟨c, hguar⟩, fun _ _ h => by cases h⟩
    exact (hσ.others hguar).insert hnames.1 (d.begun_guar hbegun hguar)
      ⟨R a, hstable a, hR, hrest a⟩
  | done a h =>
    have hguar := d.leave hσ.inv (hσ.begun _ (List.mem_append_right _ List.mem_cons_self)) h
    refine ⟨hσ.others hguar, ⟨_, hguar⟩, fun c b heq => ?_⟩
    cases heq
    obtain ⟨P, _, hP, htriple⟩ := hσ.point _ (List.mem_append_right _ List.mem_cons_self)
    exact htriple _ hP
  | fail e h =>
    have hguar := d.leave hσ.inv (hσ.begun _ (List.mem_append_right _ List.mem_cons_self)) h
    exact ⟨hσ.others hguar, ⟨_, hguar⟩, fun _ _ h => by cases h⟩
  | kill h =>
    have hguar := d.leave hσ.inv (hσ.begun _ (List.mem_append_right _ List.mem_cons_self)) h
    exact ⟨hσ.others hguar, ⟨_, hguar⟩, fun _ _ h => by cases h⟩

/-- **What the calls of a pool return**, when each guarantees what the others
rely on, and what is kept of it: `F` is any fact that no call spoils. -/
theorem returns (hpre : ∀ c, Program.Stable (d.rely c) (pre c))
    (henter : ∀ c w w', d.inv w → service.enter c w w' → pre c w')
    (hbody : ∀ c, Program.Triple (service.serve c) (d.rely c) (d.guar c) (pre c)
      (service.body c) (post c))
    {σ τ : Pool Req ε α κ W} {taken : List (Pool Req ε α κ W × Event ε α κ)}
    (hI : d.inv σ.world) (hidle : σ.running = []) (hrun : Transition.Run (Step service) σ taken τ) :
    d.Sound post τ ∧ ∀ p ∈ taken, (∀ c a, p.2 = .finish c (.ok a) → post c a p.1.world) ∧
      ∀ F : W → Prop, (∀ c w w', d.inv w → d.guar c w w' → F w → F w') →
        F p.1.world → F τ.world := by
  have hnone : ∀ e, e ∉ σ.running := fun e he => by
    rw [hidle] at he
    cases he
  have hstart : d.Sound post σ := by
    refine ⟨hI, ?_, fun e he => absurd he (hnone e), fun e he => absurd he (hnone e)⟩
    rw [hidle]
    exact List.nodup_nil
  have hkeep : ∀ (s : Pool Req ε α κ W) e t, d.Sound post s → Step service s e t →
      d.Sound post t := fun s e t hs hst => (hs.step hpre henter hbody hst).1
  refine ⟨hrun.invariant hkeep hstart, fun p hp => ?_⟩
  have hbefore := hrun.invariant_taken hkeep hstart p hp
  obtain ⟨_, t, _, _, hst, hafter⟩ := hrun.mem_step hp
  refine ⟨(hbefore.step hpre henter hbody hst).2.2, fun F hF hFp => ?_⟩
  have hstep : ∀ (s : Pool Req ε α κ W) e t, d.Sound post s ∧ F s.world → Step service s e t →
      d.Sound post t ∧ F t.world := by
    intro s e t hs hst
    obtain ⟨hsound, ⟨c, hguar⟩, _⟩ := hs.1.step hpre henter hbody hst
    exact ⟨hsound, hF c _ _ hs.1.inv hguar hs.2⟩
  exact (hafter.invariant hstep (hstep _ _ _ ⟨hbefore, hFp⟩ hst)).2

end Discipline

end Pool

import Mathlib.Tactic.Common
import SrgGrading.Library.Fallible

/-!
# Programs that make requests

A program computes, makes one request after another and stops with a value or
an error.  A request is answered by a service with a state of its own, which
others change between any two requests; the answer of a request can be lost, and
then the program stops.

* `Program.Step`: one request, answered, lost or refused.
* `Triple serve rely guar P p Q`: from `P`, under interference by `rely`, every
  request of `p` does what `guar` allows and `p` returns in `Q` only.
* `Triple.bind`, `Triple.request`, `Triple.lift`, `Triple.each`: the rules.
* `Triple.step`: a triple is kept by the steps of its program.
* `Triple.of_calls`: programs that make harmless requests only.
-/

open Fallible

/-- A program that makes requests in `Req`, each for an answer of its type. -/
inductive Program (Req : Type → Type) (ε α : Type) : Type 1
  | done (a : α)
  | fail (e : ε)
  | call {β : Type} (r : Req β) (k : β → Program Req ε α)

namespace Program

variable {Req : Type → Type} {ε α β : Type}

def bind : Program Req ε α → (α → Program Req ε β) → Program Req ε β
  | done a, f => f a
  | fail e, _ => fail e
  | call r k, f => call r fun a => bind (k a) f

instance : Monad (Program Req ε) where
  pure := done
  bind := bind

/-- One request. -/
def request (r : Req β) : Program Req ε β := call r done

/-- A computation without requests. -/
def lift : Except ε α → Program Req ε α
  | .ok a => done a
  | .error e => fail e

/-- Run a program for every item. -/
def each (f : β → Program Req ε Unit) : List β → Program Req ε Unit
  | [] => pure ()
  | b :: rest => do
    f b
    each f rest

/-- Run a program under a condition. -/
def when (b : Bool) (p : Program Req ε Unit) : Program Req ε Unit := if b then p else pure ()

/-! ### Steps -/

section Semantics
variable {W : Type} (serve : {β : Type} → Req β → W → β → W → Prop)

/-- One request of a program, in a world others share. -/
inductive Step : Program Req ε α → W → Program Req ε α → W → Prop
  | answered {β : Type} {r : Req β} {k : β → Program Req ε α} {w w' : W} {a : β}
      (h : serve r w a w') : Step (call r k) w (k a) w'
  | lost {β : Type} {r : Req β} {k : β → Program Req ε α} {w w' : W} {a : β} (e : ε)
      (h : serve r w a w') : Step (call r k) w (fail e) w'
  | refused {β : Type} {r : Req β} {k : β → Program Req ε α} {w : W} (e : ε) :
      Step (call r k) w (fail e) w

/-- What others do keeps `P`. -/
def Stable (rely : W → W → Prop) (P : W → Prop) : Prop := ∀ w w', rely w w' → P w → P w'

variable (rely guar : W → W → Prop)

/-- From `P`, the requests of a program are within `guar` and it returns in `Q`. -/
def Triple : (W → Prop) → Program Req ε α → (α → W → Prop) → Prop
  | P, done a, Q => ∀ w, P w → Q a w
  | _, fail _, _ => True
  | P, @call _ _ _ β r k, Q => ∃ R : β → W → Prop, (∀ a, Stable rely (R a)) ∧
      (∀ w a w', P w → serve r w a w' → guar w w' ∧ R a w') ∧ ∀ a, Triple (R a) (k a) Q

/-- Every request of a program is in `ok`. -/
def Calls (ok : {β : Type} → Req β → Prop) : Program Req ε α → Prop
  | done _ => True
  | fail _ => True
  | call r k => ok r ∧ ∀ a, Calls ok (k a)

variable {serve rely guar} {P : W → Prop} {p : Program Req ε α} {Q : α → W → Prop}

/-! ### The rules -/

namespace Triple

/-- **The rule of consequence.** -/
theorem mono {P' : W → Prop} {Q' : α → W → Prop} (hP : ∀ w, P' w → P w)
    (hQ : ∀ a w, Q a w → Q' a w) (h : Triple serve rely guar P p Q) :
    Triple serve rely guar P' p Q' := by
  induction p generalizing P P' with
  | done a => exact fun w hw => hQ a w (h w (hP w hw))
  | fail e => trivial
  | call r k ih =>
    obtain ⟨R, hstable, hserve, hrest⟩ := h
    refine ⟨R, hstable, fun w a w' hw hr => hserve w a w' (hP w hw) hr, fun a => ?_⟩
    exact ih a (fun _ hR => hR) (hrest a)

/-- A program is never reached. -/
theorem of_false (p : Program Req ε α) (Q : α → W → Prop) :
    Triple serve rely guar (fun _ => False) p Q := by
  induction p with
  | done a => exact fun w hw => hw.elim
  | fail e => trivial
  | call r k ih =>
    exact ⟨fun _ _ => False, fun a w w' _ hw => hw, fun w a w' hw => hw.elim, ih⟩

theorem pure {a : α} (h : ∀ w, P w → Q a w) :
    Triple serve rely guar P (Pure.pure a : Program Req ε α) Q := h

/-- **The rule of sequence.** -/
theorem bind {R : α → W → Prop} {f : α → Program Req ε β} {Q : β → W → Prop}
    (h : Triple serve rely guar P p R) (hf : ∀ a, Triple serve rely guar (R a) (f a) Q) :
    Triple serve rely guar P (p >>= f) Q := by
  induction p generalizing P with
  | done a => exact (hf a).mono h fun _ _ hQ => hQ
  | fail e => trivial
  | call r k ih =>
    obtain ⟨S, hstable, hserve, hrest⟩ := h
    exact ⟨S, hstable, hserve, fun a => ih a (hrest a)⟩

/-- **The rule of requests.** -/
theorem request {r : Req β} {R : β → W → Prop} (hstable : ∀ a, Stable rely (R a))
    (hserve : ∀ w a w', P w → serve r w a w' → guar w w' ∧ R a w') :
    Triple serve rely guar P (Program.request r : Program Req ε β) R :=
  ⟨R, hstable, hserve, fun _ _ hR => hR⟩

theorem lift {x : Except ε α} : Triple serve rely guar P
    (Program.lift x : Program Req ε α) fun a w => P w ∧ x = .ok a := by
  cases x with
  | ok a => exact fun w hw => ⟨hw, rfl⟩
  | error e => trivial

/-- A check, after which the rest of the program knows it passed. -/
theorem bind_lift {x : Except ε α} {f : α → Program Req ε β} {Q : β → W → Prop}
    (hf : ∀ a, x = .ok a → Triple serve rely guar P (f a) Q) :
    Triple serve rely guar P (Program.lift x >>= f) Q := by
  cases x with
  | ok a => exact hf a rfl
  | error e => trivial

theorem when {b : Bool} {p : Program Req ε Unit} {Q : Unit → W → Prop}
    (hp : b = true → Triple serve rely guar P p Q) (hskip : b = false → ∀ w, P w → Q () w) :
    Triple serve rely guar P (Program.when b p) Q := by
  cases b with
  | true => exact hp rfl
  | false => exact hskip rfl

/-- **The rule of loops**: the invariant is about what is left to do. -/
theorem each {f : β → Program Req ε Unit} {I : List β → W → Prop}
    (hf : ∀ b rest, Triple serve rely guar (I (b :: rest)) (f b) fun _ => I rest) (l : List β) :
    Triple serve rely guar (I l) (Program.each f l) fun _ => I [] := by
  induction l with
  | nil => exact fun w hw => hw
  | cons b rest ih => exact (hf b rest).bind fun _ => ih

/-- **The rule of conjunction.** -/
theorem and {P' : W → Prop} {Q' : α → W → Prop} (h : Triple serve rely guar P p Q)
    (h' : Triple serve rely guar P' p Q') :
    Triple serve rely guar (fun w => P w ∧ P' w) p fun a w => Q a w ∧ Q' a w := by
  induction p generalizing P P' with
  | done a => exact fun w hw => ⟨h w hw.1, h' w hw.2⟩
  | fail e => trivial
  | call r k ih =>
    obtain ⟨R, hstable, hserve, hrest⟩ := h
    obtain ⟨R', hstable', hserve', hrest'⟩ := h'
    refine ⟨fun a w => R a w ∧ R' a w, fun a w w' hrely hR => ?_, fun w a w' hw hr => ?_,
      fun a => ih a (hrest a) (hrest' a)⟩
    · exact ⟨hstable a w w' hrely hR.1, hstable' a w w' hrely hR.2⟩
    · obtain ⟨hguar, ha⟩ := hserve w a w' hw.1 hr
      exact ⟨hguar, ha, (hserve' w a w' hw.2 hr).2⟩

/-- **A triple is kept** by the steps of its program. -/
theorem step {p' : Program Req ε α} {w w' : W} (h : Triple serve rely guar P p Q) (hP : P w)
    (hst : Step serve p w p' w') : (guar w w' ∨ w' = w) ∧
      ∃ P', Stable rely P' ∧ P' w' ∧ Triple serve rely guar P' p' Q := by
  cases hst with
  | answered hserve =>
    obtain ⟨R, hstable, hR, hrest⟩ := h
    obtain ⟨hguar, ha⟩ := hR _ _ _ hP hserve
    exact ⟨Or.inl hguar, R _, hstable _, ha, hrest _⟩
  | lost e hserve =>
    obtain ⟨R, hstable, hR, hrest⟩ := h
    exact ⟨Or.inl (hR _ _ _ hP hserve).1, fun _ => True, fun _ _ _ h => h, trivial, trivial⟩
  | refused e => exact ⟨Or.inr rfl, fun _ => True, fun _ _ _ h => h, trivial, trivial⟩

end Triple

/-! ### Harmless programs -/

namespace Calls

variable {ok : {β : Type} → Req β → Prop}

theorem pure (a : α) : Calls ok (Pure.pure a : Program Req ε α) := trivial

theorem mono {ok' : {β : Type} → Req β → Prop} (h : Calls ok p)
    (hok : ∀ {β : Type} {r : Req β}, ok r → ok' r) : Calls ok' p := by
  induction p with
  | done a => trivial
  | fail e => trivial
  | call r k ih => exact ⟨hok h.1, fun a => ih a (h.2 a)⟩

theorem lift (x : Except ε α) : Calls ok (Program.lift x : Program Req ε α) := by
  cases x <;> trivial

theorem bind {f : α → Program Req ε β} (h : Calls ok p) (hf : ∀ a, Calls ok (f a)) :
    Calls ok (p >>= f) := by
  induction p with
  | done a => exact hf a
  | fail e => trivial
  | call r k ih => exact ⟨h.1, fun a => ih a (h.2 a)⟩

theorem when {b : Bool} {p : Program Req ε Unit} (h : Calls ok p) :
    Calls ok (Program.when b p) := by
  cases b with
  | true => exact h
  | false => trivial

theorem each {f : β → Program Req ε Unit} (h : ∀ b, Calls ok (f b)) (l : List β) :
    Calls ok (Program.each f l) := by
  induction l with
  | nil => trivial
  | cons b rest ih => exact (h b).bind fun _ => ih

theorem step {p' : Program Req ε α} {w w' : W} (h : Calls ok p) (hst : Step serve p w p' w') :
    Calls ok p' ∧ ((∃ (β : Type) (r : Req β) (a : β), ok r ∧ serve r w a w') ∨ w' = w) := by
  cases hst with
  | answered hserve => exact ⟨h.2 _, Or.inl ⟨_, _, _, h.1, hserve⟩⟩
  | lost e hserve => exact ⟨trivial, Or.inl ⟨_, _, _, h.1, hserve⟩⟩
  | refused e => exact ⟨trivial, Or.inr rfl⟩

theorem request {r : Req β} (h : ok r) : Calls ok (Program.request r : Program Req ε β) :=
  ⟨h, fun _ => trivial⟩

end Calls

/-- **Harmless requests** keep what they each keep. -/
theorem Triple.of_calls {ok : {β : Type} → Req β → Prop} (h : Calls ok p) (hstable : Stable rely P)
    (hserve : ∀ {β : Type} (r : Req β) w a w', ok r → P w → serve r w a w' →
      guar w w' ∧ P w') :
    Triple serve rely guar P p fun _ => P := by
  induction p with
  | done a => exact fun w hw => hw
  | fail e => trivial
  | call r k ih =>
    exact ⟨fun _ => P, fun _ => hstable, fun w a w' hw hr => hserve r w a w' h.1 hw hr,
      fun a => ih a (h.2 a)⟩

end Semantics

end Program

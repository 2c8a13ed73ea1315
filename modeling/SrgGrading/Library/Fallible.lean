import Mathlib.Tactic.Common

/-!
# Checks that can fail

`ensure b e` stops with `e` unless `b`, `fetchOne` turns a missing row into an
error, and `each` runs a check on the items of a list until one fails.
`bind_ok`, `ensure_ok`, `fetchOne_ok` and `each_ok` take a computation that
succeeded apart into the steps that did.
-/

namespace Fallible

variable {ε α β : Type}

instance decidableEq [DecidableEq ε] [DecidableEq α] : DecidableEq (Except ε α)
  | .error e, .error e' => decidable_of_iff (e = e') (Except.error.injEq e e').to_iff.symm
  | .ok a, .ok b => decidable_of_iff (a = b) (Except.ok.injEq a b).to_iff.symm
  | .error _, .ok _ => .isFalse nofun
  | .ok _, .error _ => .isFalse nofun

/-- Stop with `e` unless `b`. -/
def ensure (b : Bool) (e : ε) : Except ε Unit :=
  if b then .ok () else .error e

/-- The row a query found, or `e`. -/
def fetchOne (e : ε) : Option α → Except ε α
  | some a => .ok a
  | none => .error e

/-- Run a check on every item. -/
def each (f : α → Except ε Unit) : List α → Except ε Unit
  | [] => .ok ()
  | a :: l => do
    f a
    each f l

@[simp] theorem ensure_ok {b : Bool} {e : ε} {u : Unit} : ensure b e = .ok u ↔ b = true := by
  cases b <;> simp [ensure]

@[simp] theorem fetchOne_ok {e : ε} {o : Option α} {a : α} :
    fetchOne e o = .ok a ↔ o = some a := by
  cases o <;> simp [fetchOne]

@[simp] theorem bind_ok {x : Except ε α} {f : α → Except ε β} {b : β} :
    (x >>= f) = .ok b ↔ ∃ a, x = .ok a ∧ f a = .ok b := by
  cases x with
  | error e =>
    constructor
    · intro h; cases h
    · rintro ⟨a, h, _⟩; cases h
  | ok a =>
    constructor
    · intro h; exact ⟨a, rfl, h⟩
    · rintro ⟨a', h, hf⟩; cases h; exact hf

@[simp] theorem pure_ok {a b : α} : (pure a : Except ε α) = .ok b ↔ a = b := by
  constructor
  · intro h; cases h; rfl
  · rintro rfl; rfl

@[simp] theorem map_ok {x : Except ε α} {f : α → β} {b : β} :
    x.map f = .ok b ↔ ∃ a, x = .ok a ∧ f a = b := by
  cases x with
  | error e =>
    constructor
    · intro h; cases h
    · rintro ⟨a, h, _⟩; cases h
  | ok a =>
    constructor
    · intro h; cases h; exact ⟨a, rfl, rfl⟩
    · rintro ⟨a', h, rfl⟩; cases h; rfl

@[simp] theorem map_fst_ok {x : Except ε (α × β)} {a : α} :
    x.map Prod.fst = .ok a ↔ ∃ b, x = .ok (a, b) := by
  rw [map_ok]
  constructor
  · rintro ⟨⟨a', b⟩, h, rfl⟩; exact ⟨b, h⟩
  · rintro ⟨b, h⟩; exact ⟨(a, b), h, rfl⟩

/-- A loop of checks succeeds when every check does. -/
theorem each_ok {f : α → Except ε Unit} {l : List α} {u : Unit} :
    each f l = .ok u ↔ ∀ a ∈ l, f a = .ok () := by
  induction l with
  | nil => exact ⟨fun _ a ha => absurd ha List.not_mem_nil, fun _ => rfl⟩
  | cons a l ih =>
    rw [each, bind_ok]
    constructor
    · rintro ⟨_, ha, hl⟩ b hb
      rcases List.mem_cons.mp hb with h1 | h1
      · rw [h1]; exact ha
      · exact ih.mp hl b h1
    · intro h
      exact ⟨_, h a List.mem_cons_self, ih.mpr fun b hb => h b (List.mem_cons_of_mem _ hb)⟩

end Fallible

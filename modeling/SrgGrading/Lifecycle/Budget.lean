import SrgGrading.Lifecycle.Sources

/-!
# The request budget over time

Charges come at times that do not decrease.  A window begins with the first
charge an hour or more after the one before began, and everything counted is
forgotten then.

* `charge_cases`: what a charge does to the budget of its window.
* `Tallied.step`: the counters are those of the charges accepted in the window.
* `budget_exact`: the limits hold in every window, a rejected charge counts
  nothing, and a charge at its `retry_at` is accepted.
-/

namespace Grading

namespace Sources

/-- A budget and the time of its last charge. -/
structure Meter where
  budget : SourceBudget
  clock : Time

abbrev Charge := Time × Uuid

namespace Meter

def apply (m : Meter) (c : Charge) : Meter := ⟨(m.budget.charge c.1 c.2).2, c.1⟩

/-- A charge, not before the last one. -/
def Step (m : Meter) (c : Charge) (m' : Meter) : Prop := m.clock ≤ c.1 ∧ m' = m.apply c

/-- `SourceBudget::default`. -/
def Initial (m : Meter) : Prop := m.budget = ⟨m.clock, 0, .empty⟩

end Meter

def accepted (p : Meter × Charge) : Bool := (p.1.budget.charge p.2.1 p.2.2).1 = .ok ()

def resets (p : Meter × Charge) : Bool := period ≤ p.2.1 - p.1.budget.started

/-- The charges since the last reset. -/
def window (taken : List (Meter × Charge)) : List (Meter × Charge) :=
  taken.foldl (fun w p => if resets p then [p] else w ++ [p]) []

theorem window_concat (taken : List (Meter × Charge)) (p : Meter × Charge) :
    window (taken ++ [p]) = (if resets p then [] else window taken) ++ [p] := by
  rw [window, List.foldl_append, List.foldl_cons, List.foldl_nil]
  split <;> rfl

/-- The charges of a student that were accepted. -/
def chargesOf (student : Uuid) (w : List (Meter × Charge)) : Nat :=
  w.countP fun p => accepted p && p.2.2 = student

/-! ### One charge -/

theorem renewed_of_le {budget : SourceBudget} {now : Time} (h : period ≤ now - budget.started) :
    budget.renewed now = ⟨now, 0, .empty⟩ := if_pos h

theorem renewed_of_lt {budget : SourceBudget} {now : Time} (h : now - budget.started < period) :
    budget.renewed now = budget := if_neg (not_le.mpr h)

/-- What the budget allows a student. -/
structure Allows (budget : SourceBudget) (student : Uuid) : Prop where
  total : budget.total < 3600
  charged : (budget.students.get? student).getD 0 < 600
  room : budget.students.contains student = true ∨ budget.students.size < 1024

/-- **What a charge does**: it counts, or it changes nothing in its window. -/
theorem charge_cases (budget : SourceBudget) (now : Time) (student : Uuid) :
    (Allows (budget.renewed now) student ∧ budget.charge now student =
      (.ok (), { budget.renewed now with
        total := (budget.renewed now).total + 1
        students := (budget.renewed now).students.insert student
          (((budget.renewed now).students.get? student).getD 0 + 1) })) ∨
    (¬ Allows (budget.renewed now) student ∧ budget.charge now student =
      (.error (.quota (now + ((period - (now - (budget.renewed now).started)) / 10 ^ 9 + 1) *
        10 ^ 9)), budget.renewed now)) := by
  rw [SourceBudget.charge]
  generalize budget.renewed now = b
  by_cases h : (3600 ≤ b.total || 600 ≤ (b.students.get? student).getD 0 ||
      (!b.students.contains student && 1024 ≤ b.students.size)) = true
  · refine Or.inr ⟨fun hallows => ?_, if_pos h⟩
    obtain ⟨htotal, hstudent, hroom⟩ := hallows
    simp only [Bool.or_eq_true, Bool.and_eq_true, Bool.not_eq_true', decide_eq_true_eq] at h
    rcases h with (h | h) | ⟨h, hfull⟩
    · omega
    · omega
    · rw [h] at hroom
      rcases hroom with hno | hlt
      · cases hno
      · omega
  · refine Or.inl ⟨?_, if_neg h⟩
    simp only [Bool.or_eq_true, Bool.and_eq_true, Bool.not_eq_true', decide_eq_true_eq, not_or,
      not_and, not_le] at h
    obtain ⟨⟨htotal, hstudent⟩, hroom⟩ := h
    refine ⟨htotal, hstudent, ?_⟩
    cases hc : b.students.contains student with
    | true => exact Or.inl rfl
    | false => exact Or.inr (hroom hc)

/-- An empty budget allows everybody. -/
theorem allows_empty (now : Time) (student : Uuid) : Allows ⟨now, 0, .empty⟩ student :=
  ⟨Nat.zero_lt_succ _, Nat.zero_lt_succ _, Or.inr (Nat.zero_lt_succ _)⟩

/-- The seconds left, rounded down, and one more are past the end of the window. -/
theorem past_of_retry {now started retryAt later : Int}
    (h : now + ((period - (now - started)) / 10 ^ 9 + 1) * 10 ^ 9 = retryAt)
    (hlater : retryAt ≤ later) : period ≤ later - started := by
  have hdiv := Int.emod_add_mul_ediv (period - (now - started)) (10 ^ 9)
  have hmod := Int.emod_lt_of_pos (period - (now - started)) (show (0 : Int) < 10 ^ 9 by decide)
  omega

/-- **A charge at the `retry_at` of a rejection is accepted**, or later. -/
theorem accepted_after_retry {budget : SourceBudget} {now retryAt : Time} {student : Uuid}
    (h : (budget.charge now student).1 = .error (.quota retryAt)) (later : Time)
    (hlater : retryAt ≤ later) (other : Uuid) :
    ((budget.charge now student).2.charge later other).1 = .ok () := by
  rcases charge_cases budget now student with ⟨_, hok⟩ | ⟨_, herror⟩
  · rw [hok] at h
    cases h
  · rw [herror] at h ⊢
    rw [Except.error.injEq, FetchError.quota.injEq] at h
    have hpast : period ≤ later - (budget.renewed now).started :=
      past_of_retry h hlater
    rcases charge_cases (budget.renewed now) later other with ⟨_, hok⟩ | ⟨hno, _⟩
    · rw [hok]
    · rw [renewed_of_le hpast] at hno
      exact absurd (allows_empty later other) hno

/-! ### A window -/

/-- The counters are those of the charges accepted in the window. -/
structure Tallied (w : List (Meter × Charge)) (budget : SourceBudget) : Prop where
  total : budget.total = w.countP accepted
  students : ∀ student, (budget.students.get? student).getD 0 = chargesOf student w
  sum : budget.total = (budget.students.entries.map Prod.snd).sum
  totalBound : budget.total ≤ 3600
  studentBound : ∀ student, (budget.students.get? student).getD 0 ≤ 600
  room : budget.students.size ≤ 1024

theorem Tallied.empty (now : Time) : Tallied [] ⟨now, 0, .empty⟩ :=
  ⟨rfl, fun _ => rfl, rfl, Nat.zero_le _, fun _ => Nat.zero_le _, Nat.zero_le _⟩

theorem Tallied.step {w : List (Meter × Charge)} {m : Meter} {c : Charge}
    (h : Tallied w (m.budget.renewed c.1)) : Tallied (w ++ [(m, c)]) (m.apply c).budget := by
  rcases charge_cases m.budget c.1 c.2 with ⟨hallows, hok⟩ | ⟨_, herror⟩
  · have hacc : accepted (m, c) = true := by
      rw [accepted, hok]
      rfl
    rw [Meter.apply, hok]
    have hget := OrderedMap.get?_insert (m.budget.renewed c.1).students c.2
      (((m.budget.renewed c.1).students.get? c.2).getD 0 + 1)
    have hsum := OrderedMap.sum_insert (m.budget.renewed c.1).students c.2
      (((m.budget.renewed c.1).students.get? c.2).getD 0 + 1)
    refine ⟨?_, fun student => ?_, ?_, hallows.total, fun student => ?_, ?_⟩
    · show (m.budget.renewed c.1).total + 1 = _
      rw [List.countP_append, ← h.total, List.countP_singleton, hacc, if_pos rfl]
    · show ((OrderedMap.insert _ _ _).get? student).getD 0 = _
      rw [hget, chargesOf, List.countP_append, List.countP_singleton, hacc]
      have hstudent := h.students student
      rw [chargesOf] at hstudent
      by_cases heq : c.2 = student
      · subst heq
        simp [hstudent]
      · simp [heq, hstudent]
    · show (m.budget.renewed c.1).total + 1 = ((OrderedMap.insert _ _ _).entries.map Prod.snd).sum
      have hbefore := h.sum
      omega
    · show ((OrderedMap.insert _ _ _).get? student).getD 0 ≤ 600
      rw [hget]
      split
      · exact hallows.charged
      · exact h.studentBound student
    · show (OrderedMap.insert _ _ _).size ≤ 1024
      rcases hallows.room with hthere | hroom
      · rw [OrderedMap.size_insert_of_contains hthere]
        exact h.room
      · exact (OrderedMap.size_insert_le _ _ _).trans hroom
  · have hrej : accepted (m, c) = false := by
      rw [accepted, herror]
      rfl
    rw [Meter.apply, herror]
    refine ⟨?_, fun student => ?_, h.sum, h.totalBound, h.studentBound, h.room⟩
    · rw [List.countP_append, List.countP_singleton, hrej]
      exact h.total
    · rw [chargesOf, List.countP_append, List.countP_singleton, hrej]
      exact h.students student

/-! ### Runs -/

theorem run_tallied {m τ : Meter} {taken : List (Meter × Charge)} (h0 : m.Initial)
    (hrun : Transition.Run Meter.Step m taken τ) : Tallied (window taken) τ.budget := by
  induction hrun with
  | nil =>
    rw [h0]
    exact Tallied.empty m.clock
  | @snoc taken s u c _ hst ih =>
    rw [hst.2, window_concat]
    refine Tallied.step ?_
    by_cases hreset : period ≤ c.1 - s.budget.started
    · have hpos : resets (s, c) = true := decide_eq_true hreset
      rw [renewed_of_le hreset, if_pos hpos]
      exact Tallied.empty c.1
    · have hneg : ¬ resets (s, c) = true := fun h => hreset (of_decide_eq_true h)
      rw [renewed_of_lt (not_le.mp hreset), if_neg hneg]
      exact ih

/-- **The budget is exact and recovers.**  Its counters are those of the accepted
charges since the last reset and keep their limits; a rejected charge does no more
than a reset that was due; and a charge at the `retry_at` of a rejection, or
later, is accepted. -/
theorem budget_exact {m τ : Meter} {taken : List (Meter × Charge)} (h0 : m.Initial)
    (hrun : Transition.Run Meter.Step m taken τ) :
    (τ.budget.total = (τ.budget.students.entries.map Prod.snd).sum ∧ τ.budget.total ≤ 3600 ∧
      (∀ e ∈ τ.budget.students.entries, e.2 ≤ 600) ∧ τ.budget.students.size ≤ 1024) ∧
    ((window taken).countP accepted ≤ 3600 ∧ ∀ student, chargesOf student (window taken) ≤ 600) ∧
    (∀ p ∈ taken, accepted p = false →
      (p.1.apply p.2).budget = p.1.budget.renewed p.2.1) ∧
    ∀ p ∈ taken, ∀ retryAt, (p.1.budget.charge p.2.1 p.2.2).1 = .error (.quota retryAt) →
      ∀ later student, retryAt ≤ later → accepted (p.1.apply p.2, (later, student)) = true := by
  have htallied := run_tallied h0 hrun
  refine ⟨⟨htallied.sum, htallied.totalBound, fun e he => ?_, htallied.room⟩, ⟨?_, ?_⟩, ?_, ?_⟩
  · have hbound := htallied.studentBound e.1
    rw [(OrderedMap.mem_entries_iff _).mp he] at hbound
    exact hbound
  · rw [← htallied.total]
    exact htallied.totalBound
  · intro student
    rw [← htallied.students student]
    exact htallied.studentBound student
  · intro p _ hrej
    rcases charge_cases p.1.budget p.2.1 p.2.2 with ⟨_, hok⟩ | ⟨_, herror⟩
    · rw [accepted, hok] at hrej
      cases hrej
    · rw [Meter.apply, herror]
  · intro p _ retryAt hrej later student hlater
    exact decide_eq_true (accepted_after_retry hrej later hlater student)

end Sources

namespace Sample

open Sources

/-- Two charges, an hour apart. -/
theorem budget_exact_two : ∃ τ taken, τ.budget.total = 1 ∧ taken.length = 2 ∧
    τ.budget.total ≤ 3600 ∧ chargesOf 7 (window taken) ≤ 600 ∧
    Transition.Run Meter.Step ⟨⟨0, 0, .empty⟩, 0⟩ taken τ := by
  have hrun : Transition.Run Meter.Step ⟨⟨0, 0, .empty⟩, 0⟩ [(_, (0, 7)), (_, (period, 7))] _ :=
    .snoc (.snoc .nil ⟨le_refl 0, rfl⟩) ⟨by decide, rfl⟩
  have hinitial : Meter.Initial ⟨⟨0, 0, .empty⟩, 0⟩ := rfl
  have hexact := budget_exact hinitial hrun
  exact ⟨_, _, by decide +kernel, rfl, hexact.1.2.1, hexact.2.1.2 7, hrun⟩

end Sample

end Grading

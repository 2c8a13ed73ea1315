import Mathlib.Logic.Relation
import Mathlib.Tactic.Common

/-!
# Fixed windows

A limit on how often something is done: at most `maximum` times in a window, and
an instant at least one `period` after the window began opens a new one.  Those
who ask read the clock first and are counted later, so that the instant they
bring may be an old one.

* `Window`: when the window began and how often it was used.
* `Meter`: a clock, a window, and those who have asked.
* `Bound`: the measure that every step keeps.
* `Meter.counted_le`: how many bring an instant of the `d` periods before `t` or a
  later one, and are counted before the end of `k` periods from `t`.
-/

namespace FixedWindow

structure Window where
  start : Nat
  used : Nat

namespace Window

/-- A window that is over is replaced by one that begins now. -/
def renew (period now : Nat) (w : Window) : Window :=
  if period ≤ now - w.start then ⟨now, 0⟩ else w

def count (w : Window) : Window := { w with used := w.used + 1 }

@[simp] theorem count_start (w : Window) : w.count.start = w.start := rfl

@[simp] theorem count_used (w : Window) : w.count.used = w.used + 1 := rfl

variable {period now : Nat} {w : Window}

/-- Whoever asks, asks before the end of the window. -/
theorem lt_renew (hperiod : 0 < period) : now < (w.renew period now).start + period := by
  unfold renew
  by_cases h : period ≤ now - w.start
  · rw [if_pos h]
    show now < now + period
    omega
  · rw [if_neg h]
    omega

theorem start_renew_le {clock : Nat} (hw : w.start ≤ clock) (hnow : now ≤ clock) :
    (w.renew period now).start ≤ clock := by
  unfold renew
  by_cases h : period ≤ now - w.start
  · rw [if_pos h]
    exact hnow
  · rw [if_neg h]
    exact hw

end Window

/-! ### The measure -/

/-- Of those counted who bring an instant at most `slack` before `t` there are at
most `maximum` for each period up to the end of the window, and those of the window
itself. -/
structure Bound (period maximum slack t counted : Nat) (w : Window) : Prop where
  used : w.used ≤ maximum
  late : 0 < counted → t < w.start + period + slack
  few : counted ≤ maximum * ((w.start + period + slack - t) / period) + w.used

namespace Bound

variable {period maximum slack t counted now : Nat} {w : Window}

theorem none (hused : w.used ≤ maximum) : Bound period maximum slack t 0 w where
  used := hused
  late := fun h => absurd h (Nat.lt_irrefl 0)
  few := Nat.zero_le _

/-- The window that is over becomes one of the periods. -/
theorem renew (hperiod : 0 < period) (h : Bound period maximum slack t counted w) :
    Bound period maximum slack t counted (w.renew period now) := by
  unfold Window.renew
  by_cases hover : period ≤ now - w.start
  · rw [if_pos hover]
    rcases Nat.eq_zero_or_pos counted with hnone | hsome
    · rw [hnone]
      exact Bound.none (Nat.zero_le _)
    · have hlate := h.late hsome
      have hmore : (w.start + period + slack - t) / period + 1 ≤
          (now + period + slack - t) / period := by
        rw [← Nat.add_div_right _ hperiod]
        refine Nat.div_le_div_right ?_
        omega
      refine ⟨Nat.zero_le _, fun _ => ?_, ?_⟩
      · show t < now + period + slack
        omega
      · show counted ≤ maximum * ((now + period + slack - t) / period) + 0
        calc counted ≤ maximum * ((w.start + period + slack - t) / period) + w.used := h.few
          _ ≤ maximum * ((w.start + period + slack - t) / period) + maximum :=
            Nat.add_le_add_left h.used _
          _ = maximum * ((w.start + period + slack - t) / period + 1) := by
            rw [Nat.mul_succ]
          _ ≤ maximum * ((now + period + slack - t) / period) + 0 :=
            Nat.mul_le_mul_left _ hmore
  · rw [if_neg hover]
    exact h

/-- One more is counted, with the instant `now`. -/
theorem count (h : Bound period maximum slack t counted w) (hfree : w.used < maximum)
    (hnow : now < w.start + period) (ht : t ≤ now + slack) :
    Bound period maximum slack t (counted + 1) w.count where
  used := hfree
  late := fun _ => by
    rw [Window.count_start]
    omega
  few := by
    rw [Window.count_start, Window.count_used]
    have hfew := h.few
    omega

/-- What it says while the window began before the end of `k` periods. -/
theorem total {k d : Nat} (hperiod : 0 < period)
    (h : Bound period maximum (d * period) t counted w) (hw : w.start < t + k * period) :
    counted ≤ (k + d + 1) * maximum := by
  have hperiods : (w.start + period + d * period - t) / period ≤ k + d := by
    refine Nat.le_of_lt_succ ((Nat.div_lt_iff_lt_mul hperiod).mpr ?_)
    rw [Nat.succ_mul, Nat.add_mul]
    omega
  calc counted ≤ maximum * ((w.start + period + d * period - t) / period) + w.used := h.few
    _ ≤ maximum * (k + d) + maximum :=
      Nat.add_le_add (Nat.mul_le_mul_left _ hperiods) h.used
    _ = (k + d + 1) * maximum := by rw [← Nat.mul_succ, Nat.mul_comm]

end Bound

/-! ### Meters -/

/-- Somebody who has asked: the instant they bring, and when they were counted. -/
structure Entry where
  now : Nat
  stamp : Option Nat

namespace Entry

/-- Counted before `t'`, with an instant at most `slack` before `t`. -/
def within (slack t t' : Nat) (e : Entry) : Bool :=
  t ≤ e.now + slack && e.stamp.any fun i => i < t'

@[simp] theorem within_none (slack t t' now : Nat) :
    (Entry.mk now none).within slack t t' = false := Bool.and_false _

@[simp] theorem within_some (slack t t' now i : Nat) :
    (Entry.mk now (some i)).within slack t t' = (decide (t ≤ now + slack) && decide (i < t')) := rfl

end Entry

structure Meter where
  clock : Nat
  window : Window
  entries : List Entry

namespace Meter

/-- What a step does to a meter. -/
inductive Step (period maximum : Nat) : Meter → Meter → Prop
  | wait {clock : Nat} {w : Window} {entries : List Entry} (i : Nat) :
      Step period maximum ⟨clock, w, entries⟩ ⟨clock + i, w, entries⟩
  | arrive {clock : Nat} {w : Window} {entries : List Entry} :
      Step period maximum ⟨clock, w, entries⟩ ⟨clock, w, entries ++ [⟨clock, none⟩]⟩
  | refuse {clock : Nat} {w : Window} {entries : List Entry} {e : Entry} (h : e ∈ entries) :
      Step period maximum ⟨clock, w, entries⟩ ⟨clock, w.renew period e.now, entries⟩
  | accept {clock now : Nat} {w : Window} {before after : List Entry}
      (h : (w.renew period now).used < maximum) :
      Step period maximum ⟨clock, w, before ++ ⟨now, none⟩ :: after⟩
        ⟨clock, (w.renew period now).count, before ++ ⟨now, some clock⟩ :: after⟩

/-- Nothing is later than the clock. -/
structure Past (m : Meter) : Prop where
  window : m.window.start ≤ m.clock
  entries : ∀ e ∈ m.entries, e.now ≤ m.clock

/-- How many are counted before `t'`, with an instant at most `slack` before `t`. -/
def counted (slack t t' : Nat) (m : Meter) : Nat := m.entries.countP (Entry.within slack t t')

variable {period maximum d : Nat} {m m' : Meter}

theorem Past.step (h : m.Past) (hstep : Step period maximum m m') : m'.Past := by
  cases hstep with
  | wait i =>
    refine ⟨Nat.le_trans h.window (Nat.le_add_right _ _), fun e he => ?_⟩
    exact Nat.le_trans (h.entries e he) (Nat.le_add_right _ _)
  | arrive =>
    refine ⟨h.window, fun e he => ?_⟩
    rcases List.mem_append.mp he with hold | hnew
    · exact h.entries e hold
    · exact Nat.le_of_eq (congrArg Entry.now (List.mem_singleton.mp hnew))
  | refuse he =>
    exact ⟨Window.start_renew_le h.window (h.entries _ he), h.entries⟩
  | @accept clock now w before after hfree =>
    have hnow : now ≤ clock := h.entries ⟨now, none⟩ (by simp)
    refine ⟨Window.start_renew_le h.window hnow, fun e he => ?_⟩
    rcases List.mem_append.mp he with hbefore | hrest
    · exact h.entries e (List.mem_append_left _ hbefore)
    · rcases List.mem_cons.mp hrest with rfl | hafter
      · exact hnow
      · exact h.entries e (List.mem_append_right _ (List.mem_cons_of_mem _ hafter))

/-- The invariant of `k` periods from `t`: the measure while they last, and its total
for ever. -/
structure Kept (period maximum d t k : Nat) (m : Meter) : Prop where
  full : m.window.used ≤ maximum
  running : m.clock < t + k * period →
    Bound period maximum (d * period) t (m.counted (d * period) t (t + k * period)) m.window
  total : m.counted (d * period) t (t + k * period) ≤ (k + d + 1) * maximum

theorem used_renew_le {w : Window} {now : Nat} (h : w.used ≤ maximum) :
    (w.renew period now).used ≤ maximum := by
  unfold Window.renew
  by_cases hover : period ≤ now - w.start
  · rw [if_pos hover]
    exact Nat.zero_le _
  · rw [if_neg hover]
    exact h

theorem counted_append {slack t t' clock : Nat} {w : Window} {before after : List Entry} :
    (Meter.mk clock w (before ++ after)).counted slack t t' =
      before.countP (Entry.within slack t t') + after.countP (Entry.within slack t t') := by
  unfold counted
  exact List.countP_append

theorem Kept.step (hperiod : 0 < period) {t k : Nat} (hkept : m.Kept period maximum d t k)
    (hpast : m.Past) (hstep : Step period maximum m m') : m'.Kept period maximum d t k := by
  cases hstep with
  | wait i =>
    refine ⟨hkept.full, fun hclock => hkept.running ?_, hkept.total⟩
    exact Nat.lt_of_le_of_lt (Nat.le_add_right _ _) hclock
  | @arrive clock w entries =>
    have hsame : (Meter.mk clock w (entries ++ [⟨clock, none⟩])).counted (d * period) t
        (t + k * period) = (Meter.mk clock w entries).counted (d * period) t (t + k * period) := by
      rw [counted_append]
      simp [counted]
    refine ⟨hkept.full, fun hclock => ?_, ?_⟩
    · rw [hsame]
      exact hkept.running hclock
    · rw [hsame]
      exact hkept.total
  | refuse he =>
    exact ⟨used_renew_le hkept.full, fun hclock => (hkept.running hclock).renew hperiod,
      hkept.total⟩
  | @accept clock now w before after hfree =>
    -- it counts in these periods when it brings such an instant and the clock is in them
    have hcounted : (Meter.mk clock (w.renew period now).count
        (before ++ ⟨now, some clock⟩ :: after)).counted (d * period) t (t + k * period) =
        (Meter.mk clock w (before ++ ⟨now, none⟩ :: after)).counted (d * period) t
          (t + k * period) +
          if t ≤ now + d * period ∧ clock < t + k * period then 1 else 0 := by
      rw [counted_append, counted_append, List.countP_cons, List.countP_cons]
      simp only [Entry.within_some, Entry.within_none, Bool.and_eq_true, decide_eq_true_eq]
      simp [Nat.add_assoc]
    by_cases hin : t ≤ now + d * period ∧ clock < t + k * period
    · rw [if_pos hin] at hcounted
      have hbound : Bound period maximum (d * period) t
          ((Meter.mk clock (w.renew period now).count
            (before ++ ⟨now, some clock⟩ :: after)).counted (d * period) t (t + k * period))
          (w.renew period now).count := by
        rw [hcounted]
        exact ((hkept.running hin.2).renew hperiod).count hfree (Window.lt_renew hperiod) hin.1
      have hnow : now ≤ clock := hpast.entries ⟨now, none⟩ (by simp)
      refine ⟨hfree, fun _ => hbound, hbound.total hperiod ?_⟩
      exact Nat.lt_of_le_of_lt (Window.start_renew_le hpast.window hnow) hin.2
    · rw [if_neg hin, Nat.add_zero] at hcounted
      refine ⟨hfree, fun hclock => ?_, ?_⟩
      · -- its instant is too old to be one of those
        rw [hcounted]
        have hrenewed : Bound period maximum (d * period) t _ (w.renew period now) :=
          (hkept.running hclock).renew hperiod
        exact ⟨hfree, hrenewed.late, Nat.le_trans hrenewed.few (by simp)⟩
      · rw [hcounted]
        exact hkept.total

/-- **How many are counted in `k` periods**, from whatever instant they begin. -/
theorem counted_le (hperiod : 0 < period) {clock start : Nat} (hstart : start ≤ clock)
    (hrun : Relation.ReflTransGen (Step period maximum) ⟨clock, ⟨start, 0⟩, []⟩ m)
    (d t k : Nat) : m.counted (d * period) t (t + k * period) ≤ (k + d + 1) * maximum := by
  have hkept : m.Past ∧ m.Kept period maximum d t k := by
    induction hrun with
    | refl =>
      refine ⟨⟨hstart, fun e he => absurd he (List.not_mem_nil)⟩, Nat.zero_le _,
        fun _ => Bound.none (Nat.zero_le _), Nat.zero_le _⟩
    | tail _ hstep ih =>
      obtain ⟨hpast, hkept⟩ := ih
      exact ⟨hpast.step hstep, hkept.step hperiod hpast hstep⟩
  exact hkept.2.total

end Meter

end FixedWindow

import SrgGrading.Library.FixedWindow

/-!
# Admission of requests

The layer in front of every route.  A request reads the clock, is counted in the
window of requests and, for `/login`, in that of logins, takes one of the slots,
and only then reaches its handler.  Requests are admitted side by side, and each
of these is a step of its own.

* `Site.Step`: the steps of any number of requests.
* `Site.Sound`: who has been counted and when, and who holds a slot.
* `meter_step`: a step of the site is one of each meter, or none.
* `admission_bounded`: how many requests and logins reach a handler, in any time.
-/

open FixedWindow

namespace Grading

namespace Admission

structure Response where
  status : Nat
  retryAfter : Option String
  body : String
  deriving DecidableEq

def tooManyRequests : Response :=
  ⟨429, some "60", "Too many requests. Please retry later."⟩

def serviceBusy : Response := ⟨503, some "5", "Service busy. Please retry."⟩

def timedOut : Response := ⟨408, none, "Request timed out."⟩

/-- A duration, in the nanoseconds of the clock. -/
def fromSecs (n : Nat) : Nat := n * 1000000000

structure Limits where
  requests : Window
  logins : Window
  slots : Nat

/-- `Limits::new`, which reads the clock twice. -/
def Limits.new (i i' concurrency : Nat) : Limits := ⟨⟨i, 0⟩, ⟨i', 0⟩, concurrency⟩

/-- `Window::take`; an instant before the start of the window is no time after it. -/
def take (w : Window) (now period maximum : Nat) : Bool × Window :=
  let w := if period ≤ now - w.start then { w with start := now, used := 0 } else w
  if maximum ≤ w.used then (false, w) else (true, { w with used := w.used + 1 })

/-- Where a request is in `admission`. -/
inductive Stage
  | requests
  | logins
  | slots
  | serving
  | answered (response : Option Response)
  deriving DecidableEq

/-- A request, and when it passed each gate. -/
structure Visit where
  now : Nat
  path : String
  counted : Option Nat
  login : Option Nat
  served : Option Nat
  stage : Stage
  deriving DecidableEq

namespace Visit

def arrive (clock : Nat) (path : String) : Visit := ⟨clock, path, none, none, none, .requests⟩

def answer (v : Visit) (response : Option Response) : Visit :=
  { v with stage := .answered response }

def passRequests (v : Visit) (clock : Nat) : Visit :=
  { v with counted := some clock, stage := if v.path = "/login" then .logins else .slots }

def passLogins (v : Visit) (clock : Nat) : Visit :=
  { v with login := some clock, stage := .slots }

def serve (v : Visit) (clock : Nat) : Visit := { v with served := some clock, stage := .serving }

/-- Counted wherever it has to be. -/
def Passed (v : Visit) : Prop := v.counted.isSome ∧ (v.path = "/login" → v.login.isSome)

/-- What the stage says of a request. -/
def Fits (v : Visit) : Prop :=
  match v.stage with
  | .requests => v.counted = none ∧ v.login = none ∧ v.served = none
  | .logins => v.counted.isSome ∧ v.login = none ∧ v.served = none
  | .slots => v.Passed ∧ v.served = none
  | .serving => v.Passed ∧ v.served.isSome
  | .answered response => (v.Passed ∧ v.served.isSome) ∨
      v.served = none ∧ (response = some tooManyRequests ∨ response = some serviceBusy)

end Visit

/-- `admission` up to the handler, one gate at a time. -/
def advance (clock : Nat) (limits : Limits) (v : Visit) : Limits × Visit :=
  match v.stage with
  | .requests =>
    let (taken, w) := take limits.requests v.now (fromSecs 1) 120
    ({ limits with requests := w },
      if taken then v.passRequests clock else v.answer (some tooManyRequests))
  | .logins =>
    let (taken, w) := take limits.logins v.now (fromSecs 60) 20
    ({ limits with logins := w },
      if taken then v.passLogins clock else v.answer (some tooManyRequests))
  | .slots =>
    if limits.slots = 0 then (limits, v.answer (some serviceBusy))
    else ({ limits with slots := limits.slots - 1 }, v.serve clock)
  | .serving => (limits, v)
  | .answered _ => (limits, v)

/-- The permit is dropped when a request is done. -/
def release (limits : Limits) : Limits := { limits with slots := limits.slots + 1 }

structure Site where
  clock : Nat
  limits : Limits
  visits : List Visit

namespace Site

inductive Step : Site → Site → Prop
  | wait {clock : Nat} {limits : Limits} {visits : List Visit} (i : Nat) :
      Step ⟨clock, limits, visits⟩ ⟨clock + i, limits, visits⟩
  | arrive {clock : Nat} {limits : Limits} {visits : List Visit} (path : String) :
      Step ⟨clock, limits, visits⟩ ⟨clock, limits, visits ++ [.arrive clock path]⟩
  | advance {clock : Nat} {limits : Limits} {before after : List Visit} (v : Visit) :
      Step ⟨clock, limits, before ++ v :: after⟩
        ⟨clock, (advance clock limits v).1, before ++ (advance clock limits v).2 :: after⟩
  /-- The handler answers, or the connection is closed and nobody does. -/
  | finish {clock : Nat} {limits : Limits} {before after : List Visit} {v : Visit}
      (h : v.stage = .serving) (response : Option Response) :
      Step ⟨clock, limits, before ++ v :: after⟩
        ⟨clock, release limits, before ++ v.answer response :: after⟩
  | timeout {clock since : Nat} {limits : Limits} {before after : List Visit} {v : Visit}
      (h : v.stage = .serving) (hserved : v.served = some since)
      (hover : since + fromSecs 30 ≤ clock) :
      Step ⟨clock, limits, before ++ v :: after⟩
        ⟨clock, release limits, before ++ v.answer (some timedOut) :: after⟩

/-- Several steps, one after another. -/
def Run : Site → Site → Prop := Relation.ReflTransGen Step

/-- How many requests are in their handlers. -/
def serving (s : Site) : Nat := s.visits.countP fun v => v.stage = .serving

/-- How many requests reached their handlers from `t` until `t'`. -/
def handled (t t' : Nat) (s : Site) : Nat :=
  s.visits.countP fun v => v.served.any fun i => t ≤ i && i < t'

/-- How many of them are logins. -/
def handledLogins (t t' : Nat) (s : Site) : Nat :=
  s.visits.countP fun v => v.path = "/login" && v.served.any fun i => t ≤ i && i < t'

end Site

/-! ### The gates -/

section Gates
variable {clock now period maximum : Nat} {w : Window} {limits : Limits} {v : Visit}

theorem take_eq : take w now period maximum =
    if maximum ≤ (w.renew period now).used then (false, w.renew period now)
    else (true, (w.renew period now).count) := by
  unfold take Window.renew
  by_cases h : period ≤ now - w.start
  · simp only [if_pos h]
    rfl
  · simp only [if_neg h]
    rfl

/-- What a gate with a window does. -/
theorem take_cases (w : Window) (now period maximum : Nat) :
    (∃ w', take w now period maximum = (false, w') ∧ w' = w.renew period now) ∨
    ∃ w', take w now period maximum = (true, w') ∧ (w.renew period now).used < maximum ∧
      w' = (w.renew period now).count := by
  rw [take_eq]
  by_cases h : maximum ≤ (w.renew period now).used
  · exact Or.inl ⟨_, if_pos h, rfl⟩
  · exact Or.inr ⟨_, if_neg h, by omega, rfl⟩

/-- **What one gate does to a request**, and to the limits. -/
inductive Gate (clock : Nat) (limits : Limits) (v : Visit) : Limits → Visit → Prop
  | stay : (v.stage = .serving ∨ ∃ response, v.stage = .answered response) →
      Gate clock limits v limits v
  | refuseRequest : v.stage = .requests → Gate clock limits v
      { limits with requests := limits.requests.renew (fromSecs 1) v.now }
      (v.answer (some tooManyRequests))
  | countRequest : v.stage = .requests →
      (limits.requests.renew (fromSecs 1) v.now).used < 120 → Gate clock limits v
      { limits with requests := (limits.requests.renew (fromSecs 1) v.now).count }
      (v.passRequests clock)
  | refuseLogin : v.stage = .logins → Gate clock limits v
      { limits with logins := limits.logins.renew (fromSecs 60) v.now }
      (v.answer (some tooManyRequests))
  | countLogin : v.stage = .logins →
      (limits.logins.renew (fromSecs 60) v.now).used < 20 → Gate clock limits v
      { limits with logins := (limits.logins.renew (fromSecs 60) v.now).count }
      (v.passLogins clock)
  | busy : v.stage = .slots → limits.slots = 0 →
      Gate clock limits v limits (v.answer (some serviceBusy))
  | serve : v.stage = .slots → 0 < limits.slots → Gate clock limits v
      { limits with slots := limits.slots - 1 } (v.serve clock)

theorem advance_gate (clock : Nat) (limits : Limits) (v : Visit) :
    Gate clock limits v (advance clock limits v).1 (advance clock limits v).2 := by
  cases hstage : v.stage with
  | requests =>
    rcases take_cases limits.requests v.now (fromSecs 1) 120 with
      ⟨w, htake, rfl⟩ | ⟨w, htake, hfree, rfl⟩
    · simp only [advance, hstage, htake, Bool.false_eq_true, if_false]
      exact .refuseRequest hstage
    · simp only [advance, hstage, htake, if_true]
      exact .countRequest hstage hfree
  | logins =>
    rcases take_cases limits.logins v.now (fromSecs 60) 20 with
      ⟨w, htake, rfl⟩ | ⟨w, htake, hfree, rfl⟩
    · simp only [advance, hstage, htake, Bool.false_eq_true, if_false]
      exact .refuseLogin hstage
    · simp only [advance, hstage, htake, if_true]
      exact .countLogin hstage hfree
  | slots =>
    by_cases hslots : limits.slots = 0
    · simp only [advance, hstage, if_pos hslots]
      exact .busy hstage hslots
    · simp only [advance, hstage, if_neg hslots]
      exact .serve hstage (Nat.pos_of_ne_zero hslots)
  | serving =>
    simp only [advance, hstage]
    exact .stay (Or.inl hstage)
  | answered response =>
    simp only [advance, hstage]
    exact .stay (Or.inr ⟨response, hstage⟩)

end Gates

/-! ### Who has been counted, and who holds a slot -/

namespace Visit

variable {v v' : Visit} {clock : Nat} {limits limits' : Limits}

theorem fits_arrive (path : String) : (arrive clock path).Fits := ⟨rfl, rfl, rfl⟩

theorem Fits.gate (h : v.Fits) (hgate : Gate clock limits v limits' v') : v'.Fits := by
  cases hgate with
  | stay _ => exact h
  | refuseRequest hstage =>
    unfold Fits at h
    rw [hstage] at h
    exact Or.inr ⟨h.2.2, Or.inl rfl⟩
  | countRequest hstage _ =>
    unfold Fits at h
    rw [hstage] at h
    obtain ⟨-, hlogin, hserved⟩ := h
    by_cases hpath : v.path = "/login"
    · unfold Fits passRequests
      rw [if_pos hpath]
      exact ⟨rfl, hlogin, hserved⟩
    · unfold Fits passRequests
      rw [if_neg hpath]
      exact ⟨⟨rfl, fun hp => absurd hp hpath⟩, hserved⟩
  | refuseLogin hstage =>
    unfold Fits at h
    rw [hstage] at h
    exact Or.inr ⟨h.2.2, Or.inl rfl⟩
  | countLogin hstage _ =>
    unfold Fits at h
    rw [hstage] at h
    exact ⟨⟨h.1, fun _ => rfl⟩, h.2.2⟩
  | busy hstage _ =>
    unfold Fits at h
    rw [hstage] at h
    exact Or.inr ⟨h.2, Or.inr rfl⟩
  | serve hstage _ =>
    unfold Fits at h
    rw [hstage] at h
    exact ⟨h.1, rfl⟩

theorem Fits.answer (h : v.Fits) (hstage : v.stage = .serving) (response : Option Response) :
    (v.answer response).Fits := by
  unfold Fits at h
  rw [hstage] at h
  exact Or.inl h

/-- Whoever has reached a handler has been counted. -/
theorem Fits.passed (h : v.Fits) (hserved : v.served.isSome) : v.Passed := by
  unfold Fits at h
  cases hstage : v.stage with
  | requests =>
    rw [hstage] at h
    rw [h.2.2] at hserved
    cases hserved
  | logins =>
    rw [hstage] at h
    rw [h.2.2] at hserved
    cases hserved
  | slots =>
    rw [hstage] at h
    rw [h.2] at hserved
    cases hserved
  | serving =>
    rw [hstage] at h
    exact h.1
  | answered response =>
    rw [hstage] at h
    rcases h with hpassed | ⟨hnone, -⟩
    · exact hpassed.1
    · rw [hnone] at hserved
      cases hserved

/-- What has happened to a request happened before `clock`, and it was counted before
it reached its handler. -/
structure Past (clock : Nat) (v : Visit) : Prop where
  counted : ∀ i, v.counted = some i → i ≤ clock ∧ ∀ j, v.served = some j → i ≤ j
  login : ∀ i, v.login = some i → i ≤ clock ∧ ∀ j, v.served = some j → i ≤ j

theorem past_arrive (path : String) : (arrive clock path).Past clock where
  counted := fun _ hi => by cases hi
  login := fun _ hi => by cases hi

theorem Past.wait (h : v.Past clock) (i : Nat) : v.Past (clock + i) where
  counted := fun _ hi => ⟨Nat.le_trans (h.counted _ hi).1 (Nat.le_add_right _ _),
    (h.counted _ hi).2⟩
  login := fun _ hi => ⟨Nat.le_trans (h.login _ hi).1 (Nat.le_add_right _ _), (h.login _ hi).2⟩

theorem Past.answer (h : v.Past clock) (response : Option Response) :
    (v.answer response).Past clock where
  counted := h.counted
  login := h.login

theorem Past.gate (h : v.Past clock) (hfits : v.Fits) (hgate : Gate clock limits v limits' v') :
    v'.Past clock := by
  unfold Fits at hfits
  cases hgate with
  | stay _ => exact h
  | refuseRequest _ => exact h.answer _
  | countRequest hstage _ =>
    rw [hstage] at hfits
    refine ⟨fun i hi => ?_, h.login⟩
    cases hi
    refine ⟨Nat.le_refl _, fun j hj => ?_⟩
    -- it has not reached its handler
    have hserved : v.served = some j := hj
    rw [hfits.2.2] at hserved
    cases hserved
  | refuseLogin _ => exact h.answer _
  | countLogin hstage _ =>
    rw [hstage] at hfits
    refine ⟨h.counted, fun i hi => ?_⟩
    cases hi
    refine ⟨Nat.le_refl _, fun j hj => ?_⟩
    have hserved : v.served = some j := hj
    rw [hfits.2.2] at hserved
    cases hserved
  | busy _ _ => exact h.answer _
  | serve _ _ =>
    refine ⟨fun i hi => ⟨(h.counted i hi).1, fun j hj => ?_⟩,
      fun i hi => ⟨(h.login i hi).1, fun j hj => ?_⟩⟩
    · cases hj
      exact (h.counted i hi).1
    · cases hj
      exact (h.login i hi).1

end Visit

namespace Site

variable {s s' : Site} {concurrency : Nat}

/-- **The invariant of the site.** -/
structure Sound (concurrency : Nat) (s : Site) : Prop where
  fits : ∀ v ∈ s.visits, v.Fits
  past : ∀ v ∈ s.visits, v.Past s.clock
  slots : s.limits.slots + s.serving = concurrency

/-- One request in its handler counts one. -/
def hold (v : Visit) : Nat := if v.stage = .serving then 1 else 0

theorem serving_split {clock : Nat} {limits : Limits} {before after : List Visit} {v : Visit} :
    (Site.mk clock limits (before ++ v :: after)).serving =
      (Site.mk clock limits (before ++ after)).serving + hold v := by
  unfold serving hold
  rw [List.countP_append, List.countP_cons, List.countP_append]
  simp only [decide_eq_true_eq]
  omega

/-- What a gate takes from the slots, the request has. -/
theorem hold_gate {clock : Nat} {limits limits' : Limits} {v v' : Visit}
    (h : Gate clock limits v limits' v') : limits'.slots + hold v' = limits.slots + hold v := by
  cases h with
  | stay _ => rfl
  | refuseRequest hstage => simp [hold, hstage, Visit.answer]
  | countRequest hstage _ =>
    by_cases hpath : v.path = "/login"
    · simp [hold, hstage, Visit.passRequests, hpath]
    · simp [hold, hstage, Visit.passRequests, hpath]
  | refuseLogin hstage => simp [hold, hstage, Visit.answer]
  | countLogin hstage _ => simp [hold, hstage, Visit.passLogins]
  | busy hstage _ => simp [hold, hstage, Visit.answer]
  | serve hstage hslots =>
    have hone : limits.slots - 1 + 1 = limits.slots := by omega
    simp [hold, hstage, Visit.serve, hone]

/-- What holds of all requests holds of them when one in the middle changes. -/
theorem forall_replace {P : Visit → Prop} {before after : List Visit} {v v' : Visit}
    (h : ∀ x ∈ before ++ v :: after, P x) (hv : P v') : ∀ x ∈ before ++ v' :: after, P x := by
  intro x hx
  rcases List.mem_append.mp hx with hbefore | hrest
  · exact h x (List.mem_append_left _ hbefore)
  · rcases List.mem_cons.mp hrest with rfl | hafter
    · exact hv
    · exact h x (List.mem_append_right _ (List.mem_cons_of_mem _ hafter))

/-- A request in the middle changes. -/
theorem Sound.replace {clock : Nat} {limits limits' : Limits} {before after : List Visit}
    {v v' : Visit} (h : (Site.mk clock limits (before ++ v :: after)).Sound concurrency)
    (hfits : v'.Fits) (hpast : v'.Past clock)
    (hslots : limits'.slots + hold v' = limits.slots + hold v) :
    (Site.mk clock limits' (before ++ v' :: after)).Sound concurrency := by
  refine ⟨forall_replace h.fits hfits, forall_replace h.past hpast, ?_⟩
  have hold := h.slots
  rw [serving_split] at hold ⊢
  show limits'.slots + (_ + _) = concurrency
  have hold' : limits.slots +
      ((Site.mk clock limits (before ++ after)).serving + Site.hold v) = concurrency := hold
  have hsame : (Site.mk clock limits' (before ++ after)).serving =
      (Site.mk clock limits (before ++ after)).serving := rfl
  omega

theorem hold_answer {limits : Limits} {v : Visit} (h : v.stage = .serving)
    (response : Option Response) :
    (release limits).slots + hold (v.answer response) = limits.slots + hold v := by
  simp [hold, h, release, Visit.answer]

/-- A request leaves its handler. -/
theorem Sound.leave {clock : Nat} {limits : Limits} {before after : List Visit} {v : Visit}
    (h : (Site.mk clock limits (before ++ v :: after)).Sound concurrency)
    (hstage : v.stage = .serving) (response : Option Response) :
    (Site.mk clock (release limits) (before ++ v.answer response :: after)).Sound concurrency :=
  h.replace ((h.fits v (by simp)).answer hstage response) ((h.past v (by simp)).answer response)
    (hold_answer hstage response)

theorem Sound.step (h : s.Sound concurrency) (hstep : Step s s') : s'.Sound concurrency := by
  cases hstep with
  | wait i => exact ⟨h.fits, fun v hv => (h.past v hv).wait i, h.slots⟩
  | @arrive clock limits visits path =>
    have hnew : ∀ {P : Visit → Prop}, (∀ v ∈ visits, P v) → P (.arrive clock path) →
        ∀ v ∈ visits ++ [.arrive clock path], P v := by
      intro P hold hnew v hv
      rcases List.mem_append.mp hv with hv | hv
      · exact hold v hv
      · rw [List.mem_singleton.mp hv]
        exact hnew
    refine ⟨hnew h.fits (Visit.fits_arrive path), hnew h.past (Visit.past_arrive path), ?_⟩
    have hslots : limits.slots + (Site.mk clock limits visits).serving = concurrency := h.slots
    rw [serving_split]
    show limits.slots + ((Site.mk clock limits (visits ++ [])).serving + 0) = concurrency
    rw [List.append_nil]
    exact hslots
  | @advance clock limits before after v =>
    have hgate := advance_gate clock limits v
    have hfits := h.fits v (by simp)
    exact h.replace (hfits.gate hgate) ((h.past v (by simp)).gate hfits hgate) (hold_gate hgate)
  | finish hstage response => exact h.leave hstage response
  | timeout hstage _ _ => exact h.leave hstage _

theorem Sound.run (h : s.Sound concurrency) (hrun : Run s s') : s'.Sound concurrency := by
  induction hrun with
  | refl => exact h
  | tail _ hstep ih => exact ih.step hstep

/-! ### The windows are meters -/

section Meters
variable (window : Limits → Window) (stamp : Visit → Option Nat) (period maximum : Nat)

/-- One of the windows, with the instants at which requests were counted in it. -/
def meter (s : Site) : Meter :=
  ⟨s.clock, window s.limits, s.visits.map fun v => ⟨v.now, stamp v⟩⟩

/-- What a gate does to a window and to a request. -/
def Metered (clock : Nat) (limits : Limits) (v : Visit) (limits' : Limits) (v' : Visit) : Prop :=
  v'.now = v.now ∧
    ((window limits' = window limits ∧ stamp v' = stamp v) ∨
      (window limits' = (window limits).renew period v.now ∧ stamp v' = stamp v) ∨
      (window limits' = ((window limits).renew period v.now).count ∧ stamp v = none ∧
        stamp v' = some clock ∧ ((window limits).renew period v.now).used < maximum))

variable {window stamp period maximum}

theorem meter_gate {clock : Nat} {limits limits' : Limits} {before after : List Visit}
    {v v' : Visit} (h : Metered window stamp period maximum clock limits v limits' v') :
    Relation.ReflTransGen (Meter.Step period maximum)
      (meter window stamp ⟨clock, limits, before ++ v :: after⟩)
      (meter window stamp ⟨clock, limits', before ++ v' :: after⟩) := by
  obtain ⟨hnow, hcase⟩ := h
  unfold meter
  simp only [List.map_append, List.map_cons, hnow]
  rcases hcase with ⟨hwindow, hstamp⟩ | ⟨hwindow, hstamp⟩ | ⟨hwindow, hnone, hstamp, hfree⟩
  · rw [hwindow, hstamp]
  · rw [hwindow, hstamp]
    have hmem : Entry.mk v.now (stamp v) ∈ before.map (fun v => Entry.mk v.now (stamp v)) ++
        Entry.mk v.now (stamp v) :: after.map (fun v => Entry.mk v.now (stamp v)) :=
      List.mem_append_right _ (List.mem_cons_self ..)
    exact .single (.refuse hmem)
  · rw [hwindow, hnone, hstamp]
    exact .single (.accept hfree)

/-- **A step of the site is one of the meter, or none.** -/
theorem meter_step (hgate : ∀ {clock limits v limits' v'}, v.Fits →
      Gate clock limits v limits' v' → Metered window stamp period maximum clock limits v limits' v')
    (harrive : ∀ clock path, stamp (.arrive clock path) = none)
    (hanswer : ∀ v response, stamp (v.answer response) = stamp v)
    (hrelease : ∀ limits, window (release limits) = window limits)
    (h : s.Sound concurrency) (hstep : Step s s') :
    Relation.ReflTransGen (Meter.Step period maximum) (meter window stamp s)
      (meter window stamp s') := by
  have hfinish : ∀ {clock limits before after} {v : Visit} (response : Option Response),
      Relation.ReflTransGen (Meter.Step period maximum)
        (meter window stamp ⟨clock, limits, before ++ v :: after⟩)
        (meter window stamp ⟨clock, release limits, before ++ v.answer response :: after⟩) :=
    fun response => meter_gate ⟨rfl, Or.inl ⟨hrelease _, hanswer _ response⟩⟩
  cases hstep with
  | wait i => exact .single (.wait i)
  | @arrive clock limits visits path =>
    unfold meter
    simp only [List.map_append, List.map_cons, List.map_nil, harrive]
    exact .single .arrive
  | @advance clock limits before after v =>
    exact meter_gate (hgate (h.fits v (by simp)) (advance_gate clock limits v))
  | finish _ response => exact hfinish response
  | timeout _ _ _ => exact hfinish _

end Meters

/-- The window of requests. -/
def requestsMeter : Site → Meter := meter Limits.requests Visit.counted

/-- The window of logins. -/
def loginsMeter : Site → Meter := meter Limits.logins Visit.login

theorem requests_gate {clock : Nat} {limits limits' : Limits} {v v' : Visit} (h : v.Fits)
    (hgate : Gate clock limits v limits' v') :
    Metered Limits.requests Visit.counted (fromSecs 1) 120 clock limits v limits' v' := by
  cases hgate with
  | countRequest hstage hfree =>
    unfold Visit.Fits at h
    rw [hstage] at h
    exact ⟨rfl, Or.inr (Or.inr ⟨rfl, h.1, rfl, hfree⟩)⟩
  | refuseRequest _ => exact ⟨rfl, Or.inr (Or.inl ⟨rfl, rfl⟩)⟩
  | stay _ => exact ⟨rfl, Or.inl ⟨rfl, rfl⟩⟩
  | refuseLogin _ => exact ⟨rfl, Or.inl ⟨rfl, rfl⟩⟩
  | countLogin _ _ => exact ⟨rfl, Or.inl ⟨rfl, rfl⟩⟩
  | busy _ _ => exact ⟨rfl, Or.inl ⟨rfl, rfl⟩⟩
  | serve _ _ => exact ⟨rfl, Or.inl ⟨rfl, rfl⟩⟩

theorem logins_gate {clock : Nat} {limits limits' : Limits} {v v' : Visit} (h : v.Fits)
    (hgate : Gate clock limits v limits' v') :
    Metered Limits.logins Visit.login (fromSecs 60) 20 clock limits v limits' v' := by
  cases hgate with
  | countLogin hstage hfree =>
    unfold Visit.Fits at h
    rw [hstage] at h
    exact ⟨rfl, Or.inr (Or.inr ⟨rfl, h.2.1, rfl, hfree⟩)⟩
  | refuseLogin _ => exact ⟨rfl, Or.inr (Or.inl ⟨rfl, rfl⟩)⟩
  | stay _ => exact ⟨rfl, Or.inl ⟨rfl, rfl⟩⟩
  | refuseRequest _ => exact ⟨rfl, Or.inl ⟨rfl, rfl⟩⟩
  | countRequest _ _ => exact ⟨rfl, Or.inl ⟨rfl, rfl⟩⟩
  | busy _ _ => exact ⟨rfl, Or.inl ⟨rfl, rfl⟩⟩
  | serve _ _ => exact ⟨rfl, Or.inl ⟨rfl, rfl⟩⟩

theorem requests_run (h : s.Sound concurrency) (hrun : Run s s') :
    Relation.ReflTransGen (Meter.Step (fromSecs 1) 120) s.requestsMeter s'.requestsMeter := by
  induction hrun with
  | refl => exact .refl
  | tail hrun hstep ih =>
    exact ih.trans (meter_step requests_gate (fun _ _ => rfl) (fun _ _ => rfl) (fun _ => rfl)
      (h.run hrun) hstep)

theorem logins_run (h : s.Sound concurrency) (hrun : Run s s') :
    Relation.ReflTransGen (Meter.Step (fromSecs 60) 20) s.loginsMeter s'.loginsMeter := by
  induction hrun with
  | refl => exact .refl
  | tail hrun hstep ih =>
    exact ih.trans (meter_step logins_gate (fun _ _ => rfl) (fun _ _ => rfl) (fun _ => rfl)
      (h.run hrun) hstep)

/-- No request reaches its handler more than `d` seconds after it read the clock. -/
def Prompt (d : Nat) (s : Site) : Prop :=
  ∀ v ∈ s.visits, ∀ i, v.served = some i → i ≤ v.now + d * fromSecs 1

/-- Those who reach their handlers were counted, with an instant that is not too old. -/
theorem counted_of_served {stamp : Visit → Option Nat} {d slack t t' i : Nat} {v : Visit}
    (hslack : d * fromSecs 1 ≤ slack) (hprompt : i ≤ v.now + d * fromSecs 1)
    (hi : t ≤ i ∧ i < t') (hsome : (stamp v).isSome) (hbefore : ∀ j, stamp v = some j → j ≤ i) :
    Entry.within slack t t' ⟨v.now, stamp v⟩ = true := by
  obtain ⟨j, hj⟩ := Option.isSome_iff_exists.mp hsome
  have hle := hbefore j hj
  rw [hj, Entry.within_some, Bool.and_eq_true, decide_eq_true_eq, decide_eq_true_eq]
  omega

theorem handled_le {d : Nat} (h : s.Sound concurrency) (hprompt : s.Prompt d) (t t' : Nat) :
    s.handled t t' ≤ s.requestsMeter.counted (d * fromSecs 1) t t' := by
  unfold handled requestsMeter meter Meter.counted
  rw [List.countP_map]
  refine List.countP_mono_left fun v hv hserved => ?_
  rw [Option.any_eq_true] at hserved
  obtain ⟨i, hi, hin⟩ := hserved
  rw [Bool.and_eq_true, decide_eq_true_eq, decide_eq_true_eq] at hin
  have hpassed := (h.fits v hv).passed (by rw [hi]; rfl)
  exact counted_of_served (Nat.le_refl _) (hprompt v hv i hi) hin hpassed.1
    fun j hj => ((h.past v hv).counted j hj).2 i hi

theorem handledLogins_le {d : Nat} (h : s.Sound concurrency) (hprompt : s.Prompt d) (t t' : Nat) :
    s.handledLogins t t' ≤ s.loginsMeter.counted ((d + 59) / 60 * fromSecs 60) t t' := by
  unfold handledLogins loginsMeter meter Meter.counted
  rw [List.countP_map]
  refine List.countP_mono_left fun v hv hserved => ?_
  rw [Bool.and_eq_true, decide_eq_true_eq, Option.any_eq_true] at hserved
  obtain ⟨hpath, i, hi, hin⟩ := hserved
  rw [Bool.and_eq_true, decide_eq_true_eq, decide_eq_true_eq] at hin
  have hpassed := (h.fits v hv).passed (by rw [hi]; rfl)
  have hminutes : d * fromSecs 1 ≤ (d + 59) / 60 * fromSecs 60 := by
    unfold fromSecs
    omega
  exact counted_of_served hminutes (hprompt v hv i hi) hin (hpassed.2 hpath)
    fun j hj => ((h.past v hv).login j hj).2 i hi

/-- Nobody has arrived yet. -/
def new (clock i i' concurrency : Nat) : Site := ⟨clock, .new i i' concurrency, []⟩

theorem sound_new (clock i i' : Nat) : (new clock i i' concurrency).Sound concurrency :=
  ⟨fun _ hv => absurd hv List.not_mem_nil, fun _ hv => absurd hv List.not_mem_nil, rfl⟩

end Site

/-- **The service is never overrun**: no slot is lost, nobody reaches a handler who
was not counted, and where requests reach their handlers within `d` seconds, at most
`k + d + 1` windows of requests do so in any `k` seconds, and the same for logins and
minutes. -/
theorem admission_bounded {clock i i' concurrency d : Nat} {s : Site} (hi : i ≤ clock)
    (hi' : i' ≤ clock) (hrun : (Site.new clock i i' concurrency).Run s) (hprompt : s.Prompt d) :
    s.limits.slots + s.serving = concurrency ∧
      (∀ v ∈ s.visits, v.served.isSome → v.Passed) ∧
      ∀ t k, s.handled t (t + k * fromSecs 1) ≤ (k + d + 1) * 120 ∧
        s.handledLogins t (t + k * fromSecs 60) ≤ (k + (d + 59) / 60 + 1) * 20 := by
  have hnew : (Site.new clock i i' concurrency).Sound concurrency := Site.sound_new clock i i'
  have hsound := hnew.run hrun
  refine ⟨hsound.slots, fun v hv hserved => (hsound.fits v hv).passed hserved, fun t k => ⟨?_, ?_⟩⟩
  · exact Nat.le_trans (Site.handled_le hsound hprompt t _)
      (Meter.counted_le (by decide) hi (Site.requests_run hnew hrun) d t k)
  · exact Nat.le_trans (Site.handledLogins_le hsound hprompt t _)
      (Meter.counted_le (by decide) hi' (Site.logins_run hnew hrun) _ t k)

end Admission

namespace Sample

open Admission

/-- A login arrives, passes what gates it can, and leaves its handler if it is there. -/
def oneLogin (s : Site) : Site :=
  let first := advance s.clock s.limits (.arrive s.clock "/login")
  let second := advance s.clock first.1 first.2
  let third := advance s.clock second.1 second.2
  if third.2.stage = .serving then
    ⟨s.clock, release third.1, s.visits ++ [third.2.answer (some ⟨200, none, "login"⟩)]⟩
  else ⟨s.clock, third.1, s.visits ++ [third.2]⟩

theorem run_oneLogin (s : Site) : s.Run (oneLogin s) := by
  have harrive : s.Run ⟨s.clock, s.limits, s.visits ++ [.arrive s.clock "/login"]⟩ :=
    .single (.arrive "/login")
  have hgates := ((harrive.tail (.advance _)).tail (.advance _)).tail (.advance _)
  rw [oneLogin]
  split
  · rename_i hstage
    exact hgates.tail (.finish hstage _)
  · exact hgates

def manyLogins : Nat → Site → Site
  | 0, s => s
  | n + 1, s => manyLogins n (oneLogin s)

theorem run_manyLogins (n : Nat) (s : Site) : s.Run (manyLogins n s) := by
  induction n generalizing s with
  | zero => exact .refl
  | succ n ih => exact (run_oneLogin s).trans (ih (oneLogin s))

def later (i : Nat) (s : Site) : Site := { s with clock := s.clock + i }

theorem run_later (i : Nat) (s : Site) : s.Run (later i s) := .single (.wait i)

/-- Twenty-one logins, and as many a second later. -/
def rush (s : Site) : Site := manyLogins 21 (later (fromSecs 1) (manyLogins 21 s))

theorem run_rush (s : Site) : s.Run (rush s) :=
  ((run_manyLogins 21 s).trans (run_later _ _)).trans (run_manyLogins 21 _)

/-- The second before the window of logins is over. -/
def lastSecond : Site := .new (fromSecs 59) 0 0 1

/-- **Forty logins in one minute**, on a service of one slot; the two that are too
many are refused. -/
theorem admission_bounded_login : ∃ s : Site, lastSecond.Run s ∧
    s.visits.length = 42 ∧ s.handledLogins (fromSecs 59) (fromSecs 59 + 1 * fromSecs 60) = 40 ∧
      s.handledLogins (fromSecs 59) (fromSecs 59 + 1 * fromSecs 60) ≤
        (1 + (0 + 59) / 60 + 1) * 20 := by
  have hserved : ((rush lastSecond).visits.all fun v => v.served.all fun i => i ≤ v.now) = true := by
    decide +kernel
  have hprompt : (rush lastSecond).Prompt 0 := by
    intro v hv i hi
    have hle := List.all_eq_true.mp hserved v hv
    rw [hi, Option.all_some, decide_eq_true_eq] at hle
    omega
  have hrun : lastSecond.Run (rush lastSecond) := run_rush _
  exact ⟨rush lastSecond, hrun, by decide +kernel, by decide +kernel,
    ((admission_bounded (Nat.zero_le _) (Nat.zero_le _) hrun hprompt).2.2 _ 1).2⟩

end Sample

end Grading

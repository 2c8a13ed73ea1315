import SrgGrading.Library.Transition
import SrgGrading.Store.Queue

/-!
# The retry budget

A lease counts as an attempt and a defer gives it back.  A task that was leased
eight times is not leased again, and once its last lease has run out it is failed.

* `Desk.Step`: what the clients of the queue do, in any order.
* `Event`, `eventOf`: what an act is to a task.
* `performed`: an event is all that changes the status and the attempts.
* `Balanced`: the attempts are the leases that were not deferred.
* `retry_budget`: **the budget holds in every run.**
-/

open Fallible Relational

namespace Grading

namespace Queue

/-! ### Acts -/

/-- What a client of the queue does. -/
inductive Act
  | enqueue (id : Uuid) (kind : TaskKind) (subject : Uuid) (priority : Int)
  | lease (locked : List Uuid) (token : Uuid) (owner : String) (kinds : List TaskKind)
  | heartbeat (id token : Uuid) (owner : String)
  | finish (task : Task)
  | fail (task : Task) (text : String)
  | failPermanently (task : Task)
  | defer (task : Task) (until_ : Time)
  | expireExhausted
  | retry (task : Uuid) (operator reason : String)
  | pass

/-- A worker names a task it was given. -/
def Act.given (issued : List Task) : Act → Bool
  | .finish task => issued.contains task
  | .fail task _ => issued.contains task
  | .failPermanently task => issued.contains task
  | .defer task _ => issued.contains task
  | _ => true

/-- The store after an act.  One that returns an error changes nothing. -/
def perform (s : Store) (now : Time) : Act → Store
  | .enqueue id kind subject priority => (enqueue s now id kind subject priority).toOption.getD s
  | .lease locked token owner kinds => (lease s now locked token owner kinds).1
  | .heartbeat id token owner => (heartbeat s now id token owner).toOption.getD s
  | .finish task => (finish s now task).toOption.getD s
  | .fail task text => Queue.fail s now task text
  | .failPermanently task => Queue.failPermanently s now task
  | .defer task until_ => Queue.defer s now task until_
  | .expireExhausted => Queue.expireExhausted s now
  | .retry task operator reason => (retry s now task operator reason).toOption.getD s
  | .pass => s

/-- What an act leases. -/
def leased (s : Store) (now : Time) : Act → Option Task
  | .lease locked token owner kinds => (lease s now locked token owner kinds).2
  | _ => none

/-- The queue, the time of the last act, and the tasks that were leased. -/
structure Desk where
  store : Store
  clock : Time
  issued : List Task

namespace Desk

def next (σ : Desk) (l : Time × Act) : Option Desk :=
  if σ.clock ≤ l.1 && l.2.given σ.issued then
    some ⟨perform σ.store l.1 l.2, l.1, σ.issued ++ (leased σ.store l.1 l.2).toList⟩
  else none

def Step (σ : Desk) (l : Time × Act) (τ : Desk) : Prop := σ.next l = some τ

/-- Any tasks, none of them leased yet. -/
structure Initial (σ : Desk) : Prop where
  ids : (σ.store.tasks.map TaskRow.id).Nodup
  fresh : ∀ t ∈ σ.store.tasks, t.attempts = 0 ∧ t.status = .pending
  issued : σ.issued = []

end Desk

/-! ### Events -/

/-- What an act is to a task. -/
inductive Event
  | none
  | granted
  | deferred
  | ended
  | retried
  deriving DecidableEq

/-- A failed control task, which an operator may retry. -/
def retriable (task : Uuid) (t : TaskRow) : Bool :=
  t.id = task && t.status = .failed &&
    [TaskKind.snapshot, .publish, .provision, .lock].contains t.kind

/-- A lease that ran out with the last attempt. -/
def exhausted (now : Time) (t : TaskRow) : Bool :=
  t.status = .leased && t.expired now && 8 ≤ t.attempts

def eventOf (s : Store) (now : Time) : Act → TaskRow → Event
  | .lease locked _ _ kinds, t =>
    if (candidate s now locked kinds).any fun c => t.id = c.id then .granted else .none
  | .finish task, t =>
    if s.tasks.countP (holds now task.id task.leaseToken) = 1 && holds now task.id task.leaseToken t
    then .ended else .none
  | .fail task _, t => if holds now task.id task.leaseToken t then .ended else .none
  | .failPermanently task, t => if holds now task.id task.leaseToken t then .ended else .none
  | .defer task _, t => if holds now task.id task.leaseToken t then .deferred else .none
  | .expireExhausted, t => if exhausted now t then .ended else .none
  | .retry task _ reason, t =>
    if !Text.blank reason && s.tasks.countP (retriable task) = 1 && retriable task t
    then .retried else .none
  | _, _ => .none

/-- What an event does to the status and the attempts of a task. -/
def Moves : Event → TaskRow → TaskRow → Prop
  | .none, t, u => u.status = t.status ∧ u.attempts = t.attempts
  | .granted, t, u => t.attempts < 8 ∧ (t.status = .pending ∨ t.status = .leased) ∧
      u.status = .leased ∧ u.attempts = t.attempts + 1
  | .deferred, t, u => t.status = .leased ∧ u.status = .pending ∧
      u.attempts = max (t.attempts - 1) 0
  | .ended, t, u => t.status = .leased ∧ u.status ≠ .leased ∧ u.attempts = t.attempts
  | .retried, t, u => t.status = .failed ∧ u.status = .pending ∧ u.attempts = 0

/-- A task before an act and after it.  Without an event only a lease that has not
run out is touched. -/
structure Follows (s : Store) (now : Time) (a : Act) (t u : TaskRow) : Prop where
  id : u.id = t.id
  moves : Moves (eventOf s now a t) t u
  same : eventOf s now a t = .none → t.live now = false → u = t

/-! ### What an act does to the tasks -/

section Rows
variable {s s' : Store} {now : Time} {a : Act}

/-- What an act leaves of the tasks: each of them after its event, and new ones. -/
structure Performed (s : Store) (now : Time) (a : Act) (s' : Store) : Prop where
  rows : ∀ u ∈ s'.tasks, (∃ t ∈ s.tasks, Follows s now a t u) ∨
    (u.attempts = 0 ∧ u.status = .pending ∧ u.id ∉ s.tasks.map TaskRow.id)
  ids : ∃ new, s'.tasks.map TaskRow.id = s.tasks.map TaskRow.id ++ new ∧
    (new ≠ [] → ∃ id, new = [id] ∧ id ∉ s.tasks.map TaskRow.id)

theorem Performed.idle (htasks : s'.tasks = s.tasks)
    (hnone : ∀ t ∈ s.tasks, eventOf s now a t = .none) : Performed s now a s' where
  rows := fun u hu => by
    rw [htasks] at hu
    refine Or.inl ⟨u, hu, rfl, ?_, fun _ _ => rfl⟩
    rw [hnone u hu]
    exact ⟨rfl, rfl⟩
  ids := ⟨[], by rw [htasks, List.append_nil], fun h => absurd rfl h⟩

/-- An update is an event for the rows it touches, and none for the others. -/
theorem Performed.update {p : TaskRow → Bool} {f : TaskRow → TaskRow}
    (htasks : s'.tasks = updateWhere p f s.tasks) (hid : ∀ t, (f t).id = t.id)
    (hmove : ∀ t ∈ s.tasks, p t = true → Moves (eventOf s now a t) t (f t))
    (hsame : ∀ t ∈ s.tasks, p t = true → eventOf s now a t = .none → t.live now = true)
    (hstay : ∀ t ∈ s.tasks, p t = false → eventOf s now a t = .none) : Performed s now a s' where
  rows := fun u hu => by
    rw [htasks] at hu
    obtain ⟨t, ht, rfl⟩ := mem_updateWhere.mp hu
    refine Or.inl ⟨t, ht, ?_, ?_, fun hnone hlive => ?_⟩
    · split
      · exact hid t
      · rfl
    · cases hp : p t with
      | true => exact hmove t ht hp
      | false =>
        rw [hstay t ht hp]
        exact ⟨rfl, rfl⟩
    · cases hp : p t with
      | true =>
        rw [hsame t ht hp hnone] at hlive
        cases hlive
      | false => rfl
  ids := by
    refine ⟨[], ?_, fun h => absurd rfl h⟩
    rw [htasks, updateWhere, List.map_map, List.append_nil]
    refine List.map_congr_left fun t _ => ?_
    rw [Function.comp_apply]
    split
    · exact hid t
    · rfl

/-- Rows of different ids that have the same are one. -/
theorem row_unique (hids : (s.tasks.map TaskRow.id).Nodup) {t u : TaskRow} (ht : t ∈ s.tasks)
    (hu : u ∈ s.tasks) (h : t.id = u.id) : t = u :=
  List.inj_on_of_nodup_map hids ht hu h

theorem holds_leased {id token : Uuid} {t : TaskRow} (h : holds now id token t = true) :
    t.status = .leased := by
  simp only [holds, Bool.and_eq_true, decide_eq_true_eq] at h
  exact h.1.2

/-- An update that is one event for all the rows it touches. -/
theorem Performed.marked {p : TaskRow → Bool} {f : TaskRow → TaskRow}
    (htasks : s'.tasks = updateWhere p f s.tasks) (hid : ∀ t, (f t).id = t.id) {e : Event}
    (he : e ≠ .none) (hevent : ∀ t, eventOf s now a t = if p t then e else .none)
    (hmove : ∀ t ∈ s.tasks, p t = true → Moves e t (f t)) : Performed s now a s' := by
  refine .update htasks hid (fun t ht hp => ?_) (fun t _ hp hnone => ?_) fun t _ hp => ?_
  · rw [hevent, if_pos hp]
    exact hmove t ht hp
  · rw [hevent, if_pos hp] at hnone
    exact absurd hnone he
  · rw [hevent, hp]
    rfl

/-- An act that updates the rows a worker holds. -/
theorem Performed.held {task : Task} {f : TaskRow → TaskRow}
    (htasks : s'.tasks = updateWhere (holds now task.id task.leaseToken) f s.tasks)
    (hid : ∀ t, (f t).id = t.id) {e : Event} (he : e ≠ .none)
    (hevent : ∀ t, eventOf s now a t =
      if holds now task.id task.leaseToken t then e else .none)
    (hmove : ∀ t, t.status = .leased → Moves e t (f t)) : Performed s now a s' :=
  .marked htasks hid he hevent fun t _ hp => hmove t (holds_leased hp)

theorem performed_enqueue (id : Uuid) (kind : TaskKind) (subject : Uuid) (priority : Int) :
    Performed s now (.enqueue id kind subject priority)
      (perform s now (.enqueue id kind subject priority)) := by
  cases h : enqueue s now id kind subject priority with
  | error e =>
    rw [perform, h]
    exact .idle rfl fun _ _ => rfl
  | ok s' =>
    rw [perform, h]
    simp only [enqueue] at h
    split at h
    · rw [pure_ok] at h
      rw [← h]
      exact .idle rfl fun _ _ => rfl
    · simp only [bind_ok, ensure_ok, pure_ok] at h
      obtain ⟨_, hnew, rfl⟩ := h
      have hout : id ∉ s.tasks.map TaskRow.id := by
        intro hmem
        obtain ⟨t, ht, hid⟩ := List.mem_map.mp hmem
        have hno := List.any_eq_false.mp (Bool.not_eq_true' _ ▸ hnew) t ht
        exact hno (decide_eq_true hid)
      refine ⟨fun u hu => ?_, [id], List.map_append, fun _ => ⟨id, rfl, hout⟩⟩
      rcases List.mem_append.mp hu with hu | hu
      · exact Or.inl ⟨u, hu, rfl, ⟨rfl, rfl⟩, fun _ _ => rfl⟩
      · rw [List.mem_singleton.mp hu]
        exact Or.inr ⟨rfl, rfl, hout⟩

theorem performed_lease (hids : (s.tasks.map TaskRow.id).Nodup) (locked : List Uuid) (token : Uuid)
    (owner : String) (kinds : List TaskKind) :
    Performed s now (.lease locked token owner kinds)
      (perform s now (.lease locked token owner kinds)) := by
  cases hc : candidate s now locked kinds with
  | none =>
    have hstore : perform s now (.lease locked token owner kinds) = s := by
      rw [perform, lease, hc]
    rw [hstore]
    refine .idle rfl fun t _ => ?_
    rw [eventOf, hc]
    rfl
  | some c =>
    have hmem := List.argmin_mem hc
    rw [List.mem_filter] at hmem
    have hready : c.ready now = true := by
      have hall := hmem.2
      simp only [Bool.and_eq_true] at hall
      exact hall.1.2
    simp only [TaskRow.ready, Bool.and_eq_true, Bool.or_eq_true, decide_eq_true_eq] at hready
    have hstore : (perform s now (.lease locked token owner kinds)).tasks =
        updateWhere (fun u => u.id = c.id) (fun u => u.leaseTo owner token now) s.tasks := by
      rw [perform, lease, hc]
      rfl
    refine .marked hstore (fun _ => rfl) (e := .granted) (fun h => (by cases h)) (fun t => ?_)
      fun t ht hp => ?_
    · rw [eventOf, hc, Option.any_some]
    · rw [row_unique hids ht hmem.1 (of_decide_eq_true hp)]
      exact ⟨hready.1, hready.2.imp And.left And.left, rfl, rfl⟩

theorem performed_heartbeat (id token : Uuid) (owner : String) :
    Performed s now (.heartbeat id token owner) (perform s now (.heartbeat id token owner)) := by
  cases h : heartbeat s now id token owner with
  | error e =>
    rw [perform, h]
    exact .idle rfl fun _ _ => rfl
  | ok s' =>
    rw [perform, h]
    simp only [heartbeat, bind_ok, pure_ok] at h
    obtain ⟨_, _, rfl⟩ := h
    refine .update rfl (fun _ => rfl) (fun _ _ _ => ⟨rfl, rfl⟩) (fun t _ hp _ => ?_)
      fun _ _ _ => rfl
    simp only [holds, Bool.and_eq_true] at hp
    exact hp.1.2

theorem performed_finish (task : Task) :
    Performed s now (.finish task) (perform s now (.finish task)) := by
  by_cases hone : s.tasks.countP (holds now task.id task.leaseToken) = 1
  · have hstore : (perform s now (.finish task)).tasks =
        updateWhere (holds now task.id task.leaseToken) (fun t => { t with status := .done })
          s.tasks := by
      rw [perform, finish]
      simp only [hone, decide_true]
      rfl
    refine .held hstore (fun _ => rfl) (e := .ended) (fun h => (by cases h)) (fun t => ?_)
      fun t ht => ?_
    · rw [eventOf, hone]
      rfl
    · exact ⟨ht, fun h => (by cases h), rfl⟩
  · have hstore : perform s now (.finish task) = s := by
      rw [perform, finish]
      simp only [hone, decide_false]
      rfl
    rw [hstore]
    refine .idle rfl fun t _ => ?_
    rw [eventOf, decide_eq_false hone]
    rfl

/-- A failed task is pending, or failed for good. -/
theorem performed_fail (task : Task) (text : String) :
    Performed s now (.fail task text) (perform s now (.fail task text)) := by
  refine .held (e := .ended) rfl (fun _ => rfl) (fun h => (by cases h)) (fun _ => rfl)
    fun t ht => ⟨ht, ?_, rfl⟩
  dsimp only
  split <;> exact fun h => (by cases h)

theorem performed_expire : Performed s now .expireExhausted (perform s now .expireExhausted) := by
  refine .marked (p := exhausted now) rfl (fun _ => rfl) (e := .ended) (fun h => (by cases h))
    (fun _ => rfl) fun t _ hp => ?_
  simp only [exhausted, Bool.and_eq_true, decide_eq_true_eq] at hp
  exact ⟨hp.1.1, fun h => (by cases h), rfl⟩

theorem performed_retry (task : Uuid) (operator reason : String) :
    Performed s now (.retry task operator reason)
      (perform s now (.retry task operator reason)) := by
  cases hr : (!Text.blank reason && s.tasks.countP (retriable task) = 1 : Bool) with
  | false =>
    have hstore : perform s now (.retry task operator reason) = s := by
      rw [perform]
      cases h : retry s now task operator reason with
      | error e => rfl
      | ok s' =>
        simp only [retry, bind_ok, check_ok] at h
        obtain ⟨_, hblank, _, hone, _⟩ := h
        rw [hblank, Bool.true_and] at hr
        exact absurd hone (Bool.eq_false_iff.mp hr)
    rw [hstore]
    refine .idle rfl fun t _ => ?_
    rw [eventOf, hr]
    rfl
  | true =>
    have hboth := Bool.and_eq_true_iff.mp hr
    have hstore : (perform s now (.retry task operator reason)).tasks =
        updateWhere (retriable task)
          (fun t => { t with status := .pending, attempts := 0, availableAt := now }) s.tasks := by
      have hok : retry s now task operator reason = .ok
          ((s.updateTasks (retriable task) fun t =>
            { t with status := .pending, attempts := 0, availableAt := now }).auditEvent operator
              "task.retry" task.text reason) := by
        simp only [retry, bind_ok, check_ok, pure_ok]
        exact ⟨(), hboth.1, (), hboth.2, rfl⟩
      rw [perform, hok]
      rfl
    refine .marked hstore (fun _ => rfl) (e := .retried) (fun h => (by cases h)) (fun t => ?_)
      fun t _ hp => ?_
    · rw [eventOf, hr, Bool.true_and]
    · simp only [retriable, Bool.and_eq_true, decide_eq_true_eq] at hp
      exact ⟨hp.1.2, rfl, rfl⟩

/-- **What an act does to the tasks** is what its events say. -/
theorem performed (hids : (s.tasks.map TaskRow.id).Nodup) : Performed s now a (perform s now a) := by
  cases a with
  | enqueue id kind subject priority => exact performed_enqueue id kind subject priority
  | lease locked token owner kinds => exact performed_lease hids locked token owner kinds
  | heartbeat id token owner => exact performed_heartbeat id token owner
  | finish task => exact performed_finish task
  | fail task text => exact performed_fail task text
  | failPermanently task =>
    exact .held (e := .ended) rfl (fun _ => rfl) (fun h => (by cases h)) (fun _ => rfl) fun t ht =>
      ⟨ht, fun h => (by cases h), rfl⟩
  | defer task until_ =>
    exact .held (e := .deferred) rfl (fun _ => rfl) (fun h => (by cases h)) (fun _ => rfl)
      fun t ht => ⟨ht, rfl, rfl⟩
  | expireExhausted => exact performed_expire
  | retry task operator reason => exact performed_retry task operator reason
  | pass => exact .idle rfl fun _ _ => rfl

/-- The ids stay different. -/
theorem Performed.nodup (h : Performed s now a s') (hids : (s.tasks.map TaskRow.id).Nodup) :
    (s'.tasks.map TaskRow.id).Nodup := by
  obtain ⟨new, heq, hnew⟩ := h.ids
  rw [heq]
  by_cases hnil : new = []
  · rw [hnil, List.append_nil]
    exact hids
  · obtain ⟨id, rfl, hout⟩ := hnew hnil
    rw [List.nodup_append]
    refine ⟨hids, List.nodup_singleton _, fun x hx y hy => ?_⟩
    rw [List.mem_singleton.mp hy]
    exact fun hxy => hout (hxy ▸ hx)

end Rows

/-! ### Counting -/

/-- The leases of a task, those that were deferred, and those that ended otherwise,
since it was enqueued or retried. -/
structure Tally where
  leases : Nat
  defers : Nat
  ended : Nat

/-- What an event counts.  A lease of a task that is leased ends the lease before. -/
def Tally.record (c : Tally) (t : TaskRow) : Event → Tally
  | .none => c
  | .granted =>
    ⟨c.leases + 1, c.defers, if t.status = .leased then c.ended + 1 else c.ended⟩
  | .deferred => ⟨c.leases, c.defers + 1, c.ended⟩
  | .ended => ⟨c.leases, c.defers, c.ended + 1⟩
  | .retried => ⟨0, 0, 0⟩

/-- The event of a step for the task of an id. -/
def eventAt (id : Uuid) (p : Desk × (Time × Act)) : Option (TaskRow × Event) :=
  (p.1.store.tasks.find? fun t => t.id = id).map fun t =>
    (t, eventOf p.1.store p.2.1 p.2.2 t)

def Tally.step (id : Uuid) (c : Tally) (p : Desk × (Time × Act)) : Tally :=
  match eventAt id p with
  | none => c
  | some (t, e) => c.record t e

/-- The counts of a task over a run. -/
def tally (id : Uuid) (taken : List (Desk × (Time × Act))) : Tally :=
  taken.foldl (Tally.step id) ⟨0, 0, 0⟩

/-- The attempts are the leases that were not deferred, and at most eight. -/
structure Balanced (c : Tally) (t : TaskRow) : Prop where
  attempts : t.attempts = c.leases - c.defers
  leases : c.leases = c.defers + c.ended + if t.status = .leased then 1 else 0
  nonneg : 0 ≤ t.attempts
  le : t.attempts ≤ 8

/-- **An event keeps the balance.** -/
theorem Balanced.record {c : Tally} {t u : TaskRow} {e : Event} (h : Balanced c t)
    (hmoves : Moves e t u) : Balanced (c.record t e) u := by
  obtain ⟨hattempts, hleases, hnonneg, hle⟩ := h
  cases e with
  | none =>
    obtain ⟨hstatus, hsame⟩ := hmoves
    exact ⟨hsame ▸ hattempts, hstatus ▸ hleases, hsame ▸ hnonneg, hsame ▸ hle⟩
  | granted =>
    obtain ⟨hlt, hbefore, hstatus, hnew⟩ := hmoves
    have hbusy : (if t.status = .leased then c.ended + 1 else c.ended) =
        c.ended + if t.status = .leased then 1 else 0 := by
      split <;> rfl
    refine ⟨?_, ?_, ?_, ?_⟩
    · simp only [Tally.record]
      push_cast
      omega
    · simp only [Tally.record, hbusy, hstatus, if_true]
      omega
    · omega
    · omega
  | deferred =>
    obtain ⟨hbefore, hstatus, hnew⟩ := hmoves
    rw [hbefore, if_pos rfl] at hleases
    have hpending : ¬ u.status = .leased := by
      rw [hstatus]
      exact fun h => by cases h
    refine ⟨?_, ?_, ?_, ?_⟩
    · simp only [Tally.record]
      push_cast
      omega
    · simp only [Tally.record, if_neg hpending]
      omega
    · omega
    · omega
  | ended =>
    obtain ⟨hbefore, hstatus, hnew⟩ := hmoves
    rw [hbefore, if_pos rfl] at hleases
    refine ⟨?_, ?_, ?_, ?_⟩
    · simp only [Tally.record]
      omega
    · simp only [Tally.record, if_neg hstatus]
      omega
    · omega
    · omega
  | retried =>
    obtain ⟨_, hstatus, hnew⟩ := hmoves
    have hpending : ¬ u.status = .leased := by
      rw [hstatus]
      exact fun h => by cases h
    refine ⟨?_, ?_, ?_, ?_⟩
    · rw [hnew]
      rfl
    · simp only [Tally.record, if_neg hpending]
    · omega
    · omega

/-! ### Runs -/

/-- The invariant of the queue along a run. -/
structure Counted (σ : Desk) (taken : List (Desk × (Time × Act))) : Prop where
  ids : (σ.store.tasks.map TaskRow.id).Nodup
  balanced : ∀ t ∈ σ.store.tasks, Balanced (tally t.id taken) t
  unknown : ∀ id, id ∉ σ.store.tasks.map TaskRow.id → tally id taken = ⟨0, 0, 0⟩
  issued : ∀ task ∈ σ.issued, 1 ≤ task.attempts ∧ task.attempts ≤ 8

theorem find_row {s : Store} (hids : (s.tasks.map TaskRow.id).Nodup) {t : TaskRow}
    (ht : t ∈ s.tasks) : (s.tasks.find? fun u => u.id = t.id) = some t := by
  cases hf : s.tasks.find? fun u => u.id = t.id with
  | none =>
    have hno := List.find?_eq_none.mp hf t ht
    exact absurd (decide_eq_true rfl) hno
  | some u =>
    have hid : u.id = t.id := by simpa using List.find?_some hf
    rw [row_unique hids (List.mem_of_find?_eq_some hf) ht hid]

theorem tally_snoc (id : Uuid) (taken : List (Desk × (Time × Act))) (p : Desk × (Time × Act)) :
    tally id (taken ++ [p]) = (tally id taken).step id p := by
  rw [tally, List.foldl_append]
  rfl

theorem tally_snoc_of_mem {σ : Desk} (hids : (σ.store.tasks.map TaskRow.id).Nodup) {t : TaskRow}
    (ht : t ∈ σ.store.tasks) (taken : List (Desk × (Time × Act))) (l : Time × Act) :
    tally t.id (taken ++ [(σ, l)]) =
      (tally t.id taken).record t (eventOf σ.store l.1 l.2 t) := by
  rw [tally_snoc, Tally.step, eventAt, find_row hids ht]
  rfl

theorem tally_snoc_of_notMem {σ : Desk} {id : Uuid} (hid : id ∉ σ.store.tasks.map TaskRow.id)
    (taken : List (Desk × (Time × Act))) (l : Time × Act) :
    tally id (taken ++ [(σ, l)]) = tally id taken := by
  have hfind : (σ.store.tasks.find? fun t => t.id = id) = none := by
    rw [List.find?_eq_none]
    intro t ht heq
    exact hid (List.mem_map.mpr ⟨t, ht, of_decide_eq_true heq⟩)
  rw [tally_snoc, Tally.step, eventAt, hfind]
  rfl

/-- What a step is. -/
theorem Desk.step_spec {σ τ : Desk} {l : Time × Act} (h : Desk.Step σ l τ) :
    σ.clock ≤ l.1 ∧ l.2.given σ.issued = true ∧ τ.store = perform σ.store l.1 l.2 ∧
      τ.clock = l.1 ∧ τ.issued = σ.issued ++ (leased σ.store l.1 l.2).toList := by
  simp only [Desk.Step, Desk.next, Option.ite_none_right_eq_some, Option.some_inj,
    Bool.and_eq_true, decide_eq_true_eq] at h
  obtain ⟨⟨hclock, hgiven⟩, rfl⟩ := h
  exact ⟨hclock, hgiven, rfl, rfl, rfl⟩

/-- What is leased is a row with attempts left. -/
theorem leased_attempts {s : Store} {now : Time} {a : Act} {task : Task}
    (h : leased s now a = some task) :
    ∃ t ∈ s.tasks, t.attempts < 8 ∧ task.attempts = t.attempts + 1 := by
  cases a with
  | lease locked token owner kinds =>
    simp only [leased, lease] at h
    split at h
    · cases h
    · rename_i c hc
      rw [Option.some_inj] at h
      have hmem := List.argmin_mem hc
      simp only [List.mem_filter, TaskRow.ready, Bool.and_eq_true, decide_eq_true_eq] at hmem
      exact ⟨c, hmem.1, hmem.2.1.2.1, by rw [← h]⟩
  | _ => cases h

theorem Counted.step {σ τ : Desk} {taken : List (Desk × (Time × Act))} {l : Time × Act}
    (h : Counted σ taken) (hstep : Desk.Step σ l τ) : Counted τ (taken ++ [(σ, l)]) := by
  obtain ⟨_, _, hstore, _, hissued⟩ := Desk.step_spec hstep
  have hperf : Performed σ.store l.1 l.2 τ.store := hstore ▸ performed h.ids
  refine ⟨hperf.nodup h.ids, fun u hu => ?_, fun id hid => ?_, fun task htask => ?_⟩
  · rcases hperf.rows u hu with ⟨t, ht, hfollows⟩ | ⟨hattempts, hstatus, hnew⟩
    · rw [hfollows.id, tally_snoc_of_mem h.ids ht]
      exact (h.balanced t ht).record hfollows.moves
    · rw [tally_snoc_of_notMem hnew, h.unknown _ hnew]
      refine ⟨hattempts, ?_, hattempts.ge, by omega⟩
      rw [hstatus]
      rfl
  · have hbefore : id ∉ σ.store.tasks.map TaskRow.id := by
      obtain ⟨new, heq, _⟩ := hperf.ids
      rw [heq] at hid
      exact fun hm => hid (List.mem_append_left _ hm)
    rw [tally_snoc_of_notMem hbefore, h.unknown _ hbefore]
  · rw [hissued, List.mem_append, Option.mem_toList] at htask
    rcases htask with htask | htask
    · exact h.issued task htask
    · obtain ⟨t, ht, hlt, heq⟩ := leased_attempts htask
      have hnonneg := (h.balanced t ht).nonneg
      omega

theorem Counted.of_run {σ τ : Desk} {taken : List (Desk × (Time × Act))} (hinit : σ.Initial)
    (h : Transition.Run Desk.Step σ taken τ) : Counted τ taken := by
  induction h with
  | nil =>
    refine ⟨hinit.ids, fun t ht => ?_, fun _ _ => rfl, fun task htask => ?_⟩
    · obtain ⟨hattempts, hstatus⟩ := hinit.fresh t ht
      refine ⟨hattempts, ?_, hattempts.ge, by omega⟩
      rw [hstatus]
      rfl
    · rw [hinit.issued] at htask
      cases htask
  | snoc _ hstep ih => exact ih.step hstep

/-- No step of a run is this event for the task of this id. -/
def Without (id : Uuid) (e : Event) (taken : List (Desk × (Time × Act))) : Prop :=
  ∀ p ∈ taken, ∀ t ∈ p.1.store.tasks, t.id = id → eventOf p.1.store p.2.1 p.2.2 t ≠ e

theorem Without.append {id : Uuid} {e : Event} {taken more : List (Desk × (Time × Act))}
    (h : Without id e (taken ++ more)) : Without id e taken ∧ Without id e more :=
  ⟨fun p hp => h p (List.mem_append_left _ hp), fun p hp => h p (List.mem_append_right _ hp)⟩

/-- The rows of a task that was there. -/
theorem follows_of_step {σ τ : Desk} {l : Time × Act} (hids : (σ.store.tasks.map TaskRow.id).Nodup)
    (hstep : Desk.Step σ l τ) {id : Uuid} (hid : id ∈ σ.store.tasks.map TaskRow.id)
    {u : TaskRow} (hu : u ∈ τ.store.tasks) (huid : u.id = id) :
    ∃ t ∈ σ.store.tasks, t.id = id ∧ Follows σ.store l.1 l.2 t u := by
  obtain ⟨_, _, hstore, _, _⟩ := Desk.step_spec hstep
  have hperf : Performed σ.store l.1 l.2 τ.store := hstore ▸ performed hids
  rcases hperf.rows u hu with ⟨t, ht, hfollows⟩ | ⟨_, _, hnew⟩
  · exact ⟨t, ht, hfollows.id.symm.trans huid, hfollows⟩
  · exact absurd (huid ▸ hid) hnew

theorem follows_of_mem {s : Store} (now : Time) (a : Act)
    (hids : (s.tasks.map TaskRow.id).Nodup) {t : TaskRow} (ht : t ∈ s.tasks) :
    ∃ u ∈ (perform s now a).tasks, Follows s now a t u := by
  have hperf : Performed s now a (perform s now a) := performed hids
  have hthere : t.id ∈ s.tasks.map TaskRow.id := List.mem_map.mpr ⟨t, ht, rfl⟩
  obtain ⟨new, heq, _⟩ := hperf.ids
  have hafter : t.id ∈ (perform s now a).tasks.map TaskRow.id := by
    rw [heq]
    exact List.mem_append_left _ hthere
  obtain ⟨u, hu, huid⟩ := List.mem_map.mp hafter
  rcases hperf.rows u hu with ⟨v, hv, hfollows⟩ | ⟨_, _, hnew⟩
  · rw [row_unique hids ht hv (huid.symm.trans hfollows.id)]
    exact ⟨u, hu, hfollows⟩
  · exact absurd (huid ▸ hthere) hnew

/-- A task of the queue stays in it, and the ids stay different. -/
theorem ids_of_run {σ τ : Desk} {more : List (Desk × (Time × Act))}
    (hids : (σ.store.tasks.map TaskRow.id).Nodup) (h : Transition.Run Desk.Step σ more τ) :
    (τ.store.tasks.map TaskRow.id).Nodup ∧
      ∀ id ∈ σ.store.tasks.map TaskRow.id, id ∈ τ.store.tasks.map TaskRow.id := by
  induction h with
  | nil => exact ⟨hids, fun _ hid => hid⟩
  | snoc _ hstep ih =>
    obtain ⟨_, _, hstore, _, _⟩ := Desk.step_spec hstep
    have hperf := hstore ▸ performed ih.1
    obtain ⟨new, heq, _⟩ := hperf.ids
    refine ⟨hperf.nodup ih.1, fun id hid => ?_⟩
    rw [heq]
    exact List.mem_append_left _ (ih.2 id hid)

/-- **A task that has had its eight leases is not leased again**, unless a lease is
deferred or an operator retries it. -/
theorem not_granted {σ τ : Desk} {more : List (Desk × (Time × Act))}
    (hids : (σ.store.tasks.map TaskRow.id).Nodup) (h : Transition.Run Desk.Step σ more τ)
    {t : TaskRow} (ht : t ∈ σ.store.tasks) (hfull : t.attempts = 8)
    (hdefer : Without t.id .deferred more) (hretry : Without t.id .retried more) :
    Without t.id .granted more ∧ ∀ u ∈ τ.store.tasks, u.id = t.id → u.attempts = 8 := by
  induction h with
  | nil =>
    refine ⟨fun p hp => (by cases hp), fun u hu hid => ?_⟩
    rw [row_unique hids hu ht hid]
    exact hfull
  | snoc hrun hstep ih =>
    rename_i ρ τ' l
    obtain ⟨hgranted, hrows⟩ := ih hdefer.append.1 hretry.append.1
    have hbefore := ids_of_run hids hrun
    have hnone : ∀ v ∈ ρ.store.tasks, v.id = t.id → eventOf ρ.store l.1 l.2 v ≠ .granted := by
      intro v hv hvid hevent
      obtain ⟨u, _, hfollows⟩ := follows_of_mem l.1 l.2 hbefore.1 hv
      have hmoves := hfollows.moves
      rw [hevent] at hmoves
      have hattempts := hrows v hv hvid
      exact absurd hmoves.1 (by omega)
    refine ⟨fun p hp => ?_, fun u hu hid => ?_⟩
    · rcases List.mem_append.mp hp with hp | hp
      · exact hgranted p hp
      · rw [List.mem_singleton.mp hp]
        exact hnone
    · have hthere := hbefore.2 t.id (List.mem_map.mpr ⟨t, ht, rfl⟩)
      obtain ⟨v, hv, hvid, hfollows⟩ := follows_of_step hbefore.1 hstep hthere hu hid
      have hlast : (ρ, l) ∈ [(ρ, l)] := List.mem_singleton.mpr rfl
      have hmoves := hfollows.moves
      cases hevent : eventOf ρ.store l.1 l.2 v with
      | none =>
        rw [hevent] at hmoves
        exact hmoves.2.trans (hrows v hv hvid)
      | ended =>
        rw [hevent] at hmoves
        exact hmoves.2.2.trans (hrows v hv hvid)
      | granted => exact absurd hevent (hnone v hv hvid)
      | deferred => exact absurd hevent (hdefer.append.2 _ hlast v hv hvid)
      | retried => exact absurd hevent (hretry.append.2 _ hlast v hv hvid)

/-! ### Expired leases -/

theorem not_live_of_expired {t : TaskRow} {now later : Time} (h : t.expired now = true)
    (hle : now ≤ later) : t.live later = false ∧ t.expired later = true := by
  rw [TaskRow.expired] at h ⊢
  rw [TaskRow.live]
  cases hu : t.leaseUntil with
  | none =>
    rw [hu] at h
    cases h
  | some until_ =>
    rw [hu, Option.any_some, decide_eq_true_eq] at h
    rw [Option.any_some, Option.any_some, decide_eq_false_iff_not, decide_eq_true_eq]
    exact ⟨not_lt.mpr (le_of_lt (lt_of_lt_of_le h hle)), lt_of_lt_of_le h hle⟩

/-- What an act may be to a lease that has run out with the last attempt. -/
theorem event_of_lapsed {s : Store} {now : Time} {a : Act} {t : TaskRow}
    (hlive : t.live now = false) (hexhausted : exhausted now t = true) :
    (a = .expireExhausted ∧ eventOf s now a t = .ended) ∨
      a ≠ .expireExhausted ∧ (eventOf s now a t = .none ∨ eventOf s now a t = .granted ∨
        eventOf s now a t = .retried) := by
  have hheld : ∀ id token, holds now id token t = false := by
    intro id token
    rw [holds, hlive, Bool.and_false]
  cases a with
  | expireExhausted => exact Or.inl ⟨rfl, by rw [eventOf, hexhausted]; rfl⟩
  | lease =>
    refine Or.inr ⟨fun h => (by cases h), ?_⟩
    rw [eventOf]
    split
    · exact Or.inr (Or.inl rfl)
    · exact Or.inl rfl
  | retry =>
    refine Or.inr ⟨fun h => (by cases h), ?_⟩
    rw [eventOf]
    split
    · exact Or.inr (Or.inr rfl)
    · exact Or.inl rfl
  | finish => exact Or.inr ⟨fun h => (by cases h), Or.inl (by rw [eventOf, hheld, Bool.and_false]; rfl)⟩
  | fail => exact Or.inr ⟨fun h => (by cases h), Or.inl (by rw [eventOf, hheld]; rfl)⟩
  | failPermanently => exact Or.inr ⟨fun h => (by cases h), Or.inl (by rw [eventOf, hheld]; rfl)⟩
  | defer => exact Or.inr ⟨fun h => (by cases h), Or.inl (by rw [eventOf, hheld]; rfl)⟩
  | enqueue => exact Or.inr ⟨fun h => (by cases h), Or.inl rfl⟩
  | heartbeat => exact Or.inr ⟨fun h => (by cases h), Or.inl rfl⟩
  | pass => exact Or.inr ⟨fun h => (by cases h), Or.inl rfl⟩

/-- `expire_exhausted` fails what is exhausted. -/
theorem failed_of_expire {s : Store} {now : Time} (hids : (s.tasks.map TaskRow.id).Nodup)
    {t u : TaskRow} (ht : t ∈ s.tasks) (hexhausted : exhausted now t = true)
    (hu : u ∈ (perform s now .expireExhausted).tasks) (hid : u.id = t.id) :
    u.status = .failed := by
  obtain ⟨v, hv, rfl⟩ := mem_updateWhere.mp (show u ∈ updateWhere (exhausted now) _ s.tasks from hu)
  have hvt : v = t := by
    refine row_unique hids hv ht ?_
    rw [← hid]
    split <;> rfl
  rw [hvt, if_pos hexhausted]

/-- The task of an exhausted lease: as it was, or failed. -/
def Lapsed (t u : TaskRow) (swept : Prop) : Prop :=
  (¬ swept ∧ u = t) ∨ (swept ∧ u.status = .failed)

/-- **Once its last lease has run out, a task is failed after the next
`expire_exhausted`**, and stays failed until it is retried. -/
theorem failed_after_expire {σ τ : Desk} {more : List (Desk × (Time × Act))}
    (hids : (σ.store.tasks.map TaskRow.id).Nodup) (h : Transition.Run Desk.Step σ more τ)
    {t : TaskRow} (ht : t ∈ σ.store.tasks) (hexhausted : exhausted σ.clock t = true)
    (hfull : t.attempts = 8) (hretry : Without t.id .retried more) :
    σ.clock ≤ τ.clock ∧ ∀ u ∈ τ.store.tasks, u.id = t.id →
      Lapsed t u (∃ p ∈ more, p.2.2 = .expireExhausted) := by
  induction h with
  | nil =>
    refine ⟨le_refl _, fun u hu hid => Or.inl ⟨?_, row_unique hids hu ht hid⟩⟩
    rintro ⟨p, hp, _⟩
    cases hp
  | snoc hrun hstep ih =>
    rename_i taken ρ τ' l
    obtain ⟨hclock, hrows⟩ := ih hretry.append.1
    obtain ⟨hlater, _, hstore, hnow, _⟩ := Desk.step_spec hstep
    have hbefore := ids_of_run hids hrun
    refine ⟨hnow ▸ hclock.trans hlater, fun u hu hid => ?_⟩
    have hthere := hbefore.2 t.id (List.mem_map.mpr ⟨t, ht, rfl⟩)
    obtain ⟨v, hv, hvid, hfollows⟩ := follows_of_step hbefore.1 hstep hthere hu hid
    have hnoretry := hretry.append.2 _ (List.mem_singleton.mpr rfl) v hv hvid
    have hmoves := hfollows.moves
    have hsnoc : (∃ p ∈ taken ++ [(ρ, l)], p.2.2 = .expireExhausted) ↔
        (∃ p ∈ taken, p.2.2 = .expireExhausted) ∨ l.2 = .expireExhausted := by
      constructor
      · rintro ⟨p, hp, heq⟩
        rcases List.mem_append.mp hp with hp | hp
        · exact Or.inl ⟨p, hp, heq⟩
        · rw [List.mem_singleton.mp hp] at heq
          exact Or.inr heq
      · rintro (⟨p, hp, heq⟩ | heq)
        · exact ⟨p, List.mem_append_left _ hp, heq⟩
        · exact ⟨_, List.mem_append_right _ List.mem_cons_self, heq⟩
    rw [Lapsed, hsnoc]
    rcases hrows v hv hvid with ⟨hnot, rfl⟩ | ⟨hswept, hfailed⟩
    · have hexpired : v.expired σ.clock = true := by
        simp only [exhausted, Bool.and_eq_true] at hexhausted
        exact hexhausted.1.2
      have hlapsed := not_live_of_expired hexpired (hclock.trans hlater)
      have hstill : exhausted l.1 v = true := by
        simp only [exhausted, Bool.and_eq_true] at hexhausted ⊢
        exact ⟨⟨hexhausted.1.1, hlapsed.2⟩, hexhausted.2⟩
      rcases event_of_lapsed hlapsed.1 hstill with ⟨hact, _⟩ | ⟨hact, hevent | hevent | hevent⟩
      · refine Or.inr ⟨Or.inr hact, ?_⟩
        rw [hstore, hact] at hu
        exact failed_of_expire hbefore.1 hv hstill hu hid
      · exact Or.inl ⟨not_or.mpr ⟨hnot, hact⟩, hfollows.same hevent hlapsed.1⟩
      · rw [hevent] at hmoves
        exact absurd hmoves.1 (by omega)
      · exact absurd hevent hnoretry
    · refine Or.inr ⟨Or.inl hswept, ?_⟩
      cases hevent : eventOf ρ.store l.1 l.2 v with
      | none =>
        rw [hevent] at hmoves
        exact hmoves.1.trans hfailed
      | granted =>
        rw [hevent] at hmoves
        rcases hmoves.2.1 with h | h <;> rw [hfailed] at h <;> cases h
      | deferred =>
        rw [hevent] at hmoves
        have hleased := hmoves.1
        rw [hfailed] at hleased
        cases hleased
      | ended =>
        rw [hevent] at hmoves
        have hleased := hmoves.1
        rw [hfailed] at hleased
        cases hleased
      | retried => exact absurd hevent hnoretry

/-! ### The budget -/

/-- The delay `fail` computes for a task, in seconds. -/
def backoff (task : Task) : Int := 30 * 2 ^ (min task.attempts 8).toNat

theorem backoff_le {task : Task} (h : 1 ≤ task.attempts ∧ task.attempts ≤ 8) :
    60 ≤ backoff task ∧ backoff task ≤ 7680 := by
  have hpowers : ∀ n < 9, 1 ≤ n → (60 : Int) ≤ 30 * 2 ^ n ∧ 30 * 2 ^ n ≤ (7680 : Int) := by
    decide
  exact hpowers _ (by omega) (by omega)

/-- **The retry budget.**  In every run: the attempts of a task are its leases less
its deferred leases, and at most eight; at most eight leases end without a defer; a
task leased with the eighth attempt is leased again only after a defer or a retry;
once that lease has run out it is failed by the next `expire_exhausted`; and the
backoff of a leased task is a small number. -/
theorem retry_budget {σ τ : Desk} {taken : List (Desk × (Time × Act))} (hinit : σ.Initial)
    (h : Transition.Run Desk.Step σ taken τ) :
    (∀ t ∈ τ.store.tasks,
      t.attempts = (tally t.id taken).leases - (tally t.id taken).defers ∧
      (0 ≤ t.attempts ∧ t.attempts ≤ 8) ∧ (tally t.id taken).ended ≤ 8) ∧
    (∀ t ∈ τ.store.tasks, ∀ (more : List (Desk × (Time × Act))) (ρ : Desk),
      Transition.Run Desk.Step τ more ρ → t.attempts = 8 → Without t.id .retried more →
      (Without t.id .deferred more → Without t.id .granted more) ∧
      (exhausted τ.clock t = true → ∀ u ∈ ρ.store.tasks, u.id = t.id →
        Lapsed t u (∃ p ∈ more, p.2.2 = .expireExhausted))) ∧
    ∀ task ∈ τ.issued, 60 ≤ backoff task ∧ backoff task ≤ 7680 := by
  have hcounted := Counted.of_run hinit h
  refine ⟨fun t ht => ?_, fun t ht more ρ hmore hfull hretry => ⟨fun hdefer => ?_, fun hex => ?_⟩,
    fun task htask => backoff_le (hcounted.issued task htask)⟩
  · have hbalanced := hcounted.balanced t ht
    refine ⟨hbalanced.attempts, ⟨hbalanced.nonneg, hbalanced.le⟩, ?_⟩
    have hattempts := hbalanced.attempts
    have hleases := hbalanced.leases
    have hle := hbalanced.le
    omega
  · exact (not_granted hcounted.ids hmore ht hfull hdefer hretry).1
  · exact (failed_after_expire hcounted.ids hmore ht hex hfull hretry).2

end Queue

namespace Sample

open Queue

/-- A queue with one task. -/
def oneTask : Desk where
  store :=
    { courses := [], enrollments := [], assignments := [], revisions := [], repositories := []
      extensions := [], events := [], artifacts := [], submissions := [], runs := []
      findings := [], overrides := [], tasks := [.new 1 .snapshot 2 0 0], outbox := [], audit := [] }
  clock := 0
  issued := []

theorem oneTask_initial : oneTask.Initial where
  ids := List.nodup_singleton _
  fresh := fun t ht => by
    rw [List.mem_singleton.mp ht]
    exact ⟨rfl, rfl⟩
  issued := rfl

/-- A lease every 121 seconds. -/
def leaseEvery (n : Nat) : List (Time × Act) :=
  (List.range n).map fun k : Nat =>
    (121 * (k : Int) * nanosPerSecond, .lease [] (Fin.ofNat _ (10 + k)) "worker" [.snapshot])

/-- What the eighth lease returned. -/
def eighth : Task := ⟨1, .snapshot, 2, 17, 967 * nanosPerSecond, 8⟩

/-- The queue after the eighth lease. -/
def full : Desk := (Transition.replay Desk.next oneTask (leaseEvery 8)).getD oneTask

/-- The eighth lease is deferred, and the task is leased once more. -/
def ninth : List (Time × Act) :=
  [(848 * nanosPerSecond, .defer eighth (849 * nanosPerSecond)),
    (850 * nanosPerSecond, .lease [] 18 "worker" [.snapshot])]

def afterNinth : Desk := (Transition.replay Desk.next full ninth).getD full

theorem full_run : Transition.Run Desk.Step oneTask
    (Transition.traceOf Desk.next oneTask (leaseEvery 8)) full :=
  Transition.run_of_replay (fun _ _ _ h => h) (by
    have hsome : (Transition.replay Desk.next oneTask (leaseEvery 8)).isSome = true := by
      decide +kernel
    rw [full]
    obtain ⟨σ, hσ⟩ := Option.isSome_iff_exists.mp hsome
    rw [hσ]
    rfl)

theorem ninth_run : Transition.Run Desk.Step full (Transition.traceOf Desk.next full ninth)
    afterNinth :=
  Transition.run_of_replay (fun _ _ _ h => h) (by
    have hsome : (Transition.replay Desk.next full ninth).isSome = true := by
      decide +kernel
    rw [afterNinth]
    obtain ⟨σ, hσ⟩ := Option.isSome_iff_exists.mp hsome
    rw [hσ]
    rfl)

/-- **A task leased with its eighth attempt is leased again**, after a defer. -/
theorem leased_again : oneTask.Initial ∧
    Transition.Run Desk.Step oneTask (Transition.traceOf Desk.next oneTask (leaseEvery 8)) full ∧
    (∃ t ∈ full.store.tasks, t.id = 1 ∧ t.status = .leased ∧ t.attempts = 8) ∧
    Transition.Run Desk.Step full (Transition.traceOf Desk.next full ninth) afterNinth ∧
    ¬ Without 1 .granted (Transition.traceOf Desk.next full ninth) := by
  have hrow : (full.store.tasks.any fun t => t.id = 1 && t.status = .leased && t.attempts = 8) =
      true := by
    decide +kernel
  have hgranted : ((Transition.traceOf Desk.next full ninth).any fun p =>
      p.1.store.tasks.any fun t => t.id = 1 &&
        eventOf p.1.store p.2.1 p.2.2 t = .granted) = true := by
    decide +kernel
  refine ⟨oneTask_initial, full_run, ?_, ninth_run, fun hwithout => ?_⟩
  · obtain ⟨t, ht, hall⟩ := List.any_eq_true.mp hrow
    simp only [Bool.and_eq_true, decide_eq_true_eq] at hall
    exact ⟨t, ht, hall.1.1, hall.1.2, hall.2⟩
  · obtain ⟨p, hp, hany⟩ := List.any_eq_true.mp hgranted
    obtain ⟨t, ht, hall⟩ := List.any_eq_true.mp hany
    rw [Bool.and_eq_true, decide_eq_true_eq, decide_eq_true_eq] at hall
    exact hwithout p hp t ht hall.1 hall.2

/-- After eight leases no task has more than eight attempts. -/
theorem retry_budget_full : oneTask.Initial ∧ ∀ t ∈ full.store.tasks, t.attempts ≤ 8 :=
  ⟨oneTask_initial, fun t ht => ((retry_budget oneTask_initial full_run).1 t ht).2.1.2⟩

end Sample

end Grading

import SrgGrading.Library.Program
import SrgGrading.Library.Transition
import SrgGrading.Store.Evolution

/-!
# Extending and closing, statement by statement

`extend` and `close` read the deadline in the statement that waits for the lock
of the repository.  After the wait the locked row is the current one, and the
rows it is joined with are still those of the snapshot the statement began with.

* `alone_extend`, `alone_close`: a transaction nobody else interferes with.
* `extend_triple`, `close_triple`: what a transaction does to the deadline it
  found, if that was the current one.
* `Sys.extensions_honoured`: what holds along every run in which no transaction
  passes its check on a deadline that was extended meanwhile.
-/

open Fallible Relational

namespace Grading

namespace Deadlines

open Submissions

/-! ### The transactions -/

/-- What a transaction does once it has the lock. -/
inductive Statement : Type → Type
  | utcNow : Statement Time
  | newest (repository : Uuid) : Statement (Option Uuid)
  | setClosure (repository : Uuid) (submission : Option Uuid) : Statement Unit
  | reviveTasks (submission : Uuid) : Statement Unit
  | enqueueLock (id repository : Uuid) : Statement Unit
  | retryLock (repository : Uuid) : Statement Unit
  | upsertExtension (x : Extension) : Statement Unit
  | audit (operator action : String) (target : List Char) (reason : String) : Statement Unit

namespace Statement

/-- What a statement answers and writes, at a time of the clock; `now` is the
`now()` of its transaction. -/
def run (clock now : Time) {α : Type} : Statement α → Store → Except Error (α × Store)
  | utcNow, s => return (clock, s)
  | newest repository, s => return ((s.newest repository).map Submission.id, s)
  | setClosure repository submission, s =>
    return ((), s.updateRepositories (fun r => r.id = repository) fun r =>
      { r with closureDue := true, finalSubmissionId := submission })
  | reviveTasks submission, s =>
    return ((), s.updateTasks (ofFinal s submission) (revive now))
  | enqueueLock id repository, s => do
    let s ← Queue.enqueue s now id .lock repository 100
    return ((), s)
  | retryLock repository, s =>
    return ((), s.updateTasks
      (fun t => t.kind = .lock && t.subject = repository && t.status = .failed)
      fun t => { t with status := .pending, attempts := 0, availableAt := now })
  | upsertExtension x, s =>
    return ((), { s with extensions := Submissions.upsertExtension s.extensions x })
  | audit operator action target reason, s =>
    return ((), s.auditEvent operator action target reason)

/-- When the closing was set, after the statement. -/
def closes {α : Type} (clock : Time) (closed : Option Time) : Statement α → Option Time
  | setClosure _ _ => some clock
  | _ => closed

end Statement

inductive Call
  | extend (deadline : Time) (operator reason : String)
  | close (id : Uuid)

namespace Call

/-- What is checked before the transaction begins. -/
def ready : Call → Except Error Unit
  | extend _ _ reason => check (!Text.blank reason) "reason required"
  | close _ => return ()

/-- The statements after `SELECT … FOR UPDATE OF r`, which answered `p`. -/
def body (repository : Uuid) (now : Time) (p : Store.Pinned) :
    Call → Program Statement Error Unit
  | extend deadline operator reason => do
    let clock ← Program.request .utcNow
    Program.lift (check (!p.repository.closureDue && p.deadline < deadline && clock < deadline)
      ("extension must advance an assignment that has not been closed; " ++
        "closed submissions require an audited selection override"))
    Program.request (.upsertExtension ⟨repository, timestamptz deadline, reason⟩)
    Program.request (.audit operator "extension" repository.text
      (String.ofList (dateTimeText ' ' (.ofInstant deadline) ++ " UTC: ".toList) ++ reason))
  | close id => do
    let due : Bool := p.deadline < now
    Program.when (due && !p.repository.closureDue) do
      let submission ← Program.request (.newest repository)
      Program.request (.setClosure repository submission)
      match submission with
      | some submission => Program.request (.reviveTasks submission)
      | none => pure ()
    Program.when due do
      Program.request (.enqueueLock id repository)
      Program.request (.retryLock repository)

/-- The check of a call on the deadline it read. -/
def passes (now : Time) (read : Time) : Call → Bool
  | extend deadline _ _ => read < deadline
  | close _ => read < now

end Call

/-- `SELECT … FOR UPDATE OF r` after its wait: the row of the repository is read
again, the rows joined with it stay those of the snapshot. -/
def relock (snapshot s : Store) (repository : Uuid) : Except Error Store.Pinned := do
  let p ← snapshot.fetchPinned repository
  let r ← s.fetchRepository repository
  ensure (r.revisionDigest = p.revision.digest) .rowNotFound
  return { p with repository := r }

/-! ### A transaction alone -/

/-- Run a program without anybody else. -/
def alone (clock now : Time) {α : Type} :
    Program Statement Error α → Store → Except Error (α × Store)
  | .done a, s => return (a, s)
  | .fail e, _ => throw e
  | .call r k, s => do
    let (a, s) ← r.run clock now s
    alone clock now (k a) s

/-- A whole transaction that meets nobody. -/
def Call.alone (clock now : Time) (repository : Uuid) (call : Call) (s : Store) :
    Except Error Store := do
  call.ready
  let p ← relock s s repository
  let (_, s) ← Deadlines.alone clock now (call.body repository now p) s
  return s

section Alone
variable {clock now : Time} {repository : Uuid} {s : Store} {α β : Type}

theorem alone_bind (p : Program Statement Error α) (f : α → Program Statement Error β) :
    Deadlines.alone clock now (p >>= f) s =
      (Deadlines.alone clock now p s >>= fun x => Deadlines.alone clock now (f x.1) x.2) := by
  induction p generalizing s with
  | done a => rfl
  | fail e => rfl
  | call r k ih =>
    change (r.run clock now s >>= fun x => Deadlines.alone clock now (k x.1 >>= f) x.2) =
      (r.run clock now s >>= fun x => Deadlines.alone clock now (k x.1) x.2) >>=
        fun x => Deadlines.alone clock now (f x.1) x.2
    cases r.run clock now s with
    | ok x => exact ih x.1
    | error e => rfl

theorem alone_request (r : Statement α) :
    Deadlines.alone clock now (Program.request r) s = r.run clock now s := by
  change (r.run clock now s >>= fun x => pure (x.1, x.2)) = r.run clock now s
  cases r.run clock now s with
  | ok x => rfl
  | error e => rfl

theorem alone_lift (x : Except Error α) :
    Deadlines.alone clock now (Program.lift x) s = x.map fun a => (a, s) := by
  cases x with
  | ok a => rfl
  | error e => rfl

theorem relock_self : relock s s repository = s.fetchPinned repository := by
  unfold relock
  cases hp : s.fetchPinned repository with
  | error e => rfl
  | ok p =>
    unfold Store.fetchPinned at hp
    simp only [bind_ok, pure_ok] at hp
    obtain ⟨r, hr, v, hv, rfl⟩ := hp
    have hdigest : r.revisionDigest = v.digest := by
      rw [Store.fetchRevision, fetchOne_ok] at hv
      exact (key_of_lookup hv).symm
    simp only [bind, Except.bind, hr, decide_eq_true hdigest, ensure]
    rfl

/-- **Alone, an extension** is what it is as one step. -/
theorem alone_extend (deadline : Time) (operator reason : String) :
    (Call.extend deadline operator reason).alone clock now repository s =
      extend s clock repository deadline operator reason := by
  unfold Call.alone extend Call.ready Call.body
  rw [relock_self]
  simp only [alone_bind, alone_request, alone_lift, Statement.run]
  cases check (!Text.blank reason) "reason required" with
  | error e => rfl
  | ok _ =>
    cases s.fetchPinned repository with
    | error e => rfl
    | ok p =>
      simp only [bind, Except.bind, pure, Except.pure]
      generalize check (!p.repository.closureDue && decide (p.deadline < deadline) &&
        decide (clock < deadline)) _ = passed
      cases passed with
      | error e => rfl
      | ok _ => rfl

/-- **Alone, a closing** is what it is as one step. -/
theorem alone_close (id : Uuid) :
    (Call.close id).alone clock now repository s = close s now (fun _ => id) repository := by
  have hlock : ∀ s : Store, (Deadlines.alone clock now
      (Program.request (.enqueueLock id repository) >>= fun _ =>
        Program.request (.retryLock repository)) s >>= fun x => pure x.2) =
      enqueueLock s now id repository := by
    intro s
    rw [alone_bind, alone_request, Statement.run, enqueueLock]
    cases Queue.enqueue s now id .lock repository 100 with
    | error e => rfl
    | ok s => rfl
  have hfreeze : Deadlines.alone clock now
      (Program.request (.newest repository) >>= fun submission =>
        Program.request (.setClosure repository submission) >>= fun _ =>
        match submission with
        | some submission => Program.request (.reviveTasks submission)
        | none => pure () : Program Statement Error Unit) s = .ok ((), freeze s now repository) := by
    rw [alone_bind, alone_request, freeze]
    simp only [Statement.run, pure_bind]
    rw [alone_bind, alone_request]
    cases s.newest repository with
    | none => rfl
    | some x => rfl
  unfold Call.alone close Call.ready Call.body
  rw [relock_self]
  cases s.fetchPinned repository with
  | error e => rfl
  | ok p =>
    simp only [pure_bind]
    change (Deadlines.alone clock now _ s >>= fun x => pure x.2) =
      (if decide (p.deadline < now) = true then enqueueLock (if (decide (p.deadline < now) &&
          !p.repository.closureDue) = true then freeze s now repository else s) now id repository
        else pure (if (decide (p.deadline < now) && !p.repository.closureDue) = true then
          freeze s now repository else s))
    rw [alone_bind]
    cases decide (p.deadline < now) with
    | false => rfl
    | true =>
      cases p.repository.closureDue with
      | true => exact hlock s
      | false =>
        have hthen := congrArg (fun y : Except Error (Unit × Store) => (y >>= fun x =>
          Deadlines.alone clock now (Program.request (.enqueueLock id repository) >>= fun _ =>
            Program.request (.retryLock repository)) x.2) >>= fun x => pure x.2) hfreeze
        exact hthen.trans (hlock (freeze s now repository))

end Alone

/-! ### Many transactions -/

inductive Phase
  | opened
  | waiting (snapshot : Store)
  | locked (view : Store) (closed : Option Time) (rest : Program Statement Error Unit)
  | ended

/-- A transaction, and when it began. -/
structure Transaction where
  call : Call
  began : Time
  phase : Phase

/-- What a transaction committed: a deadline, or when it closed the repository. -/
inductive Entry
  | extended (deadline : Time)
  | closed (time : Option Time)
  deriving DecidableEq

def Call.entry (closed : Option Time) : Call → Entry
  | extend deadline _ _ => .extended deadline
  | close _ => .closed closed

/-- The database with the transactions of its clients.  `db` is what was
committed, `log` by which transactions. -/
structure Sys where
  db : Store
  clock : Time
  transactions : List Transaction
  log : List Entry

/-- The next statement of a transaction: the locking `SELECT` begins with a
snapshot and ends with the lock, what follows reads and writes its own view. -/
inductive Move
  | select
  | grant
  | execute
  | commit
  | stop

inductive Op
  | start (call : Call)
  | move (i : Nat) (m : Move)

def Phase.isLocked : Phase → Bool
  | locked _ _ _ => true
  | _ => false

/-- Whether nobody has the lock of the repository. -/
def Sys.free (σ : Sys) : Bool := σ.transactions.all fun t => !t.phase.isLocked

section Steps
variable (repository : Uuid)

/-- The phase of a transaction after a move, if it can make it. -/
def Transaction.next (σ : Sys) (now : Time) (t : Transaction) : Move → Option Phase
  | .select =>
    match t.phase with
    | .opened => some (.waiting σ.db)
    | _ => none
  | .grant =>
    match t.phase, σ.free with
    | .waiting snapshot, true =>
      match relock snapshot σ.db repository with
      | .ok p => some (.locked σ.db none (t.call.body repository (timestamptz t.began) p))
      | .error _ => some .ended
    | _, _ => none
  | .execute =>
    match t.phase with
    | .locked view closed (.call r k) =>
      match r.run now (timestamptz t.began) view with
      | .ok (a, view) => some (.locked view (r.closes now closed) (k a))
      | .error _ => some .ended
    | .locked _ _ (.fail _) => some .ended
    | _ => none
  | .commit =>
    match t.phase with
    | .locked _ _ (.done _) => some .ended
    | _ => none
  | .stop => some .ended

/-- The state with a transaction in another phase. -/
def Sys.set (σ : Sys) (now : Time) (i : Nat) (t : Transaction) (phase : Phase) : Sys :=
  { σ with clock := now, transactions := σ.transactions.set i { t with phase } }

/-- The state after the commit of a transaction in this phase. -/
def Sys.commit (σ : Sys) (t : Transaction) : Phase → Sys
  | .locked view closed _ => { σ with db := view, log := σ.log ++ [t.call.entry closed] }
  | _ => σ

def Sys.next (σ : Sys) : Time × Op → Option Sys
  | (now, .start call) =>
    match call.ready with
    | .ok () =>
      if σ.clock ≤ now then
        some { σ with clock := now, transactions := σ.transactions ++ [⟨call, now, .opened⟩] }
      else none
    | .error _ => none
  | (now, .move i m) => do
    let t ← σ.transactions[i]?
    let phase ← t.next repository σ now m
    if σ.clock ≤ now then
      match m with
      | .commit => some ((σ.set now i t phase).commit t t.phase)
      | _ => some (σ.set now i t phase)
    else none

def Sys.Step (σ : Sys) (l : Time × Op) (τ : Sys) : Prop := σ.next repository l = some τ

end Steps

/-! ### The deadline of a repository -/

/-- The effective deadline of a repository. -/
def deadlineOf (repository : Uuid) (s : Store) : Option Time :=
  match s.fetchPinned repository with
  | .ok p => some p.deadline
  | .error _ => none

theorem timestamptz_mono {a b : Time} (h : a ≤ b) : timestamptz a ≤ timestamptz b := by
  unfold timestamptz
  refine Int.add_le_add_left (Int.mul_le_mul_of_nonneg_right ?_ (by decide)) _
  exact Int.tdiv_le_tdiv (by decide) (Int.sub_le_sub_right h _)

theorem timestamptz_timestamptz (t : Time) : timestamptz (timestamptz t) = timestamptz t := by
  unfold timestamptz
  dsimp only
  rw [add_sub_cancel_left, Int.mul_tdiv_cancel _ (by decide)]

section Frames
variable {repository : Uuid} {s s' : Store}

theorem deadlineOf_of_pinned {p : Store.Pinned} (h : s.fetchPinned repository = .ok p) :
    deadlineOf repository s = some p.deadline := by
  unfold deadlineOf
  rw [h]

theorem pinned_of_deadlineOf {c : Time} (h : deadlineOf repository s = some c) :
    ∃ p, s.fetchPinned repository = .ok p ∧ p.deadline = c := by
  unfold deadlineOf at h
  cases hp : s.fetchPinned repository with
  | ok p =>
    rw [hp, Option.some.injEq] at h
    exact ⟨p, rfl, h⟩
  | error e =>
    rw [hp] at h
    cases h

theorem deadlineOf_updateRepositories {p : StudentRepository → Bool}
    {f : StudentRepository → StudentRepository} (hid : ∀ r, (f r).id = r.id)
    (hdigest : ∀ r, (f r).revisionDigest = r.revisionDigest) :
    deadlineOf repository (s.updateRepositories p f) = deadlineOf repository s := by
  have hlookup : lookup StudentRepository.id repository (updateWhere p f s.repositories) =
      (lookup StudentRepository.id repository s.repositories).map
        fun r => if p r then f r else r := lookup_updateWhere fun r _ => hid r
  unfold deadlineOf Store.fetchPinned Store.fetchRepository Store.updateRepositories
  dsimp only
  rw [hlookup]
  cases lookup StudentRepository.id repository s.repositories with
  | none => rfl
  | some r =>
    have hrow : ((if p r then f r else r).id = r.id) ∧
        (if p r then f r else r).revisionDigest = r.revisionDigest := by
      split
      · exact ⟨hid r, hdigest r⟩
      · exact ⟨rfl, rfl⟩
    rw [Option.map_some, fetchOne, fetchOne]
    generalize (if p r then f r else r) = q at hrow ⊢
    simp only [bind, Except.bind, Store.fetchRevision, Store.effectiveDeadline, hrow.1, hrow.2]
    cases fetchOne Error.rowNotFound
      (lookup AssignmentRevision.digest r.revisionDigest s.revisions) with
    | ok v => rfl
    | error e => rfl

theorem lookup_upsertExtension_self (extensions : List Extension) (x : Extension) :
    lookup Extension.repositoryId x.repositoryId (upsertExtension extensions x) = some x := by
  unfold upsertExtension
  split
  · rename_i hany
    induction extensions with
    | nil => cases hany
    | cons y rest ih =>
      rw [updateWhere, List.map_cons, lookup, List.find?_cons]
      by_cases hy : y.repositoryId = x.repositoryId
      · rw [if_pos (decide_eq_true hy), decide_eq_true rfl]
      · rw [if_neg (by simpa using hy), decide_eq_false hy]
        rw [List.any_cons, decide_eq_false hy, Bool.false_or] at hany
        exact ih hany
  · rename_i hnone
    rw [Bool.not_eq_true, List.any_eq_false] at hnone
    exact lookup_concat_self fun y hy => by simpa using hnone y hy

theorem deadlineOf_upsert {x : Extension} {c : Time} (hx : x.repositoryId = repository)
    (h : deadlineOf repository s = some c) :
    deadlineOf repository { s with extensions := upsertExtension s.extensions x } =
      some x.deadline := by
  obtain ⟨p, hp, -⟩ := pinned_of_deadlineOf h
  unfold Store.fetchPinned at hp
  simp only [bind_ok, pure_ok] at hp
  obtain ⟨r, hr, v, hv, -⟩ := hp
  have hid : r.id = x.repositoryId := (Store.fetchRepository_ok hr).2.trans hx.symm
  refine deadlineOf_of_pinned (p := ⟨r, v, x.deadline⟩) ?_
  unfold Store.fetchPinned
  simp only [bind_ok, pure_ok]
  refine ⟨r, hr, v, hv, ?_⟩
  rw [Store.effectiveDeadline, hid, lookup_upsertExtension_self]
  rfl

/-- A statement that changes no deadline, and closes only if it may. -/
def Statement.Harmless (closes : Prop) {α : Type} : Statement α → Prop
  | .upsertExtension _ => False
  | .setClosure _ _ => closes
  | _ => True

theorem deadlineOf_run {closes : Prop} {α : Type} {r : Statement α} {a : α} {clock now : Time}
    (hr : r.Harmless closes) (h : r.run clock now s = .ok (a, s')) :
    deadlineOf repository s' = deadlineOf repository s := by
  cases r with
  | upsertExtension x => exact hr.elim
  | setClosure id submission =>
    cases h
    exact deadlineOf_updateRepositories (fun _ => rfl) fun _ => rfl
  | enqueueLock id subject =>
    simp only [Statement.run, bind_ok, pure_ok, Prod.mk.injEq] at h
    obtain ⟨_, henqueue, -, rfl⟩ := h
    unfold Queue.enqueue at henqueue
    split at henqueue
    · cases henqueue
      rfl
    · simp only [bind_ok, pure_ok] at henqueue
      obtain ⟨_, -, rfl⟩ := henqueue
      rfl
  | _ =>
    cases h
    rfl

end Frames

/-! ### What a transaction does -/

/-- What a transaction sees, and what is recorded of it. -/
structure World where
  view : Store
  closed : Option Time
  clock : Time

def serve (began : Time) {α : Type} (r : Statement α) (w : World) (a : α) (w' : World) : Prop :=
  r.run w.clock (timestamptz began) w.view = .ok (a, w'.view) ∧
    w'.closed = r.closes w.clock w.closed ∧ w'.clock = w.clock

/-- While a transaction has the lock only the time changes. -/
def rely (w w' : World) : Prop := w'.view = w.view ∧ w'.closed = w.closed ∧ w.clock ≤ w'.clock

/-- What a transaction leaves that started from the committed state `db`. -/
def Call.Done (repository : Uuid) (db : Store) (began : Time) (w : World) : Call → Prop
  | extend deadline _ _ =>
    (∃ c, deadlineOf repository db = some c ∧ c < deadline) ∧
      deadlineOf repository w.view = some (timestamptz deadline)
  | close _ =>
    deadlineOf repository w.view = deadlineOf repository db ∧ ∀ t, w.closed = some t →
      began ≤ t ∧ ∃ c, deadlineOf repository db = some c ∧ c < timestamptz began

/-- The deadline does not go back, and is one of a `timestamptz` column. -/
theorem Call.Done.deadline {repository : Uuid} {db : Store} {began : Time} {w : World} {call : Call}
    (h : call.Done repository db began w)
    (hstored : ∀ c, deadlineOf repository db = some c → timestamptz c = c) {c : Time}
    (hc : deadlineOf repository db = some c) :
    ∃ c', deadlineOf repository w.view = some c' ∧ c ≤ c' := by
  cases call with
  | extend deadline operator reason =>
    obtain ⟨⟨c', hc', hless⟩, hview⟩ := h
    rw [hc, Option.some.injEq] at hc'
    refine ⟨_, hview, ?_⟩
    rw [← hstored c hc]
    exact timestamptz_mono (by rw [hc']; exact le_of_lt hless)
  | close id =>
    exact ⟨c, h.1.trans hc, le_refl c⟩

theorem Call.Done.stored {repository : Uuid} {db : Store} {began : Time} {w : World} {call : Call}
    (h : call.Done repository db began w)
    (hstored : ∀ c, deadlineOf repository db = some c → timestamptz c = c) {c : Time}
    (hc : deadlineOf repository w.view = some c) : timestamptz c = c := by
  cases call with
  | extend deadline operator reason =>
    rw [h.2, Option.some.injEq] at hc
    rw [← hc, timestamptz_timestamptz]
  | close id => exact hstored c (h.1.symm.trans hc)

section Triples
variable {repository : Uuid} {db : Store} {began : Time} {p : Store.Pinned}

theorem extend_triple {deadline : Time} {operator reason : String}
    (hdb : ∃ c, deadlineOf repository db = some c)
    (hp : p.repository.closureDue = false → p.deadline < deadline →
      ∀ c, deadlineOf repository db = some c → c < deadline) :
    Program.Triple (serve began) rely (fun _ _ => True) (fun w => w.view = db)
      ((Call.extend deadline operator reason).body repository (timestamptz began) p)
      fun _ w => (Call.extend deadline operator reason).Done repository db began w := by
  obtain ⟨c, hc⟩ := hdb
  have hstable : ∀ P : Store → Prop, Program.Stable rely fun w => P w.view := by
    intro P w w' hrely hw
    rw [hrely.1]
    exact hw
  have hread : Program.Triple (serve began) rely (fun _ _ => True) (fun w => w.view = db)
      (Program.request .utcNow : Program Statement Error Time) fun _ w => w.view = db := by
    refine Program.Triple.request (fun _ => hstable (· = db)) fun w a w' hw hserve => ?_
    have hview := congrArg Prod.snd (Except.ok.inj hserve.1)
    exact ⟨trivial, hview.symm.trans hw⟩
  refine hread.bind fun clock => Program.Triple.bind_lift fun _ hcheck => ?_
  simp only [check_ok, Bool.and_eq_true, Bool.not_eq_true', decide_eq_true_eq] at hcheck
  obtain ⟨⟨hopen, hless⟩, -⟩ := hcheck
  have hlater : c < deadline := hp hopen hless c hc
  have hupsert : Program.Triple (serve began) rely (fun _ _ => True) (fun w => w.view = db)
      (Program.request (.upsertExtension ⟨repository, timestamptz deadline, reason⟩) :
        Program Statement Error Unit)
      fun _ w => deadlineOf repository w.view = some (timestamptz deadline) := by
    refine Program.Triple.request (fun _ => hstable fun s =>
      deadlineOf repository s = some (timestamptz deadline)) fun w a w' hw hserve => ?_
    have hview := congrArg Prod.snd (Except.ok.inj hserve.1)
    dsimp only at hview
    rw [← hview, hw]
    exact ⟨trivial, deadlineOf_upsert rfl hc⟩
  refine hupsert.bind fun _ => Program.Triple.request (fun _ => ?_) fun w a w' hw hserve => ?_
  · exact hstable fun s => (∃ c, deadlineOf repository db = some c ∧ c < deadline) ∧
      deadlineOf repository s = some (timestamptz deadline)
  · have hview := congrArg Prod.snd (Except.ok.inj hserve.1)
    dsimp only at hview
    refine ⟨trivial, ⟨c, hc, hlater⟩, ?_⟩
    rw [← hview]
    exact hw

theorem close_triple {id : Uuid}
    (hp : p.repository.closureDue = false → p.deadline < timestamptz began →
      ∃ c, deadlineOf repository db = some c ∧ c < timestamptz began) :
    Program.Triple (serve began) rely (fun _ _ => True)
      (fun w => w.view = db ∧ w.closed = none ∧ began ≤ w.clock)
      ((Call.close id).body repository (timestamptz began) p)
      fun _ w => (Call.close id).Done repository db began w := by
  let closes : Prop := ∃ c, deadlineOf repository db = some c ∧ c < timestamptz began
  have hcalls : Program.Calls (fun {_} r => Statement.Harmless closes r)
      ((Call.close id).body repository (timestamptz began) p) := by
    have hclose : ∀ b : Bool, (b = true → closes) → Program.Calls
        (fun {_} r => Statement.Harmless closes r)
        (Program.when b (Program.request (.newest repository) >>= fun submission =>
          Program.request (.setClosure repository submission) >>= fun _ =>
          match submission with
          | some submission => Program.request (.reviveTasks submission)
          | none => pure () : Program Statement Error Unit)) := by
      intro b hb
      cases b with
      | false => trivial
      | true =>
        refine Program.Calls.bind (Program.Calls.request trivial) fun submission => ?_
        refine Program.Calls.bind (Program.Calls.request (hb rfl)) fun _ => ?_
        cases submission with
        | some submission => exact Program.Calls.request trivial
        | none => exact Program.Calls.pure ()
    refine Program.Calls.bind (hclose _ fun hdue => ?_) fun _ => ?_
    · rw [Bool.and_eq_true, decide_eq_true_eq, Bool.not_eq_true'] at hdue
      exact hp hdue.2 hdue.1
    · exact Program.Calls.when (Program.Calls.bind (Program.Calls.request trivial) fun _ =>
        Program.Calls.request trivial)
  let kept : World → Prop := fun w => deadlineOf repository w.view = deadlineOf repository db ∧
    (∀ t, w.closed = some t → began ≤ t ∧ closes) ∧ began ≤ w.clock
  have hstart : ∀ w : World, w.view = db ∧ w.closed = none ∧ began ≤ w.clock → kept w := by
    rintro w ⟨hview, hclosed, hclock⟩
    refine ⟨by rw [hview], fun t ht => ?_, hclock⟩
    rw [hclosed] at ht
    cases ht
  refine Program.Triple.mono hstart (fun _ w hw => ⟨hw.1, hw.2.1⟩)
    (Program.Triple.of_calls hcalls ?_ ?_)
  · rintro w w' ⟨hview, hclosed, hclock⟩ ⟨hdeadline, htimes, hbegan⟩
    refine ⟨by rw [hview]; exact hdeadline, fun t ht => ?_, hbegan.trans hclock⟩
    rw [hclosed] at ht
    exact htimes t ht
  · rintro β r w a w' hr ⟨hdeadline, htimes, hbegan⟩ ⟨hrun, hclosed, hclock⟩
    refine ⟨trivial, (deadlineOf_run hr hrun).trans hdeadline, fun t ht => ?_, hclock ▸ hbegan⟩
    cases r with
    | setClosure _ _ =>
      rw [hclosed] at ht
      cases ht
      exact ⟨hbegan, hr⟩
    | _ =>
      rw [hclosed] at ht
      exact htimes t ht

end Triples

/-! ### Along a run -/

/-- What is known of a transaction in its phase. -/
def Transaction.Sound (repository : Uuid) (db : Store) (clock : Time) (t : Transaction) : Prop :=
  match t.phase with
  | .opened => True
  | .waiting snapshot => (∃ c, deadlineOf repository snapshot = some c) →
      ∃ c, deadlineOf repository db = some c
  | .locked view closed rest => Program.Triple (serve t.began) rely (fun _ _ => True)
      (fun w => w.view = view ∧ w.closed = closed ∧ clock ≤ w.clock) rest
      fun _ w => t.call.Done repository db t.began w
  | .ended => True

/-- Time passes. -/
theorem Transaction.Sound.mono {repository : Uuid} {db : Store} {clock now : Time} {t : Transaction}
    (h : t.Sound repository db clock) (hclock : clock ≤ now) : t.Sound repository db now := by
  unfold Transaction.Sound at h ⊢
  split at h
  · trivial
  · exact h
  · exact h.mono (fun w ⟨hview, hclosed, hw⟩ => ⟨hview, hclosed, hclock.trans hw⟩) fun _ _ hQ => hQ
  · trivial

/-- A closing comes after the deadlines that were committed before it. -/
def Honoured (log : List Entry) : Prop :=
  log.Pairwise fun a b => ∀ deadline time,
    a = .extended deadline → b = .closed (some time) → deadline ≤ time

namespace Sys

/-- Nobody began yet, and the deadlines are those of a `timestamptz` column. -/
structure Initial (repository : Uuid) (σ : Sys) : Prop where
  transactions : σ.transactions = []
  log : σ.log = []
  stored : ∀ c, deadlineOf repository σ.db = some c → timestamptz c = c

structure Inv (repository : Uuid) (σ : Sys) : Prop where
  began : ∀ t ∈ σ.transactions, t.began ≤ σ.clock
  sound : ∀ t ∈ σ.transactions, t.Sound repository σ.db σ.clock
  exclusive : ∀ (i j : Nat) (t u : Transaction), σ.transactions[i]? = some t → σ.transactions[j]? = some u →
    t.phase.isLocked = true → u.phase.isLocked = true → i = j
  stored : ∀ c, deadlineOf repository σ.db = some c → timestamptz c = c
  logged : ∀ deadline, .extended deadline ∈ σ.log →
    ∃ c, deadlineOf repository σ.db = some c ∧ timestamptz deadline ≤ c
  honoured : Honoured σ.log

/-- Whether a transaction that is granted the lock passes its check on the deadline
of its snapshot only if it also passes on the committed one. -/
def timely (repository : Uuid) (σ : Sys) : Op → Bool
  | .move i .grant =>
    match σ.transactions[i]? with
    | some ⟨call, began, .waiting snapshot⟩ =>
      match relock snapshot σ.db repository, deadlineOf repository σ.db with
      | .ok p, some c => p.repository.closureDue || !call.passes (timestamptz began) p.deadline ||
          call.passes (timestamptz began) c
      | _, _ => true
    | _ => true
  | _ => true

section Steps
variable {repository : Uuid} {σ τ : Sys} {now : Time} {i : Nat} {t : Transaction} {m : Move}
  {phase : Phase}

/-- The transactions after one of them was set. -/
theorem mem_set {u : Transaction} (h : u ∈ (σ.set now i t phase).transactions) :
    u ∈ σ.transactions ∨ u = { t with phase } :=
  (List.mem_or_eq_of_mem_set h)

theorem Initial.inv (h : σ.Initial repository) : σ.Inv repository where
  began := by
    rw [h.transactions]
    intro t ht
    cases ht
  sound := by
    rw [h.transactions]
    intro t ht
    cases ht
  exclusive := by
    rw [h.transactions]
    intro i j t u ht
    cases ht
  stored := h.stored
  logged := by
    rw [h.log]
    intro deadline hd
    cases hd
  honoured := by
    rw [h.log]
    exact List.Pairwise.nil

/-- What `timely` says of a transaction that is granted the lock. -/
theorem passes_of_timely (h : σ.timely repository (.move i .grant) = true)
    (ht : σ.transactions[i]? = some t) {snapshot : Store} (hphase : t.phase = .waiting snapshot)
    {p : Store.Pinned} (hp : relock snapshot σ.db repository = .ok p) {c : Time}
    (hc : deadlineOf repository σ.db = some c) (hopen : p.repository.closureDue = false)
    (hpasses : t.call.passes (timestamptz t.began) p.deadline = true) :
    t.call.passes (timestamptz t.began) c = true := by
  obtain ⟨call, began, phase⟩ := t
  cases hphase
  dsimp only [timely] at h hpasses ⊢
  rw [ht] at h
  dsimp only at h
  rw [hp, hc] at h
  dsimp only at h
  rw [hopen, hpasses] at h
  simpa using h

/-- A snapshot that was locked has a deadline. -/
theorem deadlineOf_of_relock {snapshot db : Store} {p : Store.Pinned}
    (h : relock snapshot db repository = .ok p) :
    deadlineOf repository snapshot = some p.deadline := by
  unfold relock at h
  simp only [bind_ok, pure_ok] at h
  obtain ⟨q, hq, _, _, _, _, rfl⟩ := h
  have hdeadline := deadlineOf_of_pinned hq
  exact hdeadline

/-- **A move that is not a commit** keeps what is known of its transaction. -/
theorem next_sound (hinv : σ.Inv repository) (ht : σ.transactions[i]? = some t)
    (hclock : σ.clock ≤ now) (htimely : σ.timely repository (.move i m) = true)
    (h : t.next repository σ now m = some phase) :
    ({ t with phase } : Transaction).Sound repository σ.db now := by
  have hsound := (hinv.sound t (List.mem_of_getElem? ht)).mono hclock
  have hbegan := (hinv.began t (List.mem_of_getElem? ht)).trans hclock
  cases m with
  | select =>
    dsimp only [Transaction.next] at h
    split at h
    · cases h
      exact id
    · cases h
  | grant =>
    dsimp only [Transaction.next] at h
    split at h
    · rename_i snapshot hphase hfree
      split at h
      · rename_i p hp
        cases h
        unfold Transaction.Sound at hsound
        rw [hphase] at hsound
        obtain ⟨c, hc⟩ := hsound ⟨_, deadlineOf_of_relock hp⟩
        have hpass : p.repository.closureDue = false →
            t.call.passes (timestamptz t.began) p.deadline = true →
            t.call.passes (timestamptz t.began) c = true :=
          passes_of_timely htimely ht hphase hp hc
        dsimp only [Transaction.Sound]
        cases hcall : t.call with
        | extend deadline operator reason =>
          rw [hcall] at hpass
          have hlater : p.repository.closureDue = false → p.deadline < deadline →
              ∀ c', deadlineOf repository σ.db = some c' → c' < deadline := by
            intro hopen hless c' hc'
            rw [hc, Option.some.injEq] at hc'
            rw [← hc']
            exact of_decide_eq_true (hpass hopen (decide_eq_true hless))
          exact (extend_triple ⟨c, hc⟩ hlater).mono (fun w hw => hw.1) fun _ _ hQ => hQ
        | close id =>
          rw [hcall] at hpass
          have hdue : p.repository.closureDue = false → p.deadline < timestamptz t.began →
              ∃ c, deadlineOf repository σ.db = some c ∧ c < timestamptz t.began :=
            fun hopen hread => ⟨c, hc, of_decide_eq_true (hpass hopen (decide_eq_true hread))⟩
          exact (close_triple hdue).mono (fun w hw => ⟨hw.1, hw.2.1, hbegan.trans hw.2.2⟩)
            fun _ _ hQ => hQ
      · cases h
        trivial
    · cases h
  | execute =>
    dsimp only [Transaction.next] at h
    split at h
    · rename_i view closed β r k hphase
      unfold Transaction.Sound at hsound
      rw [hphase] at hsound
      obtain ⟨R, hstable, hserve, hrest⟩ := hsound
      split at h
      · rename_i a view' hrun
        cases h
        obtain ⟨-, hR⟩ := hserve ⟨view, closed, now⟩ a ⟨view', r.closes now closed, now⟩
          ⟨rfl, rfl, le_refl _⟩ ⟨hrun, rfl, rfl⟩
        refine (hrest a).mono (fun w hw => ?_) fun _ _ hQ => hQ
        exact hstable a ⟨view', r.closes now closed, now⟩ w hw hR
      · cases h
        trivial
    · cases h
      trivial
    · cases h
  | commit =>
    dsimp only [Transaction.next] at h
    split at h
    · cases h
      trivial
    · cases h
  | stop =>
    cases h
    trivial

theorem next_locked (h : t.next repository σ now m = some phase) (hlocked : phase.isLocked = true) :
    t.phase.isLocked = true ∨ σ.free = true := by
  cases m with
  | select =>
    dsimp only [Transaction.next] at h
    split at h
    · cases h
      cases hlocked
    · cases h
  | grant =>
    dsimp only [Transaction.next] at h
    split at h
    · rename_i hfree
      exact Or.inr hfree
    · cases h
  | execute =>
    dsimp only [Transaction.next] at h
    split at h
    · rename_i hphase
      exact Or.inl (by rw [hphase]; rfl)
    · cases h
      cases hlocked
    · cases h
  | commit =>
    dsimp only [Transaction.next] at h
    split at h
    · cases h
      cases hlocked
    · cases h
  | stop =>
    cases h
    cases hlocked

theorem not_locked_of_free (h : σ.free = true) (ht : t ∈ σ.transactions) :
    t.phase.isLocked = false := by
  unfold free at h
  rw [List.all_eq_true] at h
  simpa using h t ht

/-- A transaction of another index is the one it was. -/
theorem getElem?_set {j : Nat} {u : Transaction}
    (h : (σ.set now i t phase).transactions[j]? = some u) :
    (j = i ∧ u = { t with phase }) ∨ (j ≠ i ∧ σ.transactions[j]? = some u) := by
  rw [set, List.getElem?_set] at h
  split at h
  · rename_i hij
    split at h
    · cases h
      exact Or.inl ⟨hij.symm, rfl⟩
    · cases h
  · rename_i hij
    exact Or.inr ⟨fun hji => hij hji.symm, h⟩

/-- **A move keeps the invariant**, before what it commits. -/
theorem Inv.set (hinv : σ.Inv repository) (ht : σ.transactions[i]? = some t)
    (hclock : σ.clock ≤ now) (htimely : σ.timely repository (.move i m) = true)
    (h : t.next repository σ now m = some phase) : (σ.set now i t phase).Inv repository where
  began := by
    intro u hu
    rcases mem_set hu with hold | rfl
    · exact (hinv.began u hold).trans hclock
    · exact (hinv.began t (List.mem_of_getElem? ht)).trans hclock
  sound := by
    intro u hu
    rcases mem_set hu with hold | rfl
    · exact (hinv.sound u hold).mono hclock
    · have hnew := next_sound hinv ht hclock htimely h
      exact hnew
  exclusive := by
    -- whoever gets the lock finds it free
    have hother : ∀ (j : Nat) (u : Transaction), j ≠ i → σ.transactions[j]? = some u →
        phase.isLocked = true → u.phase.isLocked = false := by
      intro j u hj hu hlocked
      rcases next_locked h hlocked with hheld | hfree
      · by_contra hu'
        exact hj (hinv.exclusive j i u t hu ht (by simpa using hu') hheld)
      · exact not_locked_of_free hfree (List.mem_of_getElem? hu)
    intro j k u v hu hv hul hvl
    rcases getElem?_set hu with ⟨hji, hut⟩ | ⟨hji, hu'⟩
    · rcases getElem?_set hv with ⟨hki, -⟩ | ⟨hki, hv'⟩
      · rw [hji, hki]
      · rw [hut] at hul
        rw [hother k v hki hv' hul] at hvl
        cases hvl
    · rcases getElem?_set hv with ⟨-, hvt⟩ | ⟨-, hv'⟩
      · rw [hvt] at hvl
        rw [hother j u hji hu' hvl] at hul
        cases hul
      · exact hinv.exclusive j k u v hu' hv' hul hvl
  stored := hinv.stored
  logged := hinv.logged
  honoured := hinv.honoured

/-- **A commit** keeps the invariant and the deadline. -/
theorem Inv.commit (hinv : σ.Inv repository) (ht : σ.transactions[i]? = some t)
    (hclock : σ.clock ≤ now) (h : t.next repository σ now .commit = some phase) :
    ((σ.set now i t phase).commit t t.phase).Inv repository ∧
      ∀ c, deadlineOf repository σ.db = some c →
        ∃ c', deadlineOf repository ((σ.set now i t phase).commit t t.phase).db = some c' ∧
          c ≤ c' := by
  have hset := hinv.set ht hclock rfl h
  dsimp only [Transaction.next] at h
  split at h
  · rename_i view closed done hphase
    cases h
    have hdone : t.call.Done repository σ.db t.began ⟨view, closed, now⟩ := by
      have hsound := hinv.sound t (List.mem_of_getElem? ht)
      unfold Transaction.Sound at hsound
      rw [hphase] at hsound
      exact hsound ⟨view, closed, now⟩ ⟨rfl, rfl, hclock⟩
    have hlater : ∀ c, deadlineOf repository σ.db = some c →
        ∃ c', deadlineOf repository view = some c' ∧ c ≤ c' :=
      fun c hc => hdone.deadline hinv.stored hc
    have hlocked : t.phase.isLocked = true := by
      rw [hphase]
      rfl
    rw [hphase]
    refine ⟨{ began := hset.began, exclusive := hset.exclusive, sound := ?_, stored := ?_,
              logged := ?_, honoured := ?_ }, hlater⟩
    · intro u hu
      have hunlocked : u.phase.isLocked = false := by
        obtain ⟨j, hj⟩ := List.mem_iff_getElem?.mp hu
        rcases @getElem?_set σ now i t .ended j u hj with ⟨-, hut⟩ | ⟨hji, hj'⟩
        · rw [hut]
          rfl
        · by_contra hul
          exact hji (hinv.exclusive j i u t hj' ht (by simpa using hul) hlocked)
      have hsound := hset.sound u hu
      unfold Transaction.Sound at hsound ⊢
      split
      · trivial
      · rename_i snapshot hwaiting
        rw [hwaiting] at hsound
        intro hsnapshot
        obtain ⟨c, hc⟩ := hsound hsnapshot
        obtain ⟨c', hc', -⟩ := hlater c hc
        exact ⟨c', hc'⟩
      · rename_i hul
        rw [hul] at hunlocked
        cases hunlocked
      · trivial
    · exact fun c hc => hdone.stored hinv.stored hc
    · intro deadline hmem
      rcases List.mem_append.mp hmem with hold | hnew
      · obtain ⟨c, hc, hle⟩ := hinv.logged deadline hold
        obtain ⟨c', hc', hle'⟩ := hlater c hc
        exact ⟨c', hc', hle.trans hle'⟩
      · rw [List.mem_singleton] at hnew
        cases hcall : t.call with
        | extend d operator reason =>
          rw [hcall] at hnew hdone
          cases hnew
          exact ⟨_, hdone.2, le_refl _⟩
        | close id =>
          rw [hcall] at hnew
          cases hnew
    · refine List.pairwise_append.mpr ⟨hinv.honoured, List.pairwise_singleton _ _, ?_⟩
      intro a ha b hb deadline time haD hbt
      rw [List.mem_singleton] at hb
      rw [haD] at ha
      rw [hb] at hbt
      cases hcall : t.call with
      | extend d operator reason =>
        rw [hcall] at hbt
        cases hbt
      | close id =>
        rw [hcall] at hbt hdone
        cases hbt
        obtain ⟨hbegan, c, hc, hdue⟩ := hdone.2 time rfl
        obtain ⟨c', hc', hle⟩ := hinv.logged deadline ha
        rw [hc, Option.some.injEq] at hc'
        by_contra hlate
        have hstart : t.began ≤ deadline := hbegan.trans (le_of_lt (not_le.mp hlate))
        have hback : timestamptz t.began ≤ c := by
          rw [hc']
          exact (timestamptz_mono hstart).trans hle
        exact absurd hdue (not_lt.mpr hback)
  · cases h

theorem Inv.start (hinv : σ.Inv repository) (hclock : σ.clock ≤ now) (call : Call) :
    Inv repository { σ with clock := now,
                            transactions := σ.transactions ++ [⟨call, now, .opened⟩] } where
  began := by
    intro u hu
    rcases List.mem_append.mp hu with hold | hnew
    · exact (hinv.began u hold).trans hclock
    · rw [List.mem_singleton.mp hnew]
  sound := by
    intro u hu
    rcases List.mem_append.mp hu with hold | hnew
    · exact (hinv.sound u hold).mono hclock
    · rw [List.mem_singleton.mp hnew]
      trivial
  exclusive := by
    have hold : ∀ (j : Nat) (u : Transaction), (σ.transactions ++ [⟨call, now, .opened⟩])[j]? =
        some u → u.phase.isLocked = true → σ.transactions[j]? = some u := by
      intro j u hu hlocked
      rw [List.getElem?_append] at hu
      split at hu
      · exact hu
      · have hmem := List.mem_singleton.mp (List.mem_of_getElem? hu)
        rw [hmem] at hlocked
        cases hlocked
    intro j k u v hu hv hul hvl
    exact hinv.exclusive j k u v (hold j u hu hul) (hold k v hv hvl) hul hvl
  stored := hinv.stored
  logged := hinv.logged
  honoured := hinv.honoured

/-- **A step** keeps the invariant and the deadline, if it is timely. -/
theorem Step.inv {l : Time × Op} (hinv : σ.Inv repository) (htimely : σ.timely repository l.2 = true)
    (h : Step repository σ l τ) : τ.Inv repository ∧ ∀ c, deadlineOf repository σ.db = some c →
      ∃ c', deadlineOf repository τ.db = some c' ∧ c ≤ c' := by
  obtain ⟨now, op⟩ := l
  have hsame : ∀ c, deadlineOf repository σ.db = some c →
      ∃ c', deadlineOf repository σ.db = some c' ∧ c ≤ c' := fun c hc => ⟨c, hc, le_refl c⟩
  unfold Step at h
  cases op with
  | start call =>
    dsimp only [next] at h
    split at h
    · split at h
      · rename_i hclock
        cases h
        exact ⟨hinv.start hclock call, hsame⟩
      · cases h
    · cases h
  | move i m =>
    dsimp only [next] at h
    simp only [Option.bind_eq_bind, Option.bind_eq_some_iff] at h
    obtain ⟨t, ht, phase, hnext, h⟩ := h
    split at h
    · rename_i hclock
      split at h
      · cases h
        exact hinv.commit ht hclock hnext
      · cases h
        exact ⟨hinv.set ht hclock htimely hnext, hsame⟩
    · cases h

/-- The deadline never goes back along a run. -/
def NeverEarlier (repository : Uuid) (history : List (Sys × (Time × Op))) (τ : Sys) : Prop :=
  ∀ p ∈ history, ∀ c, deadlineOf repository p.1.db = some c →
    ∃ c', deadlineOf repository τ.db = some c' ∧ c ≤ c'

/-- **Committed extensions are honoured** where every transaction that is granted
the lock is timely. -/
theorem extensions_honoured {history : List (Sys × (Time × Op))} (h0 : σ.Initial repository)
    (hrun : Transition.Run (Step repository) σ history τ)
    (htimely : ∀ p ∈ history, p.1.timely repository p.2.2 = true) :
    NeverEarlier repository history τ ∧ Honoured τ.log := by
  have hall : NeverEarlier repository history τ ∧ τ.Inv repository := by
    induction hrun with
    | nil => exact ⟨fun p hp => (by cases hp), h0.inv⟩
    | @snoc taken t u l hr hst ih =>
      obtain ⟨hbefore, hinv⟩ := ih fun p hp => htimely p (List.mem_append_left _ hp)
      have hlast := htimely (t, l) (List.mem_append_right _ (List.mem_singleton_self _))
      obtain ⟨hinv', hlater⟩ := Step.inv hinv hlast hst
      refine ⟨fun p hp c hc => ?_, hinv'⟩
      rcases List.mem_append.mp hp with hold | hnew
      · obtain ⟨c', hc', hle⟩ := hbefore p hold c hc
        obtain ⟨c'', hc'', hle'⟩ := hlater c' hc'
        exact ⟨c'', hc'', hle.trans hle'⟩
      · rw [List.mem_singleton.mp hnew] at hc
        exact hlater c hc
  exact ⟨hall.1, hall.2.honoured⟩

end Steps

end Sys

end Deadlines

/-! ### Two extensions and a closing -/

namespace Sample

open Deadlines

/-- The deployment of the small exercise, with the transactions of its repository. -/
def unextended (n : Int) : Deadlines.Sys := ⟨start.store, second n, [], []⟩

def moves (n : Int) (i : Nat) (ms : List Move) : List (Time × Deadlines.Op) :=
  ms.map fun m => (second n, .move i m)

def extending (n : Int) : Call := .extend (second n) "operator" "illness"

/-- The statements of an extension from the lock on. -/
def extensionMoves : List Move := [.grant, .execute, .execute, .execute, .commit]

/-- The statements of a closing without submissions from the lock on. -/
def closingMoves : List Move := [.grant, .execute, .execute, .execute, .execute, .commit]

/-- Three transactions take their snapshot after the deadline, and the first gets the
lock. -/
def overtaking : List (Time × Deadlines.Op) :=
  [(second 11, .start (extending 30)), (second 11, .start (extending 20)),
    (second 11, .start (.close 40))] ++ moves 11 0 [.select] ++ moves 11 1 [.select] ++
    moves 11 2 [.select] ++ moves 11 0 extensionMoves

/-- The other two get it one after the other. -/
def overtaken : List (Time × Deadlines.Op) := moves 11 1 extensionMoves ++ moves 11 2 closingMoves

theorem unextended_initial (n : Int) : (unextended n).Initial 3 where
  transactions := rfl
  log := rfl
  stored := by
    have hdeadline : deadlineOf 3 start.store = some (second 10) := by decide +kernel
    intro c hc
    rw [show (unextended n).db = start.store from rfl, hdeadline, Option.some.injEq] at hc
    rw [← hc]
    decide

/-- A committed extension is lost: to another extension, and to a closing. -/
theorem extensions_lost :
    (¬∀ (repository : Uuid) (σ τ : Deadlines.Sys)
      (history : List (Deadlines.Sys × (Time × Deadlines.Op))), σ.Initial repository →
      Transition.Run (Deadlines.Sys.Step repository) σ history τ →
      Deadlines.Sys.NeverEarlier repository history τ) ∧
    ¬∀ (repository : Uuid) (σ τ : Deadlines.Sys)
      (history : List (Deadlines.Sys × (Time × Deadlines.Op))), σ.Initial repository →
      Transition.Run (Deadlines.Sys.Step repository) σ history τ → Honoured τ.log := by
  have key : ((Transition.replay (Deadlines.Sys.next 3) (unextended 11) overtaking).any fun μ =>
      deadlineOf 3 μ.db = some (second 30) &&
        (Transition.replay (Deadlines.Sys.next 3) μ overtaken).any fun τ =>
          deadlineOf 3 τ.db = some (second 20) && τ.log = [.extended (second 30),
            .extended (second 20), .closed (some (second 11))]) = true := by
    decide +kernel
  simp only [Option.any_eq_true, Bool.and_eq_true, decide_eq_true_eq] at key
  obtain ⟨μ, hμ, hthirty, τ, hτ, htwenty, hlog⟩ := key
  have hfirst : Transition.Run (Deadlines.Sys.Step 3) (unextended 11) _ μ :=
    Transition.run_of_replay (fun _ _ _ h => h) hμ
  have hthen : Transition.Run (Deadlines.Sys.Step 3) μ _ τ :=
    Transition.run_of_replay (fun _ _ _ h => h) hτ
  have hrun := hfirst.trans hthen
  constructor
  · intro h
    have hnever := h 3 (unextended 11) τ _ (unextended_initial 11) hrun
    obtain ⟨c, hc, hle⟩ := hnever _ (List.mem_append_right _ List.mem_cons_self) _ hthirty
    rw [htwenty, Option.some.injEq] at hc
    rw [← hc] at hle
    exact absurd hle (by decide)
  · intro h
    have hhonoured := h 3 (unextended 11) τ _ (unextended_initial 11) hrun
    rw [hlog] at hhonoured
    have hclosed := (List.pairwise_cons.mp hhonoured).1 (.closed (some (second 11)))
      (List.mem_cons_of_mem _ List.mem_cons_self)
    exact absurd (hclosed _ _ rfl rfl) (by decide)

/-- An extension before the deadline, another one, and a closing after both. -/
def waiting : List (Time × Deadlines.Op) :=
  [(second 5, .start (extending 20)), (second 5, .start (extending 30)),
    (second 5, .start (.close 40))] ++ moves 6 0 (.select :: extensionMoves) ++
    moves 7 1 (.select :: extensionMoves) ++ [(second 31, .start (.close 41))] ++
    moves 31 3 (.select :: closingMoves)

theorem extensions_honoured_waiting : ∃ τ,
    Transition.replay (Deadlines.Sys.next 3) (unextended 5) waiting = some τ ∧
    τ.log = [.extended (second 20), .extended (second 30), .closed (some (second 31))] ∧
    Deadlines.Sys.NeverEarlier 3 (Transition.traceOf (Deadlines.Sys.next 3) (unextended 5) waiting) τ ∧
    Honoured τ.log := by
  have key : ((Transition.replay (Deadlines.Sys.next 3) (unextended 5) waiting).any fun τ =>
      τ.log = [.extended (second 20), .extended (second 30), .closed (some (second 31))]) &&
      (Transition.traceOf (Deadlines.Sys.next 3) (unextended 5) waiting).all fun p =>
        p.1.timely 3 p.2.2 := by
    decide +kernel
  rw [Bool.and_eq_true, Option.any_eq_true, List.all_eq_true] at key
  obtain ⟨⟨τ, hτ, hlog⟩, htimely⟩ := key
  have hrun : Transition.Run (Deadlines.Sys.Step 3) (unextended 5) _ τ :=
    Transition.run_of_replay (fun _ _ _ h => h) hτ
  obtain ⟨hnever, hhonoured⟩ :=
    Deadlines.Sys.extensions_honoured (unextended_initial 5) hrun htimely
  exact ⟨τ, hτ, of_decide_eq_true hlog, hnever, hhonoured⟩

end Sample

end Grading

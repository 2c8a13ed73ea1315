import SrgGrading.Library.Transition
import SrgGrading.Admin.Operations

/-!
# The administrator portal as a system

Browsers submit and confirm operations, administrators are granted and revoked,
and a worker validates and applies.  The worker holds a session lock on a
connection of its own; it may stop between any two of its statements, and it may
lose the connection, and with it the lock, before it notices.
-/

open Relational

namespace Grading.Admin

/-! ### The worker -/

/-- The operation a worker took, as it read it. -/
structure Job where
  id : Uuid
  actor : Int
  input : Input
  phase : Phase
  plan : Option Plan
  deriving DecidableEq

/-- How far `process` got. -/
inductive Stage
  | selected
  | running
  | failing (text : String)
  deriving DecidableEq

/-- A worker process: whether its connection still holds the lock, and its job. -/
structure Dispatcher where
  guarded : Bool
  work : Option (Job × Stage)

/-- `process` up to `prepare` or `apply`. -/
def authorize (p : Portal) (job : Job) : Stage :=
  if !p.admins.contains job.actor then
    .failing "Administrator access was revoked; the operation was not executed."
  else
    match job.phase, job.plan with
    | .validating, _ => .running
    | .applying, none => .failing "Missing validated plan."
    | .applying, some plan =>
      if plan.input = job.input then .running else .failing "Validated input changed."

/-- The job of a worker that takes `o`. -/
def jobOf (o : Operation) : Job :=
  { id := o.id, actor := o.actor, input := o.input
    phase := if o.state = .queued then .applying else .validating, plan := o.plan }

/-- Who applies an operation. -/
def Job.operator (job : Job) : String :=
  "github:" ++ toString job.actor ++ "; admin-operation:" ++ String.ofList job.id.text

/-! ### The system -/

structure Sys where
  portal : Portal
  workers : List Dispatcher
  clock : Time

/-- A step, with its arguments and what the outside world answers. -/
inductive Op
  | submit (fresh : Uuid) (actor : Int) (csrf : String) (input : Input)
  | confirm (id : Uuid) (actor : Int) (csrf token : String)
  | adminChange (id : Int) (grant recovery : Bool) (operator reason : String)
  /-- A worker process starts, takes the lock and recovers. -/
  | start
  | loseGuard (worker : Nat)
  | stop (worker : Nat)
  | expire (worker : Nat)
  | select (worker : Nat) (locked : List Uuid)
  | authorize (worker : Nat)
  /-- The administrator is looked up again while the job runs. -/
  | recheck (worker : Nat)
  /-- `prepare` returned, with what it resolved and its report, or failed. -/
  | prepared (worker : Nat) (result : Except String (String × String)) (token : String)
  | progress (worker : Nat) (text : String)
  /-- `apply` returned, with its result and a download, or failed. -/
  | applied (worker : Nat) (result : Except String (String × Option String))
  /-- The failure is recorded, with its diagnostics. -/
  | recordFailure (worker : Nat) (diagnostic : String)

namespace Sys

/-- A worker is at work on `job`. -/
def jobAt (σ : Sys) (worker : Nat) : Option (Job × Stage) :=
  σ.workers[worker]?.bind Dispatcher.work

/-- A worker between two operations. -/
def idle (σ : Sys) (worker : Nat) : Bool :=
  σ.workers[worker]?.any fun w => w.work.isNone

/-- The worker with other work. -/
def setWork (σ : Sys) (worker : Nat) (work : Option (Job × Stage)) : Sys :=
  { σ with workers := σ.workers.modify worker fun w => { w with work } }

variable [Sha256]

/-- `process` after `prepare`. -/
def finishPrepare (σ : Sys) (now : Time) (worker : Nat) (job : Job) (token : String) :
    Except String (String × String) → Sys
  | .ok (prepared, report) =>
    { σ.setWork worker none with
      portal := σ.portal.storePlan now job.id ⟨job.input, prepared⟩ report token }
  | .error text => σ.setWork worker (some (job, .failing text))

/-- `process` after `apply`. -/
def finishApply (σ : Sys) (worker : Nat) (job : Job) :
    Except String (String × Option String) → Sys
  | .ok (result, download) =>
    { σ.setWork worker none with
      portal := σ.portal.succeed job.operator job.id result download }
  | .error text => σ.setWork worker (some (job, .failing text))

/-- The system after a step. -/
def perform (σ : Sys) (now : Time) : Op → Sys
  | .submit fresh actor csrf input =>
    match σ.portal.submit now fresh actor csrf input with
    | .ok (portal, _) => { σ with portal }
    | .error _ => σ
  | .confirm id actor csrf token => { σ with portal := (σ.portal.confirm now id actor csrf token).1 }
  | .adminChange id grant recovery operator reason =>
    match σ.portal.adminChange id grant recovery operator reason with
    | .ok portal => { σ with portal }
    | .error _ => σ
  | .start =>
    if σ.workers.any Dispatcher.guarded then σ
    else { σ with portal := σ.portal.recover, workers := σ.workers ++ [⟨true, none⟩] }
  | .loseGuard worker =>
    { σ with workers := σ.workers.modify worker fun w => { w with guarded := false } }
  | .stop worker => { σ with workers := σ.workers.eraseIdx worker }
  | .expire worker => if σ.idle worker then { σ with portal := σ.portal.expire now } else σ
  | .select worker locked =>
    if σ.idle worker then
      match σ.portal.next locked with
      | none => σ
      | some o =>
        { σ.setWork worker (some (jobOf o, .selected)) with
          portal := σ.portal.begin o (jobOf o).phase }
    else σ
  | .authorize worker =>
    match σ.jobAt worker with
    | some (job, .selected) => σ.setWork worker (some (job, Admin.authorize σ.portal job))
    | _ => σ
  | .recheck worker =>
    match σ.jobAt worker with
    | none | some (_, .failing _) => σ
    | some (job, _) =>
      if σ.portal.admins.contains job.actor then σ
      else σ.setWork worker (some (job,
        .failing "Administrator access was revoked while this operation was running."))
  | .prepared worker result token =>
    match σ.jobAt worker with
    | some (job, .running) =>
      if job.phase = .validating then σ.finishPrepare now worker job token result else σ
    | _ => σ
  | .progress worker text =>
    match σ.jobAt worker with
    | some (job, .running) =>
      if job.phase = .applying then { σ with portal := σ.portal.progress job.id text } else σ
    | _ => σ
  | .applied worker result =>
    match σ.jobAt worker with
    | some (job, .running) =>
      if job.phase = .applying then σ.finishApply worker job result else σ
    | _ => σ
  | .recordFailure worker diagnostic =>
    match σ.jobAt worker with
    | some (job, .failing _) =>
      { σ.setWork worker none with portal := σ.portal.markFailed job.id job.phase diagnostic }
    | _ => σ

/-- One step, at a time not before the last. -/
def Step (σ : Sys) (l : Time × Op) (τ : Sys) : Prop :=
  σ.clock ≤ l.1 ∧ τ = { σ.perform l.1 l.2 with clock := l.1 }

/-- The step of an operation at a time, if it is not before the last. -/
def next (σ : Sys) (l : Time × Op) : Option Sys :=
  if σ.clock ≤ l.1 then some { σ.perform l.1 l.2 with clock := l.1 } else none

theorem step_of_next (σ : Sys) (l : Time × Op) (τ : Sys) (h : σ.next l = some τ) :
    Step σ l τ := by
  rw [next] at h
  split at h
  · rename_i hclock
    rw [Option.some_inj] at h
    exact ⟨hclock, h.symm⟩
  · cases h

/-- A portal nobody used yet. -/
structure Initial (σ : Sys) : Prop where
  operations : σ.portal.operations = []
  workers : σ.workers = []

/-- The states some run of the portal reaches. -/
def Reachable : Sys → Prop := Transition.Reachable Step Initial

end Sys

namespace Sample

/-- A portal with one administrator. -/
def start : Sys where
  portal := { users := [7], admins := [7], operations := [], audit := [] }
  workers := []
  clock := 0

theorem initial : start.Initial := ⟨rfl, rfl⟩

/-- The course an administrator uploads. -/
def input : Input := ⟨"course", .empty, "c", "r"⟩

def second (s : Int) : Time := s * nanosPerSecond

/-- Operation `id` is submitted in session `a`. -/
def submit (id : Uuid) : Op := .submit id 7 "a" input

/-- The worker takes an operation and validates it, with the token `b`. -/
def validation (s : Int) : List (Time × Op) :=
  [(second s, .select 0 []), (second s, .authorize 0), (second s, .prepared 0 (.ok ("p", "")) "b")]

/-- Its administrator confirms it. -/
def confirm (id : Uuid) : Op := .confirm id 7 "a" "b"

/-- The worker takes an operation and applies it. -/
def application (s : Int) : List (Time × Op) :=
  [(second s, .select 0 []), (second s, .authorize 0), (second s, .applied 0 (.ok ("", none)))]

end Sample

end Grading.Admin

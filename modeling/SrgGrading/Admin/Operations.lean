import SrgGrading.Library.OrderedMap
import SrgGrading.Store.Schema

/-!
# Operations of the administrator portal

A request of an administrator is a row of `admin_operations`.  The browser
submits and confirms it; everything else the administration worker writes.
What `prepare` and `apply` do to courses and repositories is not part of this
file: a plan is the input and what was prepared for it.
-/

open Fallible Relational

namespace Grading.Admin

/-! ### Input -/

def maxInput : Nat := 1024 * 1024

/-- An action of the portal, with the fields it takes. -/
structure Action where
  id : String
  fields : List String
  content : Bool

def actions : List Action :=
  [⟨"course", [], true⟩,
    ⟨"roster", ["course", "format"], true⟩,
    ⟨"exercises", [], true⟩,
    ⟨"exercise_add", ["course", "name", "template", "grader", "template_ref", "grader_ref",
      "runner_image", "opens_at", "deadline"], false⟩,
    ⟨"exercise_update", ["course", "name", "template", "grader", "template_ref", "grader_ref",
      "runner_image", "opens_at", "deadline", "existing"], false⟩,
    ⟨"exercise_show", ["course", "name"], false⟩,
    ⟨"private_grade", ["course", "name"], false⟩,
    ⟨"export", ["course"], false⟩,
    ⟨"override", ["repository", "points"], false⟩,
    ⟨"extension", ["repository", "deadline"], false⟩,
    ⟨"regrade", ["submission"], false⟩,
    ⟨"select_submission", ["event"], false⟩,
    ⟨"retry_private", ["run"], false⟩,
    ⟨"retry_task", ["task"], false⟩,
    ⟨"worker_register", ["id", "cpu", "memory_gib", "storage_gib"], true⟩,
    ⟨"worker_revoke", ["id"], false⟩,
    ⟨"admin_list", [], false⟩,
    ⟨"admin_grant", ["github_username"], false⟩,
    ⟨"admin_revoke", ["github_username", "recovery_override"], false⟩,
    ⟨"sync", [], false⟩,
    ⟨"work", [], false⟩,
    ⟨"migrate", [], false⟩]

def action (id : String) : Option Action := actions.find? fun a => a.id = id

structure Input where
  action : String
  fields : OrderedMap String String
  content : String
  reason : String
  deriving DecidableEq

def Input.validate (input : Input) : Except Error Unit := do
  check (!Text.contains input.content '\x00' && !Text.contains input.reason '\x00' &&
    input.fields.entries.all fun f => !Text.contains f.2 '\x00')
    "Text fields and uploaded files must not contain NUL characters."
  let a ← fetchOne (.message "Unknown administrative action.")
    (Admin.action input.action)
  check (Text.len input.content ≤ maxInput)
    "Input exceeds 1 MiB. Split the import into smaller files."
  check (!Text.blank input.reason && Text.len input.reason ≤ 2048)
    "Provide an audit reason (at most 2,048 characters)."
  check (input.fields.entries.all fun f => a.fields.contains f.1 && Text.len f.2 ≤ 2048)
    "Unknown field or field longer than 2,048 characters."
  check (a.content || Text.len input.content = 0) "This action does not accept file contents."
  check (!a.content || !Text.blank input.content) "Upload a file or paste its contents."

/-! ### Rows -/

/-- The state of an operation. -/
inductive OperationState
  | pendingValidation
  | validating
  | ready
  | queued
  | applying
  | succeeded
  | failed
  | uncertain
  | expired
  deriving DecidableEq

/-- An operation is validated or applied. -/
inductive Phase
  | validating
  | applying
  deriving DecidableEq

def Phase.state : Phase → OperationState
  | .validating => .validating
  | .applying => .applying

/-- What `prepare` made of an input. -/
structure Plan where
  input : Input
  /-- The other fields, as they are stored. -/
  prepared : String
  deriving DecidableEq

/-- A row of `admin_operations`. -/
structure Operation where
  id : Uuid
  actor : Int
  sessionHash : String
  input : Input
  state : OperationState
  plan : Option Plan
  output : String
  download : Option String
  confirmationHash : Option String
  confirmationToken : Option String
  validatedUntil : Option Time
  createdAt : Time
  deriving DecidableEq

/-- The tables the portal writes itself. -/
structure Portal where
  users : List Int
  admins : List Int
  operations : List Operation
  audit : List AuditEvent
  deriving DecidableEq

/-- Whether an operation counts as active. -/
def OperationState.active : OperationState → Bool
  | .pendingValidation | .validating | .queued | .applying => true
  | _ => false

def hour : Time := 3600 * nanosPerSecond

namespace Portal

variable (p : Portal)

/-- `UPDATE admin_operations SET f WHERE q`. -/
def update (q : Operation → Bool) (f : Operation → Operation) : Portal :=
  { p with operations := updateWhere q f p.operations }

/-- `submissions::audit`. -/
def auditEvent (operator action : String) (target : List Char) (reason : String) : Portal :=
  { p with audit := p.audit ++ [⟨operator, action, String.ofList target, reason⟩] }

/-- The active operations of an administrator. -/
def activeCount (actor : Int) : Nat :=
  p.operations.countP fun o => o.actor = actor && o.state.active

/-- The operations an administrator submitted in the last hour. -/
def recentCount (now : Time) (actor : Int) : Nat :=
  p.operations.countP fun o => o.actor = actor && decide (now - hour < o.createdAt)

variable [Sha256]

/-- `security::digest` of a string. -/
def digestOf (s : String) : String := digest (s.toList.flatMap String.utf8EncodeChar)

/-! ### What the browser does -/

def submit (now : Time) (fresh : Uuid) (actor : Int) (csrf : String) (input : Input) :
    Except Error (Portal × Uuid) := do
  input.validate
  check (p.admins.contains actor && p.recentCount now actor < 60 && p.activeCount actor < 4)
    ("Administrator access is required; at most four operations may be active " ++
      "and 60 submitted per hour.")
  ensure (!p.operations.any fun o => o.id = fresh) .uniqueViolation
  ensure (p.users.contains actor) .foreignKeyViolation
  let o : Operation :=
    { id := fresh, actor, sessionHash := digestOf csrf, input, state := .pendingValidation
      plan := none, output := "", download := none, confirmationHash := none
      confirmationToken := none, validatedUntil := none, createdAt := now }
  return ({ p with operations := p.operations ++ [o] }, fresh)

/-- The operation `confirm_admin_operation` takes. -/
def confirmable (now : Time) (id : Uuid) (actor : Int) (csrf token : String) (o : Operation) :
    Bool :=
  o.id = id && o.actor = actor && o.sessionHash = digestOf csrf && o.state = .ready &&
    (o.validatedUntil.any fun t => now < t) && o.confirmationHash = some (digestOf token) &&
    p.admins.contains actor

/-- The function `confirm_admin_operation`. -/
def confirm (now : Time) (id : Uuid) (actor : Int) (csrf token : String) : Portal × Bool :=
  let taken := p.confirmable now id actor csrf token
  let confirmed := p.update taken fun o => { o with state := .queued, confirmationToken := none }
  if p.operations.countP taken = 1 then
    let event := fun o : Operation =>
      (⟨"github:" ++ toString actor, "admin_portal.confirmed", String.ofList id.text,
        o.input.reason⟩ : AuditEvent)
    ({ confirmed with
      audit := p.audit ++ (p.operations.filter fun o => o.id = id).map event }, true)
  else (confirmed, false)

/-- `identity::admin_change`. -/
def adminChange (id : Int) (grant recovery : Bool) (operator reason : String) :
    Except Error Portal := do
  check (decide (0 < id) && !Text.blank reason && !Text.blank operator)
    "identity, operator and reason are required"
  if grant then
    let admins := if p.admins.contains id then p.admins else p.admins ++ [id]
    return { p with admins }.auditEvent operator "admin.grant" (toString id).toList reason
  else do
    check (decide (0 < p.admins.countP (· ≠ id)) || recovery)
      "refusing to revoke final administrator without --recovery-override"
    return { p with admins := p.admins.filter (· ≠ id) }.auditEvent operator "admin.revoke"
      (toString id).toList reason

/-! ### What the worker does -/

/-- `left(output, 100000)`. -/
def left (output : String) : String := String.ofList (output.toList.take 100000)

/-- The characters that fit into `max` bytes. -/
def fit : Nat → List Char → List Char
  | _, [] => []
  | max, c :: rest => if c.utf8Size ≤ max then c :: fit (max - c.utf8Size) rest else []

/-- `operations::truncate`. -/
def truncate (text : String) (max : Nat) : String := String.ofList (fit max text.toList)

/-- What a restarted worker makes of the operations that were in progress. -/
def recover : Portal :=
  p.update (fun o => o.state = .validating || o.state = .applying) fun o =>
    { o with
      state := if o.state = .validating then .pendingValidation else .uncertain
      output := o.output ++ "\nWorker restarted. An interrupted apply is not replayed " ++
        "automatically; inspect current state before validating again." }

def expire (now : Time) : Portal :=
  p.update (fun o => o.state = .ready && o.validatedUntil.any fun t => t ≤ now) fun o =>
    { o with state := .expired, confirmationToken := none }

/-- The operation the worker takes.  `locked` are the rows other transactions hold. -/
def next (locked : List Uuid) : Option Operation :=
  (p.operations.filter fun o =>
    (o.state = .pendingValidation || o.state = .queued) && !locked.contains o.id).argmin
      fun o => toLex (o.createdAt, o.id)

/-- The worker takes `o`. -/
def begin (o : Operation) (phase : Phase) : Portal :=
  p.update (fun x => x.id = o.id) fun x =>
    { x with
      state := phase.state
      output := match phase with
        | .validating => "Validation started. Resolving inputs and checking current state…"
        | .applying => x.output ++ "\n\nConfirmed. Applying the validated operation…" }

/-- A validated operation waits fifteen minutes for its confirmation. -/
def storePlan (now : Time) (id : Uuid) (plan : Plan) (report token : String) : Portal :=
  p.update (fun o => o.id = id && o.state = .validating) fun o =>
    { o with
      state := .ready, plan := some plan, output := truncate report 900000
      confirmationToken := some token, confirmationHash := some (digestOf token)
      validatedUntil := some (now + 15 * 60 * nanosPerSecond) }

def progress (id : Uuid) (text : String) : Portal :=
  p.update (fun o => o.id = id) fun o =>
    { o with output := left o.output ++ "\n\n" ++ truncate text 400000 }

/-- The transaction after an application. -/
def succeed (operator : String) (id : Uuid) (result : String) (download : Option String) :
    Portal :=
  (p.auditEvent operator "admin_portal.applied" id.text
    "Confirmed through administrator portal").update
    (fun o => o.id = id && o.state = .applying) fun o =>
      { o with
        state := .succeeded, download
        output := left o.output ++ "\n\nRESULT\n" ++ truncate result 400000 }

def markFailed (id : Uuid) (phase : Phase) (text : String) : Portal :=
  let start := match phase with
    | .validating => "Validation failed. Nothing was applied.\n"
    | .applying => "Application failed. Some external or multi-step work may have completed; " ++
      "inspect diagnostics and current state before validating again.\n"
  p.update (fun o => o.id = id) fun o =>
    { o with
      state := .failed, confirmationToken := none
      output := left o.output ++ "\n\n" ++ (start ++ text) }

end Portal

end Grading.Admin

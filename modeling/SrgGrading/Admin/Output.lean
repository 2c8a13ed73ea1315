import SrgGrading.Admin.Turns
import SrgGrading.Core.Sizes

/-!
# The output of an operation

The output of an operation takes at most a mebibyte.  What is kept of it is
counted in characters, what is added to it mostly in bytes, and two notes are
added whatever is there.

* `diagnostic`: the text about an error that the worker adds.
* `Portal.Roomy`: the most that an output takes in each of the nine states.
* `Sys.output_fits`: no statement fails on the check of the column.
-/

open Fallible Relational

namespace Grading.Admin

/-! ### Diagnostics -/

/-- The stages the program names. -/
def stages : List String :=
  ["admin_application", "admin_validation", "check_publish", "controller_job_create",
    "database_connect", "database_credentials_read", "database_readiness", "executor_api_url",
    "executor_config_parse", "executor_config_read", "github_app_authentication",
    "github_configuration", "github_transport", "grader_commit_verify", "grader_digest_verify",
    "grader_result_decode", "grader_result_validate", "grader_snapshot_validate",
    "internal_listener_bind", "kubernetes_client_init", "kubernetes_job_status", "lease_decode",
    "lease_request", "lease_response", "login_state_create", "public_listener_bind",
    "repository_create", "repository_load", "repository_lock", "repository_seed",
    "repository_verify", "revision_decode", "sandbox_pod_lookup", "sandbox_termination_status",
    "snapshot_decode", "staging_directory_create", "staging_root_create", "student_invitation",
    "student_job_create", "student_output_decode", "student_permissions",
    "submission_commit_verify", "submission_digest_verify", "submission_snapshot",
    "submission_snapshot_decode", "task_heartbeat", "team_permissions", "template_fetch",
    "webhook_secret_read", "worker_credentials_read", "workflow_request_decode",
    "workflow_request_read", "workflow_request_validate"]

inductive IoKind
  | notFound
  | permissionDenied
  | timedOut
  | other

/-- `sqlx::Error`, with the code the server gave. -/
inductive DatabaseError
  | rowNotFound
  | poolTimedOut
  | poolClosed
  | database (code : Option String)
  | other

/-- An error, with what can be found in it. -/
structure Failure where
  /-- The error and its causes. -/
  text : String
  stage : Option { stage : String // stage ∈ stages }
  http : Option UInt16
  io : Option IoKind
  json : Bool
  toml : Bool
  database : Option DatabaseError
  /-- A `reqwest::Error`. -/
  upstream : Bool

structure Details where
  stage : String
  reason : String
  upstreamStatus : Option UInt16

def describe (e : Failure) : Details where
  stage := e.stage.elim "unspecified" Subtype.val
  reason :=
    if e.http.isSome then "upstream_http"
    else match e.io with
      | some .notFound => "file_not_found"
      | some .permissionDenied => "io_permission_denied"
      | some .timedOut => "io_timeout"
      | some .other => "io_failure"
      | none =>
        if e.json then "json_decode"
        else if e.toml then "toml_decode"
        else "validation_or_internal"
  upstreamStatus := e.http

def DatabaseError.reason : DatabaseError → String
  | .rowNotFound => "record_not_found"
  | .poolTimedOut => "database_pool_timeout"
  | .poolClosed => "database_pool_closed"
  | .database code =>
    if code = some "42501" then "database_permission_denied"
    else if code = some "23505" then "database_unique_conflict"
    else if code = some "23503" then "database_foreign_key"
    else if code = some "23514" then "database_check_constraint"
    else if code = some "40001" then "database_serialization_retry"
    else if code = some "40P01" then "database_deadlock"
    else "database_error"
  | .other => "database_connection_or_protocol"

def diagnostics (e : Failure) : Details :=
  match e.database with
  | some d => { describe e with reason := d.reason }
  | none => describe e

/-- What is said about an error of the database. -/
def databaseMessage (reason : String) : String :=
  if reason = "record_not_found" then "The selected record no longer exists. Validate again."
  else if reason = "database_permission_denied" then
    "The administration worker database role lacks a required permission. " ++
      "Apply current database grants."
  else if reason = "database_unique_conflict" then
    "A conflicting record already exists. Review the current course or roster and validate again."
  else if reason = "database_foreign_key" then
    "A referenced course, student or record does not exist."
  else
    "The database operation failed. Check the administration worker logs using this operation ID."

def diagnostic (e : Failure) : String :=
  let details := diagnostics e
  let message :=
    if e.database.isSome then databaseMessage details.reason
    else if e.upstream then
      "GitHub or another upstream service could not be reached. " ++
        "Check connectivity, credentials and rate limits, then validate again."
    else e.text
  Portal.truncate message 16000 ++ "\n\nDiagnostic stage: " ++ details.stage ++ "\nCategory: " ++
    details.reason ++ "\nUpstream status: " ++
    details.upstreamStatus.elim "none" fun s => String.ofList (Json.renderNum s.toNat)

/-! ### Statements -/

/-- A statement that was sent for a job its worker has given up. -/
inductive Late
  | storePlan (id : Uuid) (plan : Plan) (report token : String)
  | progress (id : Uuid) (text : String)
  | succeed (operator : String) (id : Uuid) (result : String) (download : Option String)

/-- What reaches the database: a step of the system, or a late statement. -/
inductive Sent
  | op (op : Op)
  | late (statement : Late)

/-- The failures that are recorded come with their diagnostics. -/
def Sent.Reports : Sent → Prop
  | .op (.recordFailure _ text) => ∃ e, text = diagnostic e
  | _ => True

/-- What the column `output` holds at most. -/
def maxOutput : Nat := 1048576

/-- The check of the column. -/
def Portal.withinCheck (p : Portal) : Bool :=
  p.operations.all fun o => Text.len o.output ≤ maxOutput

section Written
variable [Sha256]

def Portal.late (p : Portal) (now : Time) : Late → Portal
  | .storePlan id plan report token => p.storePlan now id plan report token
  | .progress id text => p.progress id text
  | .succeed operator id result download => p.succeed operator id result download

namespace Sys

/-- The system after what is sent has been written. -/
def written (σ : Sys) (now : Time) : Sent → Sys
  | .op op => σ.perform now op
  | .late statement => { σ with portal := σ.portal.late now statement }

/-- The system after what is sent, if the table takes it. -/
def commit (σ : Sys) (l : Time × Sent) : Except Error Sys := do
  let τ : Sys := { σ.written l.1 l.2 with clock := l.1 }
  ensure τ.portal.withinCheck .checkViolation
  return τ

/-- What is sent is written, at a time not before the last. -/
def Commits (σ : Sys) (l : Time × Sent) (τ : Sys) : Prop :=
  l.2.Reports ∧ σ.clock ≤ l.1 ∧ σ.commit l = .ok τ

end Sys

end Written

/-! ### Lengths of texts -/

section Lengths

theorem len_append (a b : String) : Text.len (a ++ b) = Text.len a + Text.len b :=
  String.utf8ByteSize_append

/-- What is kept of an output is counted in characters. -/
theorem len_left_le (output : String) : Text.len (Portal.left output) ≤ 400000 := by
  have hlength : (output.toList.take 100000).length ≤ 100000 := List.length_take_le _ _
  have hbytes := Json.utf8Len_le_length (output.toList.take 100000)
  rw [← utf8Len_toList, Portal.left, String.toList_ofList]
  omega

theorem utf8Len_fit_le (max : Nat) (text : List Char) :
    String.utf8Len (Portal.fit max text) ≤ max := by
  induction text generalizing max with
  | nil => exact Nat.zero_le _
  | cons c rest ih =>
    unfold Portal.fit
    split
    · rename_i hfits
      have htail := ih (max - c.utf8Size)
      rw [String.utf8Len_cons]
      omega
    · exact Nat.zero_le _

/-- What is added to an output is counted in bytes. -/
theorem len_truncate_le (text : String) (max : Nat) :
    Text.len (Portal.truncate text max) ≤ max := by
  rw [← utf8Len_toList, Portal.truncate, String.toList_ofList]
  exact utf8Len_fit_le max text.toList

theorem len_stage_le {stage : String} (h : stage ∈ stages) : Text.len stage ≤ 32 := by
  have hall : ∀ stage ∈ stages, Text.len stage ≤ 32 := by decide +kernel
  exact hall stage h

theorem len_describe_reason_le (e : Failure) : Text.len (describe e).reason ≤ 32 := by
  unfold describe
  dsimp only
  split
  · decide
  · split
    · decide
    · decide
    · decide
    · decide
    · split
      · decide
      · split
        · decide
        · decide

theorem len_database_reason_le (d : DatabaseError) : Text.len d.reason ≤ 32 := by
  cases d with
  | database code =>
    unfold DatabaseError.reason
    dsimp only
    repeat' split
    all_goals decide
  | rowNotFound => decide
  | poolTimedOut => decide
  | poolClosed => decide
  | other => decide

theorem len_details_le (e : Failure) :
    Text.len (diagnostics e).stage ≤ 32 ∧ Text.len (diagnostics e).reason ≤ 32 := by
  have hstage : Text.len (describe e).stage ≤ 32 := by
    unfold describe
    dsimp only
    cases e.stage with
    | none => decide
    | some stage => exact len_stage_le stage.property
  unfold diagnostics
  cases e.database with
  | none => exact ⟨hstage, len_describe_reason_le e⟩
  | some d => exact ⟨hstage, len_database_reason_le d⟩

/-- **Diagnostics are short**, however long the error is. -/
theorem len_diagnostic_le (e : Failure) : Text.len (diagnostic e) ≤ 16200 := by
  obtain ⟨hstage, hreason⟩ := len_details_le e
  have hstatus : Text.len ((diagnostics e).upstreamStatus.elim "none" fun s =>
      String.ofList (Json.renderNum s.toNat)) ≤ 24 := by
    cases (diagnostics e).upstreamStatus with
    | none => decide
    | some s =>
      have hlt := s.toNat_lt
      have hsize := Json.size_num (n := s.toNat) (k := 5) (by decide) (by omega)
      rw [Option.elim_some, ← utf8Len_toList, String.toList_ofList]
      exact hsize
  have hconstants : Text.len "\n\nDiagnostic stage: " = 20 ∧ Text.len "\nCategory: " = 11 ∧
      Text.len "\nUpstream status: " = 18 := by decide
  obtain ⟨message, heq⟩ : ∃ message, diagnostic e = Portal.truncate message 16000 ++
      "\n\nDiagnostic stage: " ++ (diagnostics e).stage ++ "\nCategory: " ++
      (diagnostics e).reason ++ "\nUpstream status: " ++
      (diagnostics e).upstreamStatus.elim "none" fun s => String.ofList (Json.renderNum s.toNat) :=
    ⟨_, rfl⟩
  have hmessage := len_truncate_le message 16000
  rw [heq]
  simp only [len_append, hconstants]
  omega

end Lengths

/-! ### The room of each state -/

/-- The most bytes an output takes in a state. -/
def OperationState.room : OperationState → Nat
  | .pendingValidation | .applying => 900200
  | .uncertain => 900400
  | .validating | .ready | .queued | .succeeded | .failed | .expired => 900000

/-- Every output has room. -/
def Portal.Roomy (p : Portal) : Prop := ∀ o ∈ p.operations, Text.len o.output ≤ o.state.room

section Rooms

theorem le_room (s : OperationState) : 900000 ≤ s.room := by
  cases s <;> decide

theorem room_le (s : OperationState) : s.room ≤ maxOutput := by
  cases s <;> decide

variable {p : Portal}

/-- **A table with room** meets the check. -/
theorem Portal.Roomy.withinCheck (h : p.Roomy) : p.withinCheck = true := by
  unfold Portal.withinCheck
  rw [List.all_eq_true]
  intro o ho
  rw [decide_eq_true_eq]
  exact (h o ho).trans (room_le o.state)

theorem Portal.Roomy.update {q : Operation → Bool} {f : Operation → Operation} (h : p.Roomy)
    (hf : ∀ o ∈ p.operations, q o = true → Text.len o.output ≤ o.state.room →
      Text.len (f o).output ≤ (f o).state.room) : (p.update q f).Roomy := by
  intro y hy
  obtain ⟨o, ho, rfl⟩ := mem_updateWhere.mp hy
  by_cases hq : q o = true
  · rw [if_pos hq]
    exact hf o ho hq (h o ho)
  · rw [if_neg hq]
    exact h o ho

/-- A restart adds its note to the operations in progress. -/
theorem roomy_recover (h : p.Roomy) : p.recover.Roomy := by
  refine h.update fun o _ hstate hlen => ?_
  have hnote : Text.len "\nWorker restarted. An interrupted apply is not replayed " ≤ 100 ∧
      Text.len "automatically; inspect current state before validating again." ≤ 100 := by decide
  dsimp only
  rw [len_append, len_append]
  rw [Bool.or_eq_true, decide_eq_true_eq, decide_eq_true_eq] at hstate
  rcases hstate with hs | hs
  · rw [hs] at hlen
    rw [if_pos hs]
    simp only [OperationState.room] at hlen ⊢
    omega
  · rw [hs] at hlen
    rw [if_neg (by rw [hs]; decide)]
    simp only [OperationState.room] at hlen ⊢
    omega

theorem roomy_expire (h : p.Roomy) (now : Time) : (p.expire now).Roomy := by
  refine h.update fun o _ hstate hlen => ?_
  rw [Bool.and_eq_true, decide_eq_true_eq] at hstate
  rw [hstate.1] at hlen
  exact hlen

/-- A validation starts with an output of its own, an application adds its note. -/
theorem roomy_begin (h : p.Roomy) (hk : Keyed Operation.id p.operations) {o : Operation}
    {locked : List Uuid} (hnext : p.next locked = some o) :
    (p.begin o (jobOf o).phase).Roomy := by
  obtain ⟨hmem, hstate⟩ := next_spec hnext
  refine h.update fun x hx hid hlen => ?_
  rw [decide_eq_true_eq] at hid
  rw [hk.eq hx hmem hid] at hlen ⊢
  rcases hstate with hs | hs
  · have hphase : (jobOf o).phase = .validating := by rw [jobOf, hs]; rfl
    have hnote : Text.len "Validation started. Resolving inputs and checking current state…" ≤
        OperationState.validating.room := by decide
    rw [hphase]
    exact hnote
  · have hphase : (jobOf o).phase = .applying := by rw [jobOf, hs]; rfl
    have hnote : Text.len "\n\nConfirmed. Applying the validated operation…" ≤ 200 := by decide
    rw [hs] at hlen
    rw [hphase]
    dsimp only [Phase.state]
    rw [len_append]
    simp only [OperationState.room] at hlen ⊢
    omega

theorem roomy_progress (h : p.Roomy) (id : Uuid) (text : String) : (p.progress id text).Roomy := by
  refine h.update fun o _ _ _ => ?_
  have hleft := len_left_le o.output
  have htext := len_truncate_le text 400000
  have hroom := le_room o.state
  have hgap : Text.len "\n\n" = 2 := by decide
  dsimp only
  rw [len_append, len_append]
  omega

theorem roomy_succeed (h : p.Roomy) (operator : String) (id : Uuid) (result : String)
    (download : Option String) : (p.succeed operator id result download).Roomy := by
  have haudit : (p.auditEvent operator "admin_portal.applied" id.text
      "Confirmed through administrator portal").Roomy := h
  refine haudit.update fun o _ _ _ => ?_
  have hleft := len_left_le o.output
  have htext := len_truncate_le result 400000
  have hroom := le_room OperationState.succeeded
  have hgap : Text.len "\n\nRESULT\n" = 9 := by decide
  dsimp only
  rw [len_append, len_append]
  omega

/-- A failure leaves its diagnostics. -/
theorem roomy_markFailed (h : p.Roomy) (id : Uuid) (phase : Phase) (e : Failure) :
    (p.markFailed id phase (diagnostic e)).Roomy := by
  refine h.update fun o _ _ _ => ?_
  have hleft := len_left_le o.output
  have htext := len_diagnostic_le e
  have hroom := le_room OperationState.failed
  have hgap : Text.len "\n\n" = 2 := by decide
  have hstart : Text.len "Validation failed. Nothing was applied.\n" ≤ 200 ∧
      Text.len ("Application failed. Some external or multi-step work may have completed; " ++
        "inspect diagnostics and current state before validating again.\n") ≤ 200 := by
    decide +kernel
  cases phase with
  | validating =>
    dsimp only
    rw [len_append, len_append, len_append]
    omega
  | applying =>
    dsimp only
    rw [len_append, len_append, len_append]
    omega

end Rooms

section Steps
variable [Sha256] {p : Portal} {σ : Sys}

theorem roomy_submit {now : Time} {fresh : Uuid} {actor : Int} {csrf : String} {input : Input}
    {p' : Portal} {out : Uuid} (h : p.Roomy)
    (hsubmit : p.submit now fresh actor csrf input = .ok (p', out)) : p'.Roomy := by
  simp only [Portal.submit, bind_ok, pure_ok, Prod.mk.injEq] at hsubmit
  obtain ⟨_, _, _, _, _, _, _, _, rfl, _⟩ := hsubmit
  intro o ho
  rcases List.mem_append.mp ho with hold | hnew
  · exact h o hold
  · rw [List.mem_singleton.mp hnew]
    exact Nat.zero_le _

theorem roomy_confirm (h : p.Roomy) (now : Time) (id : Uuid) (actor : Int) (csrf token : String) :
    (p.confirm now id actor csrf token).1.Roomy := by
  have hupdate : (p.update (p.confirmable now id actor csrf token) fun o =>
      { o with state := .queued, confirmationToken := none }).Roomy := by
    refine h.update fun o _ htaken hlen => ?_
    simp only [Portal.confirmable, Bool.and_eq_true, decide_eq_true_eq] at htaken
    obtain ⟨⟨⟨⟨_, hstate⟩, _⟩, _⟩, _⟩ := htaken
    rw [hstate] at hlen
    exact hlen
  unfold Portal.confirm
  dsimp only
  split
  · exact hupdate
  · exact hupdate

theorem roomy_storePlan (h : p.Roomy) (now : Time) (id : Uuid) (plan : Plan)
    (report token : String) : (p.storePlan now id plan report token).Roomy := by
  refine h.update fun o _ _ _ => ?_
  have htext := len_truncate_le report 900000
  exact htext

theorem roomy_late (h : p.Roomy) (now : Time) (s : Late) : (p.late now s).Roomy := by
  cases s with
  | storePlan id plan report token => exact roomy_storePlan h now id plan report token
  | progress id text => exact roomy_progress h id text
  | succeed operator id result download => exact roomy_succeed h operator id result download

omit [Sha256] in
theorem roomy_adminChange {id : Int} {grant recovery : Bool} {operator reason : String}
    {p' : Portal} (h : p.Roomy)
    (hchange : p.adminChange id grant recovery operator reason = .ok p') : p'.Roomy := by
  have hsame : p'.operations = p.operations := by
    simp only [Portal.adminChange, bind_ok] at hchange
    obtain ⟨_, _, hchange⟩ := hchange
    split at hchange
    · rw [pure_ok] at hchange
      rw [← hchange]
      rfl
    · simp only [bind_ok, pure_ok] at hchange
      obtain ⟨_, _, rfl⟩ := hchange
      rfl
  intro o ho
  rw [hsame] at ho
  exact h o ho

/-- **Every step** leaves room. -/
theorem roomy_perform (hk : Keyed Operation.id σ.portal.operations) (h : σ.portal.Roomy)
    (now : Time) {op : Op} (hreports : (Sent.op op).Reports) :
    (σ.perform now op).portal.Roomy := by
  cases op with
  | submit fresh actor csrf input =>
    simp only [Sys.perform]
    split
    · rename_i hsubmit
      exact roomy_submit h hsubmit
    · exact h
  | confirm id actor csrf token => exact roomy_confirm h now id actor csrf token
  | adminChange id grant recovery operator reason =>
    simp only [Sys.perform]
    split
    · rename_i hchange
      exact roomy_adminChange h hchange
    · exact h
  | start =>
    simp only [Sys.perform]
    split
    · exact h
    · exact roomy_recover h
  | loseGuard worker => exact h
  | stop worker => exact h
  | expire worker =>
    simp only [Sys.perform]
    split
    · exact roomy_expire h now
    · exact h
  | select worker locked =>
    simp only [Sys.perform]
    split
    · split
      · exact h
      · rename_i hnext
        exact roomy_begin h hk hnext
    · exact h
  | authorize worker =>
    simp only [Sys.perform]
    split
    · exact h
    · exact h
  | recheck worker =>
    simp only [Sys.perform]
    split
    · exact h
    · exact h
    · split
      · exact h
      · exact h
  | prepared worker result token =>
    simp only [Sys.perform]
    split
    · rename_i job _
      split
      · cases result with
        | error text => exact h
        | ok answer => exact roomy_storePlan h now job.id ⟨job.input, answer.1⟩ answer.2 token
      · exact h
    · exact h
  | progress worker text =>
    simp only [Sys.perform]
    split
    · rename_i job _
      split
      · exact roomy_progress h job.id text
      · exact h
    · exact h
  | applied worker result =>
    simp only [Sys.perform]
    split
    · rename_i job _
      split
      · cases result with
        | error text => exact h
        | ok answer => exact roomy_succeed h job.operator job.id answer.1 answer.2
      · exact h
    · exact h
  | recordFailure worker text =>
    obtain ⟨e, rfl⟩ := hreports
    simp only [Sys.perform]
    split
    · rename_i job _ _
      exact roomy_markFailed h job.id job.phase e
    · exact h

theorem roomy_written (hk : Keyed Operation.id σ.portal.operations) (h : σ.portal.Roomy)
    (now : Time) {sent : Sent} (hreports : sent.Reports) : (σ.written now sent).portal.Roomy := by
  cases sent with
  | op op => exact roomy_perform hk h now hreports
  | late statement => exact roomy_late h now statement

/-- The operations keep their ids. -/
theorem keyed_written (hk : Keyed Operation.id σ.portal.operations) {now : Time}
    (hclock : σ.clock ≤ now) (sent : Sent) :
    Keyed Operation.id (σ.written now sent).portal.operations := by
  cases sent with
  | op op =>
    have hstep : Sys.Step σ (now, op) { σ.perform now op with clock := now } := ⟨hclock, rfl⟩
    exact (Sys.Step.turns hk hstep).keyed hk
  | late statement =>
    cases statement with
    | storePlan id plan report token => exact hk.updateWhere fun _ _ => rfl
    | progress id text => exact hk.updateWhere fun _ _ => rfl
    | succeed operator id result download => exact hk.updateWhere fun _ _ => rfl

end Steps

/-! ### Every run -/

section Runs
variable [Sha256]

/-- The operations have ids and room. -/
structure Sys.Ordered (σ : Sys) : Prop where
  keyed : Keyed Operation.id σ.portal.operations
  roomy : σ.portal.Roomy

theorem Sys.Ordered.commit {σ : Sys} (h : σ.Ordered) (now : Time) {sent : Sent}
    (hreports : sent.Reports) :
    σ.commit (now, sent) = .ok { σ.written now sent with clock := now } := by
  have hcheck := (roomy_written h.keyed h.roomy now hreports).withinCheck
  unfold Sys.commit
  dsimp only
  rw [hcheck]
  rfl

theorem Sys.Commits.ordered {σ τ : Sys} {l : Time × Sent} (h : σ.Ordered)
    (hst : Sys.Commits σ l τ) : τ.Ordered := by
  obtain ⟨now, sent⟩ := l
  obtain ⟨hreports, hclock, hcommit⟩ := hst
  rw [h.commit now hreports, Except.ok.injEq] at hcommit
  rw [← hcommit]
  exact ⟨keyed_written h.keyed hclock sent, roomy_written h.keyed h.roomy now hreports⟩

theorem Sys.ordered {σ : Sys} (h : Transition.Reachable Sys.Commits Sys.Initial σ) : σ.Ordered := by
  refine Transition.Reachable.invariant (I := Sys.Ordered) (fun σ h0 => ?_) ?_ h
  · refine ⟨?_, fun o ho => ?_⟩
    · rw [h0.operations]
      exact List.nodup_nil
    · rw [h0.operations] at ho
      cases ho
  · intro _ _ _ _ hordered hst
    exact hst.ordered hordered

/-- **The output of an operation is never too long for its column**, whatever is
reported and however often the worker is restarted: the table takes whatever is
sent next. -/
theorem Sys.output_fits {σ : Sys} (h : Transition.Reachable Sys.Commits Sys.Initial σ) :
    (∀ o ∈ σ.portal.operations, Text.len o.output ≤ maxOutput) ∧
      ∀ now sent, sent.Reports → σ.clock ≤ now → ∃ τ, σ.commit (now, sent) = .ok τ := by
  have hordered := Sys.ordered h
  constructor
  · intro o ho
    exact (hordered.roomy o ho).trans (room_le o.state)
  · intro now sent hreports _
    exact ⟨_, hordered.commit now hreports⟩

end Runs

/-! ### A worker that is restarted twice -/

namespace Sample
attribute [local instance] Sha256.standard

/-- The system after what is sent, unless a failure is recorded. -/
def nextCommit (σ : Sys) (l : Time × Sent) : Option Sys :=
  match l.2 with
  | .op (.recordFailure _ _) => none
  | _ => if σ.clock ≤ l.1 then (σ.commit l).toOption else none

/-- A worker stops while it validates, and another one while it applies. -/
def restarting : List (Time × Sent) :=
  ([(second 1, submit 1), (second 1, .start), (second 1, .select 0 []), (second 2, .stop 0),
    (second 3, .start)] ++ validation 3 ++
    [(second 4, confirm 1), (second 5, .select 0 []), (second 5, .authorize 0),
      (second 5, .progress 0 "half"), (second 6, .stop 0), (second 7, .start)]).map
    fun l => (l.1, .op l.2)

/-- Its outcome is uncertain, as its output says. -/
theorem restarting_runs : ∃ σ, Transition.replay nextCommit start restarting = some σ ∧
    σ.portal.operations.map Operation.state = [.uncertain] := by
  have key : (Transition.replay nextCommit start restarting).any
      (fun σ => decide (σ.portal.operations.map Operation.state = [.uncertain])) = true := by
    decide +kernel
  obtain ⟨σ, hσ, hstate⟩ := Option.any_eq_true _ _ |>.mp key
  exact ⟨σ, hσ, of_decide_eq_true hstate⟩

theorem commits_of_nextCommit (σ : Sys) (l : Time × Sent) (τ : Sys) (h : nextCommit σ l = some τ) :
    Sys.Commits σ l τ := by
  unfold nextCommit at h
  split at h
  · cases h
  · rename_i sent hsent
    split at h
    · rename_i hclock
      have hcommit : σ.commit l = .ok τ := by
        cases hc : σ.commit l with
        | ok υ =>
          rw [hc] at h
          cases h
          rfl
        | error e =>
          rw [hc] at h
          cases h
      refine ⟨?_, hclock, hcommit⟩
      unfold Sent.Reports
      split
      · rename_i worker text hop
        exact absurd hop (hsent worker text)
      · trivial
    · cases h

/-- A late report is written as well. -/
theorem output_fits_restarting : ∃ σ, Transition.replay nextCommit start restarting = some σ ∧
    (∀ o ∈ σ.portal.operations, Text.len o.output ≤ maxOutput) ∧
      ∃ τ, σ.commit (σ.clock, .late (.progress 1 "late")) = .ok τ := by
  obtain ⟨σ, hσ, _⟩ := restarting_runs
  have hrun := Transition.run_of_replay commits_of_nextCommit hσ
  obtain ⟨hfits, hwritten⟩ := Sys.output_fits ⟨start, _, initial, hrun⟩
  exact ⟨σ, hσ, hfits, hwritten σ.clock _ trivial le_rfl⟩

end Sample

end Grading.Admin

import Mathlib.Logic.Function.Basic
import SrgGrading.Library.Transition
import SrgGrading.Core.Protocol

/-!
# The file channel of a grading script

The script of an instructor runs commands in student sandboxes through two
files.  Each `grading-run` process takes the client lock, replaces the request
file and polls the response file; the executor polls the request file, runs what
it has not run yet and replaces the response file.  Any process may stop between
any two steps.

* `Served`: what the executor keeps, whoever writes the request file.
* `Waited`: what the clients keep among themselves.
* `Channel.paired`: requests and responses along every run.
-/

open Fallible

namespace Grading

/-! ### Requests and responses -/

structure ExecutionRequest where
  id : Uuid
  command : List String
  stdin : String
  timeoutSeconds : Nat
  deriving DecidableEq

def ExecutionRequest.validate (r : ExecutionRequest) : Except Error Unit := do
  validateCommand r.command
  check (1 ≤ r.timeoutSeconds && r.timeoutSeconds ≤ 86400)
    "execution timeout must be 1..86400 seconds"
  check (Text.len r.stdin ≤ 65536) "execution input exceeds 64 KiB"

inductive JobOutcome
  | output (code : Int) (stdout : String)
  | studentFailure (reason : String)
  | failed (status : RunStatus)
  deriving DecidableEq

/-- The content of `response.json`. -/
structure Response where
  id : Uuid
  exitCode : Int
  stdout : String
  truncated : Bool
  failure : Option String
  deriving DecidableEq

/-- The longest start of at most `n` bytes. -/
def truncateTo : Nat → List Char → List Char
  | _, [] => []
  | n, c :: rest => if c.utf8Size ≤ n then c :: truncateTo (n - c.utf8Size) rest else []

/-- A job that ended.  `late` tells whether the deadline of the run had passed. -/
structure Execution where
  bytes : List UInt8
  request : ExecutionRequest
  outcome : JobOutcome
  late : Bool

/-- The response to an execution, or `none` when it ends the run. -/
def Execution.response (e : Execution) : Option Response :=
  match e.outcome with
  | .output code stdout =>
    let truncated := 65536 < Text.len stdout
    some ⟨e.request.id, code,
      if truncated then String.ofList (truncateTo 65536 stdout.toList) else stdout, truncated, none⟩
  | .studentFailure reason =>
    some ⟨e.request.id, if reason = "timeout" then 124 else 125, "", false, some reason⟩
  | .failed status =>
    if status = .timedOut && !e.late then
      some ⟨e.request.id, 124, "", false, some "timeout"⟩
    else none

/-- A response bears the id of its request. -/
theorem Execution.id_of_response {e : Execution} {r : Response} (h : e.response = some r) :
    r.id = e.request.id := by
  rw [Execution.response] at h
  split at h
  · rw [Option.some_inj] at h
    rw [← h]
  · rw [Option.some_inj] at h
    rw [← h]
  · split at h
    · rw [Option.some_inj] at h
      rw [← h]
    · cases h

/-! ### The processes -/

/-- Where a `grading-run` process is. -/
inductive Caller
  | starting
  | locked
  /-- Its request is in a file of its own. -/
  | staged
  | waiting
  | answered (response : Response)
  | returned (response : Response)
  | killed

/-- Whether the process has the client lock. -/
def Caller.holdsLock : Caller → Bool
  | .locked | .staged | .waiting | .answered _ => true
  | _ => false

/-- Where `serve` is. -/
inductive Server
  | polling
  | read (bytes : List UInt8)
  | starting (bytes : List UInt8) (request : ExecutionRequest)
  | running (bytes : List UInt8) (request : ExecutionRequest)
  | responding (bytes : List UInt8) (request : ExecutionRequest) (response : Response)
  /-- The response is in its place, and the request not yet among the handled. -/
  | responded (bytes : List UInt8) (request : ExecutionRequest)
  | stopped
  deriving DecidableEq

/-- The request whose job is there and that is not yet among the handled. -/
def Server.current : Server → List (List UInt8 × ExecutionRequest)
  | .running bytes request | .responding bytes request _ | .responded bytes request =>
    [(bytes, request)]
  | _ => []

/-- The request that was read and whose job is not there yet. -/
def Server.pending : Server → Option (List UInt8)
  | .read bytes | .starting bytes _ => some bytes
  | _ => none

/-- The control directory, the processes and the jobs of one run. -/
structure Channel (ι : Type*) where
  lock : Option ι
  requestFile : Option (List UInt8)
  responseFile : Option Response
  client : ι → Caller
  server : Server
  handled : List (Uuid × String)
  jobs : List (List UInt8 × ExecutionRequest)
  executions : List Execution

namespace Channel

inductive Event (ι : Type*)
  | lock (i : ι)
  | stage (i : ι)
  | replace (i : ι)
  | poll (i : ι)
  | release (i : ι)
  | kill (i : ι)
  /-- Some other process of the script writes the request file. -/
  | overwrite (bytes : List UInt8)
  | read
  | decode
  | create
  | finish (outcome : JobOutcome) (late : Bool)
  | respond
  | handle
  | stop

/-- The row of `handled` for a job. -/
def entry [Sha256] (job : List UInt8 × ExecutionRequest) : Uuid × String :=
  (job.2.id, digest job.1)

/-- What the arguments of `grading-run` have to be. -/
def runnable (r : ExecutionRequest) : Bool :=
  r.command ≠ [] && (1 ≤ r.timeoutSeconds && r.timeoutSeconds ≤ 86400) &&
    Text.len r.stdin ≤ 65536

def setClient {ι : Type*} [DecidableEq ι] (σ : Channel ι) (i : ι) (c : Caller) : Channel ι :=
  { σ with client := Function.update σ.client i c }

section System
variable {ι : Type*} [DecidableEq ι] [Sha256] (requests : ι → ExecutionRequest)
  (dumps : ExecutionRequest → List UInt8) (decode : List UInt8 → Option ExecutionRequest)

/-- What `serve` does with a request it has read. -/
def accept (σ : Channel ι) (bytes : List UInt8) : Server :=
  match decode bytes with
  | none => .stopped
  | some request =>
    if request.validate.isOk then
      match σ.handled.find? fun h => h.1 = request.id with
      | some previous => if previous.2 = digest bytes then .polling else .stopped
      | none => if σ.handled.length < 1000 then .starting bytes request else .stopped
    else .stopped

/-- One step of anybody. -/
inductive Step : Channel ι → Event ι → Channel ι → Prop
  | lock (σ : Channel ι) (i : ι) (h : σ.client i = .starting)
      (hrunnable : runnable (requests i) = true) (hfree : σ.lock = none) :
      Step σ (.lock i) { σ.setClient i .locked with lock := some i }
  | stage (σ : Channel ι) (i : ι) (h : σ.client i = .locked) :
      Step σ (.stage i) (σ.setClient i .staged)
  | replace (σ : Channel ι) (i : ι) (h : σ.client i = .staged) :
      Step σ (.replace i)
        { σ.setClient i .waiting with requestFile := some (dumps (requests i)) }
  /-- Any other response is overlooked. -/
  | poll (σ : Channel ι) (i : ι) (r : Response) (h : σ.client i = .waiting)
      (hread : σ.responseFile = some r) (hid : r.id = (requests i).id) :
      Step σ (.poll i) (σ.setClient i (.answered r))
  | release (σ : Channel ι) (i : ι) (r : Response) (h : σ.client i = .answered r) :
      Step σ (.release i) { σ.setClient i (.returned r) with lock := none }
  | kill (σ : Channel ι) (i : ι) (h : ∀ r, σ.client i ≠ .returned r) :
      Step σ (.kill i)
        { σ.setClient i .killed with lock := if σ.lock = some i then none else σ.lock }
  | overwrite (σ : Channel ι) (bytes : List UInt8) :
      Step σ (.overwrite bytes) { σ with requestFile := some bytes }
  | read (σ : Channel ι) (bytes : List UInt8) (h : σ.server = .polling)
      (hfile : σ.requestFile = some bytes) (hsize : bytes.length ≤ 1048576) :
      Step σ .read { σ with server := .read bytes }
  | decode (σ : Channel ι) (bytes : List UInt8) (h : σ.server = .read bytes) :
      Step σ .decode { σ with server := σ.accept decode bytes }
  | create (σ : Channel ι) (bytes : List UInt8) (request : ExecutionRequest)
      (h : σ.server = .starting bytes request) :
      Step σ .create
        { σ with server := .running bytes request, jobs := σ.jobs ++ [(bytes, request)] }
  | finish (σ : Channel ι) (bytes : List UInt8) (request : ExecutionRequest)
      (outcome : JobOutcome) (late : Bool) (h : σ.server = .running bytes request) :
      Step σ (.finish outcome late)
        { σ with
          server := match Execution.response ⟨bytes, request, outcome, late⟩ with
            | some response => .responding bytes request response
            | none => .stopped
          executions := σ.executions ++ [⟨bytes, request, outcome, late⟩] }
  | respond (σ : Channel ι) (bytes : List UInt8) (request : ExecutionRequest)
      (response : Response) (h : σ.server = .responding bytes request response) :
      Step σ .respond
        { σ with server := .responded bytes request, responseFile := some response }
  | handle (σ : Channel ι) (bytes : List UInt8) (request : ExecutionRequest)
      (h : σ.server = .responded bytes request) :
      Step σ .handle
        { σ with server := .polling, handled := σ.handled ++ [entry (bytes, request)] }
  /-- An error, the deadline, or the end of the script. -/
  | stop (σ : Channel ι) : Step σ .stop { σ with server := .stopped }

end System

/-- An empty control directory, and processes that have not started. -/
structure Initial {ι : Type*} (σ : Channel ι) : Prop where
  lock : σ.lock = none
  requestFile : σ.requestFile = none
  responseFile : σ.responseFile = none
  client : ∀ i, σ.client i = .starting
  server : σ.server = .polling
  handled : σ.handled = []
  jobs : σ.jobs = []
  executions : σ.executions = []

/-! ### What the executor keeps -/

section Server
variable {ι : Type*} [DecidableEq ι] [Sha256] {requests : ι → ExecutionRequest}
  {dumps : ExecutionRequest → List UInt8} {decode : List UInt8 → Option ExecutionRequest}

omit [DecidableEq ι]

/-- **What the executor keeps**, whatever the request file holds. -/
structure Served (decode : List UInt8 → Option ExecutionRequest) (σ : Channel ι) : Prop where
  ids : (σ.jobs.map fun job => job.2.id).Nodup
  limit : σ.jobs.length ≤ 1000
  decoded : ∀ job ∈ σ.jobs, decode job.1 = some job.2
  handled : σ.server ≠ .stopped →
    σ.jobs.map entry = σ.handled ++ σ.server.current.map entry
  current : ∀ job ∈ σ.server.current, job ∈ σ.jobs
  starting : ∀ bytes request, σ.server = .starting bytes request →
    decode bytes = some request ∧ (∀ h ∈ σ.handled, h.1 ≠ request.id) ∧ σ.handled.length < 1000
  executed : ∀ e ∈ σ.executions, (e.bytes, e.request) ∈ σ.jobs
  responding : ∀ bytes request response, σ.server = .responding bytes request response →
    ∃ e ∈ σ.executions, e.response = some response
  answer : ∀ response, σ.responseFile = some response →
    ∃ e ∈ σ.executions, e.response = some response

theorem Initial.served {σ : Channel ι} (h : Initial σ) : Served decode σ where
  ids := by rw [h.jobs]; exact List.nodup_nil
  limit := by rw [h.jobs]; exact Nat.zero_le _
  decoded := by rw [h.jobs]; intro job hjob; cases hjob
  handled := by rw [h.jobs, h.handled, h.server]; exact fun _ => rfl
  current := by rw [h.server]; intro _ hs; cases hs
  starting := by rw [h.server]; intro _ _ hs; cases hs
  executed := by rw [h.executions]; intro e he; cases he
  responding := by rw [h.server]; intro _ _ _ hs; cases hs
  answer := by rw [h.responseFile]; intro _ hr; cases hr

/-- Steps of the clients. -/
theorem Served.of_eq {σ τ : Channel ι} (hσ : Served decode σ) (hserver : τ.server = σ.server)
    (hhandled : τ.handled = σ.handled) (hjobs : τ.jobs = σ.jobs)
    (hexecutions : τ.executions = σ.executions) (hfile : τ.responseFile = σ.responseFile) :
    Served decode τ := by
  constructor
  · rw [hjobs]; exact hσ.ids
  · rw [hjobs]; exact hσ.limit
  · rw [hjobs]; exact hσ.decoded
  · rw [hserver, hjobs, hhandled]; exact hσ.handled
  · rw [hserver, hjobs]; exact hσ.current
  · rw [hserver, hhandled]; exact hσ.starting
  · rw [hexecutions, hjobs]; exact hσ.executed
  · rw [hserver, hexecutions]; exact hσ.responding
  · rw [hfile, hexecutions]; exact hσ.answer

/-- The executor moves on without a job. -/
theorem Served.idle {σ : Channel ι} (hσ : Served decode σ) {server : Server}
    (hcurrent : server ≠ .stopped → σ.server ≠ .stopped ∧ server.current = σ.server.current)
    (hstarting : ∀ bytes request, server = .starting bytes request →
      decode bytes = some request ∧ (∀ h ∈ σ.handled, h.1 ≠ request.id) ∧
        σ.handled.length < 1000)
    (hresponding : ∀ bytes request response, server ≠ .responding bytes request response) :
    Served decode { σ with server := server } where
  ids := hσ.ids
  limit := hσ.limit
  decoded := hσ.decoded
  handled := by
    intro hne
    obtain ⟨hwas, hsame⟩ := hcurrent hne
    rw [hsame]
    exact hσ.handled hwas
  current := by
    intro job hjob
    by_cases hne : server = .stopped
    · rw [hne] at hjob
      cases hjob
    · rw [(hcurrent hne).2] at hjob
      exact hσ.current job hjob
  starting := hstarting
  executed := hσ.executed
  responding := fun bytes request response h => absurd h (hresponding bytes request response)
  answer := hσ.answer

/-- **What `serve` does with what it read**: it runs it only when its id is new
and fewer than 1000 were run. -/
theorem accept_spec (decode : List UInt8 → Option ExecutionRequest) (σ : Channel ι) (bytes : List UInt8) :
    σ.accept decode bytes = .polling ∨ σ.accept decode bytes = .stopped ∨
      ∃ request, σ.accept decode bytes = .starting bytes request ∧
        decode bytes = some request ∧ (∀ h ∈ σ.handled, h.1 ≠ request.id) ∧
        σ.handled.length < 1000 := by
  rw [accept]
  split
  · exact Or.inr (Or.inl rfl)
  · rename_i request hdecode
    split
    · split
      · split
        · exact Or.inl rfl
        · exact Or.inr (Or.inl rfl)
      · rename_i hnone
        rw [List.find?_eq_none] at hnone
        split
        · rename_i hroom
          refine Or.inr (Or.inr ⟨request, rfl, hdecode, fun h hh heq => ?_, hroom⟩)
          exact hnone h hh (decide_eq_true heq)
        · exact Or.inr (Or.inl rfl)
    · exact Or.inr (Or.inl rfl)

/-- What was read is looked at. -/
theorem Served.accept {σ : Channel ι} (hσ : Served decode σ) {bytes : List UInt8}
    (hserver : σ.server = .read bytes) :
    Served decode { σ with server := σ.accept decode bytes } := by
  rcases accept_spec decode σ bytes with hnext | hnext | ⟨request, hnext, hfacts⟩
  · rw [hnext]
    refine hσ.idle (fun _ => ?_) (fun _ _ h => by cases h) fun _ _ _ h => by cases h
    rw [hserver]
    exact ⟨by simp, rfl⟩
  · rw [hnext]
    exact hσ.idle (fun hne => absurd rfl hne) (fun _ _ h => by cases h) fun _ _ _ h => by cases h
  · rw [hnext]
    refine hσ.idle (fun _ => ?_) (fun _ _ h => ?_) fun _ _ _ h => by cases h
    · rw [hserver]
      exact ⟨by simp, rfl⟩
    · cases h
      exact hfacts

/-- A job is created. -/
theorem Served.create {σ : Channel ι} (hσ : Served decode σ) {bytes : List UInt8}
    {request : ExecutionRequest} (hserver : σ.server = .starting bytes request) :
    Served decode
      { σ with server := .running bytes request, jobs := σ.jobs ++ [(bytes, request)] } := by
  obtain ⟨hdecode, hnew, hroom⟩ := hσ.starting bytes request hserver
  have hall : σ.jobs.map entry = σ.handled := by
    have hh := hσ.handled (by rw [hserver]; simp)
    rw [hserver] at hh
    rw [hh]
    exact List.append_nil _
  have hids : σ.jobs.map (fun job => job.2.id) = σ.handled.map Prod.fst := by
    rw [← hall, List.map_map]
    rfl
  constructor
  · change ((σ.jobs ++ [(bytes, request)]).map fun job => job.2.id).Nodup
    rw [List.map_append, List.nodup_append]
    refine ⟨hσ.ids, List.nodup_singleton _, fun a ha b hb hab => ?_⟩
    rw [hids] at ha
    obtain ⟨h, hh, rfl⟩ := List.mem_map.mp ha
    exact hnew h hh (hab.trans (List.mem_singleton.mp hb))
  · change (σ.jobs ++ [(bytes, request)]).length ≤ 1000
    have hlen : σ.jobs.length = σ.handled.length := by
      rw [← hall, List.length_map]
    rw [List.length_append, hlen]
    exact hroom
  · intro job hjob
    rcases List.mem_append.mp hjob with hold | hlast
    · exact hσ.decoded job hold
    · rw [List.mem_singleton.mp hlast]
      exact hdecode
  · intro _
    change (σ.jobs ++ [(bytes, request)]).map entry = _
    rw [List.map_append, hall]
    rfl
  · intro job hjob
    exact List.mem_append_right _ hjob
  · intro _ _ h
    cases h
  · intro e he
    exact List.mem_append_left _ (hσ.executed e he)
  · intro _ _ _ h
    cases h
  · exact hσ.answer

/-- A job ends. -/
theorem Served.finish {σ : Channel ι} (hσ : Served decode σ) {bytes : List UInt8}
    {request : ExecutionRequest} (outcome : JobOutcome) (late : Bool)
    (hserver : σ.server = .running bytes request) :
    Served decode { σ with
      server := match Execution.response ⟨bytes, request, outcome, late⟩ with
        | some response => .responding bytes request response
        | none => .stopped
      executions := σ.executions ++ [⟨bytes, request, outcome, late⟩] } := by
  have hall := hσ.handled (by rw [hserver]; simp)
  rw [hserver] at hall
  have hjob : (bytes, request) ∈ σ.jobs :=
    hσ.current _ (by rw [hserver]; exact List.mem_singleton_self _)
  refine ⟨hσ.ids, hσ.limit, hσ.decoded, fun hne => ?_, fun job h => ?_, fun _ _ h => ?_,
    fun e he => ?_, fun _ _ r h => ?_, fun r h => ?_⟩
  · dsimp only at hne ⊢
    split at hne
    · exact hall
    · exact absurd rfl hne
  · dsimp only at h
    split at h
    · rw [List.mem_singleton.mp h]
      exact hjob
    · cases h
  · dsimp only at h
    split at h <;> cases h
  · rcases List.mem_append.mp he with hold | hlast
    · exact hσ.executed e hold
    · rw [List.mem_singleton.mp hlast]
      exact hjob
  · dsimp only at h
    split at h
    · rename_i hresponse
      cases h
      exact ⟨_, List.mem_append_right _ (List.mem_singleton_self _), hresponse⟩
    · cases h
  · obtain ⟨e, he, hr⟩ := hσ.answer r h
    exact ⟨e, List.mem_append_left _ he, hr⟩

/-- The response is put in its place. -/
theorem Served.respond {σ : Channel ι} (hσ : Served decode σ) {bytes : List UInt8}
    {request : ExecutionRequest} {response : Response}
    (hserver : σ.server = .responding bytes request response) :
    Served decode
      { σ with server := .responded bytes request, responseFile := some response } := by
  have hall := hσ.handled (by rw [hserver]; simp)
  rw [hserver] at hall
  refine ⟨hσ.ids, hσ.limit, hσ.decoded, fun _ => hall, fun job h => ?_, fun _ _ h => ?_,
    hσ.executed, fun _ _ _ h => ?_, fun r h => ?_⟩
  · exact hσ.current job (by rw [hserver]; exact h)
  · cases h
  · cases h
  · rw [Option.some_inj] at h
    rw [← h]
    exact hσ.responding bytes request response hserver

/-- A request is handled. -/
theorem Served.handle {σ : Channel ι} (hσ : Served decode σ) {bytes : List UInt8}
    {request : ExecutionRequest} (hserver : σ.server = .responded bytes request) :
    Served decode
      { σ with server := .polling, handled := σ.handled ++ [entry (bytes, request)] } := by
  have hall := hσ.handled (by rw [hserver]; simp)
  rw [hserver] at hall
  refine ⟨hσ.ids, hσ.limit, hσ.decoded, fun _ => ?_, fun _ h => ?_, fun _ _ h => ?_,
    hσ.executed, fun _ _ _ h => ?_, hσ.answer⟩
  · rw [hall]
    exact (List.append_nil _).symm
  · cases h
  · cases h
  · cases h

/-- **Every step keeps it.** -/
theorem Served.step [DecidableEq ι] {σ τ : Channel ι} {e : Event ι} (hσ : Served decode σ)
    (h : Step requests dumps decode σ e τ) : Served decode τ := by
  cases h with
  | lock => exact hσ.of_eq rfl rfl rfl rfl rfl
  | stage => exact hσ.of_eq rfl rfl rfl rfl rfl
  | replace => exact hσ.of_eq rfl rfl rfl rfl rfl
  | poll => exact hσ.of_eq rfl rfl rfl rfl rfl
  | release => exact hσ.of_eq rfl rfl rfl rfl rfl
  | kill => exact hσ.of_eq rfl rfl rfl rfl rfl
  | overwrite => exact hσ.of_eq rfl rfl rfl rfl rfl
  | read bytes hserver =>
    refine hσ.idle (fun _ => ?_) (fun _ _ h => by cases h) fun _ _ _ h => by cases h
    rw [hserver]
    exact ⟨by simp, rfl⟩
  | decode bytes hserver => exact hσ.accept hserver
  | create bytes request hserver => exact hσ.create hserver
  | finish bytes request outcome late hserver => exact hσ.finish outcome late hserver
  | respond bytes request response hserver => exact hσ.respond hserver
  | handle bytes request hserver => exact hσ.handle hserver
  | stop =>
    exact hσ.idle (fun hne => absurd rfl hne) (fun _ _ h => by cases h) fun _ _ _ h => by cases h

end Server

/-! ### What the clients keep -/

section Clients
variable {ι : Type*} [DecidableEq ι] [Sha256] {requests : ι → ExecutionRequest}
  {dumps : ExecutionRequest → List UInt8} {decode : List UInt8 → Option ExecutionRequest}
  {σ τ : Channel ι} {e : Event ι}

/-- What a client took for its response bears its id and is of an execution. -/
def Answered (requests : ι → ExecutionRequest) (σ : Channel ι) : Prop :=
  ∀ i r, σ.client i = .answered r ∨ σ.client i = .returned r →
    r.id = (requests i).id ∧ ∃ e ∈ σ.executions, e.response = some r

/-- **The client lock is exclusive, and requests are those of the clients.** -/
structure Waited (requests : ι → ExecutionRequest) (dumps : ExecutionRequest → List UInt8)
    (σ : Channel ι) : Prop where
  lock : ∀ i, (σ.client i).holdsLock = true → σ.lock = some i
  waiting : ∀ i, σ.client i = .waiting → σ.requestFile = some (dumps (requests i))
  file : ∀ bytes, σ.requestFile = some bytes → ∃ i, bytes = dumps (requests i)
  pending : ∀ bytes, σ.server.pending = some bytes → ∃ i, bytes = dumps (requests i)
  jobs : ∀ job ∈ σ.jobs, ∃ i, job.1 = dumps (requests i)

omit [DecidableEq ι] [Sha256] in
theorem Initial.answered (h : Initial σ) : Answered requests σ := by
  intro i r hr
  rw [h.client] at hr
  rcases hr with hr | hr <;> cases hr

omit [DecidableEq ι] [Sha256] in
theorem Initial.waited (h : Initial σ) : Waited requests dumps σ where
  lock := by intro i hi; rw [h.client] at hi; cases hi
  waiting := by intro i hi; rw [h.client] at hi; cases hi
  file := by intro _ hf; rw [h.requestFile] at hf; cases hf
  pending := by intro _ hs; rw [h.server] at hs; cases hs
  jobs := by intro _ hj; rw [h.jobs] at hj; cases hj

omit [Sha256] in
theorem setClient_self (σ : Channel ι) (i : ι) (c : Caller) : (σ.setClient i c).client i = c := by
  simp only [setClient, Function.update_self]

omit [Sha256] in
theorem setClient_of_ne (σ : Channel ι) {i j : ι} (h : j ≠ i) (c : Caller) :
    (σ.setClient i c).client j = σ.client j := by
  simp only [setClient, Function.update_of_ne h]

omit [Sha256] in
/-- A client moves on and takes no response. -/
theorem Answered.move (hσ : Answered requests σ) {i : ι} {c : Caller}
    (hc : ∀ r, c ≠ .answered r ∧ (c = .returned r → σ.client i = .answered r)) :
    Answered requests (σ.setClient i c) := by
  intro j r hr
  by_cases hj : j = i
  · rw [hj, setClient_self] at hr
    rcases hr with hr | hr
    · exact absurd hr (hc r).1
    · rw [hj]
      exact hσ i r (Or.inl ((hc r).2 hr))
  · rw [setClient_of_ne _ hj] at hr
    exact hσ j r hr

theorem Answered.step (hσ : Answered requests σ) (hserved : Served decode σ)
    (h : Step requests dumps decode σ e τ) : Answered requests τ := by
  cases h with
  | lock i =>
    have hmove : Answered requests (σ.setClient i .locked) :=
      hσ.move fun r => ⟨by simp, fun h => by cases h⟩
    exact hmove
  | stage i => exact hσ.move fun r => ⟨by simp, fun h => by cases h⟩
  | replace i =>
    have hmove : Answered requests (σ.setClient i .waiting) :=
      hσ.move fun r => ⟨by simp, fun h => by cases h⟩
    exact hmove
  | poll i r hc hread hid =>
    intro j q hq
    by_cases hj : j = i
    · rw [hj, setClient_self] at hq
      rcases hq with hq | hq
      · cases hq
        rw [hj]
        exact ⟨hid, hserved.answer r hread⟩
      · cases hq
    · rw [setClient_of_ne _ hj] at hq
      exact hσ j q hq
  | release i r hc =>
    have hmove : Answered requests (σ.setClient i (.returned r)) := by
      refine hσ.move fun q => ⟨by simp, fun h => ?_⟩
      cases h
      exact hc
    exact hmove
  | kill i =>
    have hmove : Answered requests (σ.setClient i .killed) :=
      hσ.move fun r => ⟨by simp, fun h => by cases h⟩
    exact hmove
  | finish bytes request outcome late hserver =>
    intro i r hr
    obtain ⟨hid, e, he, hresponse⟩ := hσ i r hr
    exact ⟨hid, e, List.mem_append_left _ he, hresponse⟩
  | _ => exact hσ

omit [Sha256] in
/-- A client moves on within the lock, or gives it up. -/
theorem Waited.move (hσ : Waited requests dumps σ) {i : ι} {c : Caller} {lock : Option ι}
    (hheld : c.holdsLock = true → lock = some i)
    (hothers : ∀ j, j ≠ i → σ.lock = some j → lock = some j) (hc : c ≠ .waiting) :
    Waited requests dumps { σ.setClient i c with lock := lock } where
  lock := by
    intro j hj
    by_cases heq : j = i
    · rw [heq] at hj ⊢
      refine hheld ?_
      rw [← setClient_self σ i c]
      exact hj
    · refine hothers j heq (hσ.lock j ?_)
      rw [← setClient_of_ne σ heq c]
      exact hj
  waiting := by
    intro j hj
    by_cases heq : j = i
    · have hself : (σ.setClient i c).client i = .waiting := heq ▸ hj
      rw [setClient_self] at hself
      exact absurd hself hc
    · refine hσ.waiting j ?_
      rw [← setClient_of_ne σ heq c]
      exact hj
  file := hσ.file
  pending := hσ.pending
  jobs := hσ.jobs

/-- **Every step but a foreign write keeps it.** -/
theorem Waited.step (hσ : Waited requests dumps σ) (h : Step requests dumps decode σ e τ)
    (hno : ∀ bytes, e ≠ .overwrite bytes) : Waited requests dumps τ := by
  cases h with
  | lock i hc hrunnable hfree =>
    refine hσ.move (fun _ => rfl) (fun j _ hj => ?_) (by simp)
    rw [hfree] at hj
    cases hj
  | stage i hc =>
    have hlock := hσ.lock i (by rw [hc]; rfl)
    exact hσ.move (fun _ => hlock) (fun _ _ hj => hj) (by simp)
  | replace i hc =>
    have hlock := hσ.lock i (by rw [hc]; rfl)
    refine ⟨fun j hj => ?_, fun j hj => ?_, fun bytes hf => ?_, hσ.pending, hσ.jobs⟩
    · by_cases heq : j = i
      · rw [heq]
        exact hlock
      · refine hσ.lock j ?_
        rw [← setClient_of_ne σ heq .waiting]
        exact hj
    · by_cases heq : j = i
      · rw [heq]
      · -- nobody else waits while `i` has the lock
        have hwait : σ.client j = .waiting := by
          rw [← setClient_of_ne σ heq .waiting]
          exact hj
        have hother := hσ.lock j (by rw [hwait]; rfl)
        rw [hlock, Option.some_inj] at hother
        exact absurd hother.symm heq
    · rw [Option.some_inj] at hf
      exact ⟨i, hf.symm⟩
  | poll i r hc =>
    have hlock := hσ.lock i (by rw [hc]; rfl)
    exact hσ.move (fun _ => hlock) (fun _ _ hj => hj) (by simp)
  | release i r hc =>
    have hlock := hσ.lock i (by rw [hc]; rfl)
    refine hσ.move (fun h => by cases h) (fun j hne hj => ?_) (by simp)
    rw [hlock, Option.some_inj] at hj
    exact absurd hj.symm hne
  | kill i hc =>
    refine hσ.move (fun h => by cases h) (fun j hne hj => ?_) (by simp)
    rw [hj, if_neg]
    rw [Option.some_inj]
    exact hne
  | overwrite bytes => exact absurd rfl (hno bytes)
  | read bytes hserver hfile =>
    refine ⟨hσ.lock, hσ.waiting, hσ.file, fun b hb => ?_, hσ.jobs⟩
    rw [Server.pending, Option.some_inj] at hb
    rw [← hb]
    exact hσ.file bytes hfile
  | decode bytes hserver =>
    have hread := hσ.pending bytes (by rw [hserver]; rfl)
    refine ⟨hσ.lock, hσ.waiting, hσ.file, fun b hb => ?_, hσ.jobs⟩
    rcases accept_spec decode σ bytes with hnext | hnext | ⟨request, hnext, _⟩
    · rw [hnext] at hb
      cases hb
    · rw [hnext] at hb
      cases hb
    · rw [hnext, Server.pending, Option.some_inj] at hb
      rw [← hb]
      exact hread
  | create bytes request hserver =>
    have hread := hσ.pending bytes (by rw [hserver]; rfl)
    refine ⟨hσ.lock, hσ.waiting, hσ.file, fun b hb => ?_, fun job hjob => ?_⟩
    · cases hb
    · rcases List.mem_append.mp hjob with hold | hlast
      · exact hσ.jobs job hold
      · rw [List.mem_singleton.mp hlast]
        exact hread
  | finish bytes request outcome late hserver =>
    refine ⟨hσ.lock, hσ.waiting, hσ.file, fun b hb => ?_, hσ.jobs⟩
    dsimp only at hb
    split at hb <;> cases hb
  | respond => exact ⟨hσ.lock, hσ.waiting, hσ.file, fun b hb => (by cases hb), hσ.jobs⟩
  | handle => exact ⟨hσ.lock, hσ.waiting, hσ.file, fun b hb => (by cases hb), hσ.jobs⟩
  | stop => exact ⟨hσ.lock, hσ.waiting, hσ.file, fun b hb => (by cases hb), hσ.jobs⟩

end Clients

/-! ### Every run -/

section Runs
variable {ι : Type*} [DecidableEq ι] [Sha256] {requests : ι → ExecutionRequest}
  {dumps : ExecutionRequest → List UInt8} {decode : List UInt8 → Option ExecutionRequest}
  {σ τ : Channel ι} {taken : List (Channel ι × Event ι)}

theorem run_served (h0 : Initial σ)
    (hrun : Transition.Run (Step requests dumps decode) σ taken τ) :
    Served decode τ ∧ Answered requests τ := by
  refine hrun.invariant (I := fun τ => Served decode τ ∧ Answered requests τ) ?_
    ⟨h0.served, h0.answered⟩
  intro σ e τ hσ hst
  exact ⟨hσ.1.step hst, hσ.2.step hσ.1 hst⟩

theorem run_waited (h0 : Initial σ)
    (hrun : Transition.Run (Step requests dumps decode) σ taken τ)
    (hno : ∀ p ∈ taken, ∀ bytes, p.2 ≠ .overwrite bytes) : Waited requests dumps τ :=
  hrun.guarded (fun _ e => ∀ bytes, e ≠ .overwrite bytes)
    (fun _ _ _ hσ hok hst => hσ.step hst hok) hno h0.waited

/-- **The channel pairs requests and responses.**  While only `grading-run`
processes write requests, a client that returned has the response to the
execution of its own request, and the request of a waiting client is not
overwritten.  Whoever writes them, an id is executed at most once, at most 1000
requests are executed, other content under a used id is never executed or
answered, and what is answered was executed. -/
theorem paired (hids : Function.Injective fun i => (requests i).id)
    (hjson : ∀ i, decode (dumps (requests i)) = some (requests i)) (h0 : Initial σ)
    (hrun : Transition.Run (Step requests dumps decode) σ taken τ) :
    ((∀ p ∈ taken, ∀ bytes, p.2 ≠ .overwrite bytes) →
      (∀ i r, τ.client i = .returned r →
        ∃ e ∈ τ.executions, e.request = requests i ∧ e.response = some r) ∧
      ∀ i, τ.client i = .waiting → τ.requestFile = some (dumps (requests i))) ∧
    (τ.jobs.map fun job => job.2.id).Nodup ∧ τ.jobs.length ≤ 1000 ∧
    (∀ job ∈ τ.jobs, ∀ bytes request, request.id = job.2.id → bytes ≠ job.1 →
      (bytes, request) ∉ τ.jobs ∧ ∀ e ∈ τ.executions, (e.bytes, e.request) ≠ (bytes, request)) ∧
    ∀ r, τ.responseFile = some r →
      ∃ e ∈ τ.executions, (e.bytes, e.request) ∈ τ.jobs ∧ e.response = some r := by
  obtain ⟨hserved, hanswered⟩ := run_served h0 hrun
  have hother : ∀ job ∈ τ.jobs, ∀ bytes request, request.id = job.2.id → bytes ≠ job.1 →
      (bytes, request) ∉ τ.jobs := by
    intro job hjob bytes request hid hne hmem
    have hsame := List.inj_on_of_nodup_map hserved.ids hmem hjob hid
    exact hne (congrArg Prod.fst hsame)
  refine ⟨fun hno => ⟨fun i r hr => ?_, (run_waited h0 hrun hno).waiting⟩, hserved.ids,
    hserved.limit, fun job hjob bytes request hid hne => ?_, fun r hr => ?_⟩
  · obtain ⟨hid, e, he, hresponse⟩ := hanswered i r (Or.inr hr)
    refine ⟨e, he, ?_, hresponse⟩
    have hjob := hserved.executed e he
    -- the bytes executed are the request of some client, and its id tells which
    obtain ⟨j, hj⟩ := (run_waited h0 hrun hno).jobs _ hjob
    have hdecode := hserved.decoded _ hjob
    dsimp only at hj hdecode
    rw [hj, hjson, Option.some_inj] at hdecode
    have heq : (requests j).id = (requests i).id := by
      rw [hdecode, ← Execution.id_of_response hresponse, hid]
    rw [← hids heq, hdecode]
  · refine ⟨hother job hjob bytes request hid hne, fun e he heq => ?_⟩
    have hjob' := hserved.executed e he
    rw [heq] at hjob'
    exact hother job hjob bytes request hid hne hjob'
  · obtain ⟨e, he, hresponse⟩ := hserved.answer r hr
    exact ⟨e, he, hserved.executed e he, hresponse⟩

end Runs

end Channel

namespace Sample

attribute [local instance] Sha256.standard

/-- The requests of two processes. -/
def script (i : Fin 2) : ExecutionRequest := ⟨Fin.ofNat _ i.val, ["/bin/true"], "", 30⟩

/-- Their texts. -/
def scriptText (r : ExecutionRequest) : List UInt8 :=
  (("\x7b\"id\": \"".toList ++ r.id.text ++
    "\", \"command\": [\"/bin/true\"], \"stdin\": \"\", \"timeout_seconds\": 30\x7d".toList).map
    fun c => UInt8.ofNat c.toNat)

def scriptOf (bytes : List UInt8) : Option ExecutionRequest :=
  if bytes = scriptText (script 0) then some (script 0)
  else if bytes = scriptText (script 1) then some (script 1)
  else none

def idle : Channel (Fin 2) where
  lock := none
  requestFile := none
  responseFile := none
  client := fun _ => .starting
  server := .polling
  handled := []
  jobs := []
  executions := []

theorem idle_initial : Channel.Initial idle :=
  ⟨rfl, rfl, rfl, fun _ => rfl, rfl, rfl, rfl, rfl⟩

/-- The job of the first request ran. -/
def ran : Execution := ⟨scriptText (script 0), script 0, .output 0 "ok", false⟩

/-- **The first process gets the response to its request.** -/
theorem paired_first : ∃ τ : Channel (Fin 2), ∃ taken,
    Transition.Run (Channel.Step script scriptText scriptOf) idle taken τ ∧
    τ.client 0 = .returned ⟨0, 0, "ok", false, none⟩ ∧
    ∃ e ∈ τ.executions, e.request = script 0 ∧ e.response = some ⟨0, 0, "ok", false, none⟩ := by
  have hjson : ∀ i, scriptOf (scriptText (script i)) = some (script i) := by decide +kernel
  have hids : ∀ i j, (script i).id = (script j).id → i = j := by decide +kernel
  have haccept : idle.accept scriptOf (scriptText (script 0)) =
      .starting (scriptText (script 0)) (script 0) := by decide +kernel
  have hresponse : ran.response = some ⟨0, 0, "ok", false, none⟩ := by decide +kernel
  have hrun : ∃ τ : Channel (Fin 2), ∃ taken,
      Transition.Run (Channel.Step script scriptText scriptOf) idle taken τ ∧
      (∀ p ∈ taken, ∀ bytes, p.2 ≠ .overwrite bytes) ∧
      τ.client 0 = .returned ⟨0, 0, "ok", false, none⟩ := by
    have h₁ : Transition.Run (Channel.Step script scriptText scriptOf) idle [] idle := .nil
    have h₂ := h₁.snoc (.lock _ 0 rfl (by decide +kernel) rfl)
    have h₃ := h₂.snoc (.stage _ 0 rfl)
    have h₄ := h₃.snoc (.replace _ 0 rfl)
    have h₅ := h₄.snoc (.read _ (scriptText (script 0)) rfl rfl (by decide +kernel))
    have h₆ := h₅.snoc (.decode _ (scriptText (script 0)) rfl)
    have h₇ := h₆.snoc (.create _ (scriptText (script 0)) (script 0) haccept)
    have h₈ := h₇.snoc (.finish _ (scriptText (script 0)) (script 0) (.output 0 "ok") false rfl)
    have h₉ := h₈.snoc (.respond _ (scriptText (script 0)) (script 0) ⟨0, 0, "ok", false, none⟩
      (by simp only [show Execution.response ⟨scriptText (script 0), script 0, .output 0 "ok",
        false⟩ = some ⟨0, 0, "ok", false, none⟩ from hresponse]))
    have h₁₀ := h₉.snoc (.poll _ 0 ⟨0, 0, "ok", false, none⟩ rfl rfl rfl)
    have h₁₁ := h₁₀.snoc (.release _ 0 ⟨0, 0, "ok", false, none⟩ rfl)
    refine ⟨_, _, h₁₁, fun p hp bytes => ?_, rfl⟩
    simp only [List.nil_append, List.cons_append, List.mem_cons,
      List.not_mem_nil, or_false] at hp
    rcases hp with h | h | h | h | h | h | h | h | h | h <;> simp [h]
  obtain ⟨τ, taken, hrun, hno, hreturned⟩ := hrun
  exact ⟨τ, taken, hrun, hreturned,
    ((Channel.paired hids hjson idle_initial hrun).1 hno).1 0 _ hreturned⟩

end Sample

end Grading

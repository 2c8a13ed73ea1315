import SrgGrading.Core.IntegrityCheck
import SrgGrading.Core.PublicTests
import SrgGrading.Core.Sizes
import SrgGrading.Executor.Transcripts
import SrgGrading.Store.Artifacts

/-!
# The result of an execution

The executor checks the submission against the manifest of its lease, runs the
grading script and reports what came of it.

* `executeInner_built`: what a result is made of.
* `push_bounded`: what is kept of the logs.
* `sizes_agree`: documents that are accepted by one component are not too large
  for another.
-/

open Fallible

namespace Grading

/-! ### The execution -/

/-- What a run meets: the answers of the configuration, the server and the
cluster. -/
structure Surroundings where
  /-- `Config::approve` -/
  approve : Lease → Except Error Unit
  /-- `caching::verify` -/
  verify : Seed → Except Error Unit
  source : Except Error (List UInt8)
  decode : List UInt8 → Except Error Snapshot
  /-- The files are written, the source of the grader too, and the deadline of
  a private run is over. -/
  stage : Snapshot → Except Error Unit
  /-- The job of the script, which was deleted after it ended. -/
  controller : Except Error JobOutcome
  decodeScore : String → Except Error ScriptScore
  /-- What the jobs push, with whether students see it. -/
  pushes : List (Bool × String)
  /-- Stage and reason of an error. -/
  describe : Error → String × String

inductive WorkflowOutcome
  | scored (score : ScriptScore)
  | failed (status : RunStatus)

def initialResult (lease : Lease) : RunResult where
  logs := []
  schemaVersion := 1
  leaseToken := lease.leaseToken
  runId := lease.runId
  sha := lease.sha
  revisionDigest := lease.revisionDigest
  image := lease.revision.assignment.image
  resources := lease.revision.assignment.resources
  status := .infrastructureFailed
  findings := []
  score := none

/-- The finding for a tree that cannot be checked. -/
def unsafeTree : Finding := ⟨"(snapshot)", "Unsafe or unsupported source tree"⟩

namespace Surroundings

/-- `workflow::execute`, from the end of the script on. -/
def workflow (w : Surroundings) (lease : Lease) : Except Error WorkflowOutcome := do
  match ← w.controller with
  | .output code output =>
    if code = 0 then do
      check (Text.len output ≤ 65536) "script result exceeds limit"
      let result ← w.decodeScore output
      result.validate lease.revision.assignment.maxPoints lease.baseline
      return .scored result
    else return .failed .infrastructureFailed
  | .failed status => return .failed status
  | .studentFailure _ => return .failed .infrastructureFailed

/-- The cache of the revision, where it has one. -/
def verifySeed (w : Surroundings) (lease : Lease) : Except Error Unit :=
  match lease.revision.grader.bind Grader.caching with
  | some seed => w.verify seed
  | none => return

/-- What follows the integrity check. -/
def grade (w : Surroundings) (lease : Lease) (snapshot : Snapshot) :
    Except Error RunResult := do
  w.stage snapshot
  match ← w.workflow lease with
  | .scored score =>
    return { initialResult lease with
      status := if score.invalidated then .invalidated else .completed
      score := some score }
  | .failed status => return { initialResult lease with status := status }

variable [Sha256]

def executeInner (w : Surroundings) (lease : Lease) : Except Error RunResult :=
  match w.approve lease with
  | .error _ => return initialResult lease
  | .ok _ => do
    w.verifySeed lease
    let bytes ← w.source
    check (digest bytes = lease.sourceDigest) "submission_digest_verify"
    let snapshot ← w.decode bytes
    check (snapshot.sha = lease.sha) "submission_commit_verify"
    match lease.revision.manifest.check snapshot with
    | .error _ =>
      return { initialResult lease with status := .integrityFailed, findings := [unsafeTree] }
    | .ok findings =>
      if findings ≠ [] then
        return { initialResult lease with status := .integrityFailed, findings := findings }
      else w.grade lease snapshot

/-- The text pushed when a run stops. -/
def stopped (w : Surroundings) (e : Error) : String :=
  "Execution stopped because of an infrastructure or grader error (stage: " ++ (w.describe e).1 ++
    ", reason: " ++ (w.describe e).2 ++ "). Contact your instructor.\n"

/-- What the jobs pushed. -/
def captured (w : Surroundings) : List RunLog :=
  w.pushes.foldl (fun logs p => Transcripts.push p.1 p.2 logs) []

def execute (w : Surroundings) (lease : Lease) : RunResult :=
  match w.executeInner lease with
  | .ok result => { result with logs := w.captured }
  | .error e =>
    { initialResult lease with
      logs := Transcripts.push lease.baseline.isNone (w.stopped e) w.captured }

/-- What comes of a submission that is delivered and passes the checks. -/
theorem executeInner_of_found {w : Surroundings} {lease : Lease} {bytes : List UInt8}
    {snapshot : Snapshot} {found : List Finding} (happrove : w.approve lease = .ok ())
    (hseed : w.verifySeed lease = .ok ()) (hsource : w.source = .ok bytes)
    (hdigest : digest bytes = lease.sourceDigest) (hdecode : w.decode bytes = .ok snapshot)
    (hsha : snapshot.sha = lease.sha) (hfound : lease.revision.manifest.check snapshot = .ok found) :
    w.executeInner lease =
      if found ≠ [] then
        .ok { initialResult lease with status := .integrityFailed, findings := found }
      else w.grade lease snapshot := by
  have hbind : ∀ {α β : Type} (a : α) (f : α → Except Error β), (Except.ok a >>= f) = f a :=
    fun _ _ => rfl
  unfold executeInner
  rw [happrove]
  dsimp only
  rw [hseed, hsource, hbind, hbind, check, ensure, decide_eq_true hdigest, if_pos rfl, hbind,
    hdecode, hbind, check, ensure, decide_eq_true hsha, if_pos rfl, hbind, hfound]
  rfl

end Surroundings

/-! ### The logs -/

/-- What a run may keep. -/
structure LogsBounded (logs : List RunLog) : Prop where
  count : logs.length ≤ 128
  total : (logs.map fun log => Text.len log.text).sum ≤ maxRunLogBytes

theorem push_bounded {visible : Bool} {text : String} {logs : List RunLog} (h : LogsBounded logs) :
    LogsBounded (Transcripts.push visible text logs) := by
  rw [Transcripts.push]
  split
  · exact h
  · rename_i hroom
    dsimp only
    split
    · exact h
    · have htotal := h.total
      have hfits := (Transcripts.truncateTo_longest
        (maxRunLogBytes - (logs.map fun log => Text.len log.text).sum) text.toList).small
      refine ⟨?_, ?_⟩
      · rw [List.length_append, List.length_singleton]
        omega
      · rw [List.map_append, List.sum_append, List.map_singleton, List.sum_singleton]
        dsimp only
        rw [← utf8Len_toList, String.toList_ofList]
        omega

theorem foldl_bounded {pushes : List (Bool × String)} {logs : List RunLog} (h : LogsBounded logs) :
    LogsBounded (pushes.foldl (fun logs p => Transcripts.push p.1 p.2 logs) logs) := by
  induction pushes generalizing logs with
  | nil => exact h
  | cons p rest ih => exact ih (push_bounded h)

theorem captured_bounded (w : Surroundings) : LogsBounded w.captured :=
  foldl_bounded ⟨Nat.zero_le _, Nat.zero_le _⟩

/-! ### What a result is made of -/

/-- The provenance and the environment of the lease, the findings of the check,
and a score that was validated. -/
structure Built [Sha256] (w : Surroundings) (lease : Lease) (r : RunResult) : Prop where
  same : { r with logs := [], status := .infrastructureFailed, findings := [], score := none } =
    initialResult lease
  findings : r.findings = [] ∨ r.findings = [unsafeTree] ∨
    ∃ bytes snapshot, w.source = .ok bytes ∧ w.decode bytes = .ok snapshot ∧
      lease.revision.manifest.check snapshot = .ok r.findings
  score : ∀ s ∈ r.score,
    s.validate lease.revision.assignment.maxPoints lease.baseline = .ok ()

section Execution
variable {w : Surroundings} {lease : Lease} {r : RunResult}

theorem workflow_scored {score : ScriptScore} (h : w.workflow lease = .ok (.scored score)) :
    score.validate lease.revision.assignment.maxPoints lease.baseline = .ok () := by
  rw [Surroundings.workflow] at h
  simp only [bind_ok] at h
  obtain ⟨outcome, _, h⟩ := h
  cases outcome with
  | output code output =>
    dsimp only at h
    split at h
    · simp only [bind_ok, pure_ok] at h
      obtain ⟨_, _, result, _, _, hvalid, heq⟩ := h
      cases heq
      exact hvalid
    · cases h
  | studentFailure reason => cases h
  | failed status => cases h

variable [Sha256]

theorem initialResult_built : Built w lease (initialResult lease) :=
  ⟨rfl, Or.inl rfl, fun s hs => by cases hs⟩

theorem grade_built {snapshot : Snapshot} (h : w.grade lease snapshot = .ok r) :
    Built w lease r := by
  rw [Surroundings.grade] at h
  simp only [bind_ok] at h
  obtain ⟨_, _, outcome, houtcome, h⟩ := h
  cases outcome with
  | scored score =>
    cases h
    refine ⟨rfl, Or.inl rfl, fun s hs => ?_⟩
    cases hs
    exact workflow_scored houtcome
  | failed status =>
    cases h
    exact ⟨rfl, Or.inl rfl, fun s hs => by cases hs⟩

theorem executeInner_built (h : w.executeInner lease = .ok r) : Built w lease r := by
  rw [Surroundings.executeInner] at h
  split at h
  · cases h
    exact initialResult_built
  · simp only [bind_ok] at h
    obtain ⟨_, _, bytes, hbytes, _, _, snapshot, hsnapshot, _, _, h⟩ := h
    split at h
    · cases h
      exact ⟨rfl, Or.inr (Or.inl rfl), fun s hs => by cases hs⟩
    · rename_i findings hfindings
      split at h
      · cases h
        exact ⟨rfl, Or.inr (Or.inr ⟨bytes, snapshot, hbytes, hsnapshot, hfindings⟩),
          fun s hs => by cases hs⟩
      · exact grade_built h

/-- **Every result of an execution.** -/
theorem execute_built (w : Surroundings) (lease : Lease) :
    Built w lease (w.execute lease) ∧ LogsBounded (w.execute lease).logs := by
  rw [Surroundings.execute]
  split
  · rename_i result hresult
    have h := executeInner_built hresult
    exact ⟨⟨h.same, h.findings, h.score⟩, captured_bounded w⟩
  · have h : Built w lease (initialResult lease) := initialResult_built
    exact ⟨⟨h.same, h.findings, h.score⟩, push_bounded (captured_bounded w)⟩

end Execution

/-! ### How long a result is -/

section Sizes

theorem size_finding (f : Finding) :
    f.toJson.size = Json.strSize f.path.toList + (stringJson f.reason).size + 19 := by
  have hkeys : Json.strSize "path".toList = 6 ∧ Json.strSize "reason".toList = 8 := by decide
  rw [Finding.toJson, Json.size_obj_cons]
  simp only [member, Json.membersSize_cons, Json.membersSize_nil, hkeys]
  rw [stringJson, Json.size_str]
  omega

/-- Findings as items. -/
def findingsSize (findings : List Finding) : Nat :=
  Json.itemsSize (findings.map Finding.toJson)

theorem findingsSize_cons (f : Finding) (findings : List Finding) :
    findingsSize (f :: findings) = f.toJson.size + 1 + findingsSize findings := by
  rw [findingsSize, List.map_cons, Json.itemsSize_cons, findingsSize]

theorem findingsSize_append (a b : List Finding) :
    findingsSize (a ++ b) = findingsSize a + findingsSize b := by
  induction a with
  | nil => rw [List.nil_append]; exact (Nat.zero_add _).symm
  | cons f a ih =>
    rw [List.cons_append, findingsSize_cons, findingsSize_cons, ih]
    omega

variable {manifest : Manifest} {snapshot : Snapshot}

theorem changed_reason [Sha256] {expected : ProtectedFile} {blob : Option Blob} {reason : String}
    (h : Manifest.changed expected blob = .ok (some reason)) : (stringJson reason).size ≤ 17 := by
  have hall : ∀ reason ∈ ["deleted", "mode changed", "content changed"],
      (stringJson reason).size ≤ 17 := by decide
  refine hall reason ?_
  cases blob with
  | none =>
    cases h
    decide
  | some blob =>
    rw [Manifest.changed] at h
    split at h
    · cases h
      decide
    · simp only [bind_ok, pure_ok] at h
      obtain ⟨bytes, _, h⟩ := h
      split at h
      · cases h
        decide
      · cases h

/-- A protected file takes more than a finding about it. -/
theorem size_protected {path : String} {file : ProtectedFile}
    (h : manifest.validateFile (path, file) = .ok ()) : 93 ≤ file.toJson.size := by
  obtain ⟨_, _, hhex, hmode⟩ := Manifest.validateFile_ok.mp h
  have hkeys : Json.strSize "mode".toList = 6 ∧ Json.strSize "sha256".toList = 8 := by decide
  have hmodeSize : (stringJson file.mode).size = 8 := by
    rw [regularMode, Bool.or_eq_true, decide_eq_true_eq, decide_eq_true_eq] at hmode
    rcases hmode with hmode | hmode <;> rw [hmode] <;> decide
  have hdigest : 66 ≤ (stringJson file.sha256).size := by
    rw [Text.validHex, Bool.and_eq_true, decide_eq_true_eq] at hhex
    have hle := Json.le_strSize file.sha256.toList
    rw [utf8Len_toList] at hle
    rw [stringJson, Json.size_str]
    omega
  rw [ProtectedFile.toJson, Json.size_obj_cons]
  simp only [member, Json.membersSize_cons, Json.membersSize_nil, hkeys, hmodeSize]
  omega

/-- **The findings about protected files** take no more than the files. -/
theorem findingsSize_changes [Sha256] {l : List (String × ProtectedFile)} {found : List Finding}
    (hfiles : ∀ e ∈ l, manifest.validateFile e = .ok ())
    (h : Manifest.changes snapshot l = .ok found) :
    findingsSize found ≤ Json.membersSize (l.map fun e => member e.1 e.2.toJson) := by
  induction l generalizing found with
  | nil =>
    cases h
    exact le_refl _
  | cons e l ih =>
    obtain ⟨path, expected⟩ := e
    obtain ⟨hfirst, hrest⟩ := List.forall_mem_cons.mp hfiles
    simp only [Manifest.changes, bind_ok, pure_ok] at h
    obtain ⟨reason, hreason, later, hlater, rfl⟩ := h
    have hle := ih hrest hlater
    have hsize := size_protected hfirst
    rw [findingsSize_append, List.map_cons, Json.membersSize_cons, member]
    dsimp only
    cases reason with
    | none =>
      have hnone : findingsSize
          (Option.map (fun reason => (⟨path, reason⟩ : Finding)) none).toList = 0 := rfl
      omega
    | some reason =>
      have hsome := changed_reason hreason
      have hfinding := size_finding ⟨path, reason⟩
      rw [Option.map_some, Option.toList_some, findingsSize_cons]
      dsimp only at hfinding
      have hnil : findingsSize [] = 0 := rfl
      omega

theorem unexpected_reason {path reason : String} {blob : Blob}
    (h : manifest.unexpected path blob = some reason) : (stringJson reason).size ≤ 34 := by
  have hall : ∀ reason ∈ ["unapproved addition", "unsupported symlink or submodule"],
      (stringJson reason).size ≤ 34 := by decide
  refine hall reason ?_
  rw [Manifest.unexpected] at h
  split at h
  · cases h
    decide
  · split at h
    · cases h
      decide
    · cases h

/-- The findings about files that were added. -/
theorem findingsSize_additions {l : List (String × Blob)}
    (h : ∀ path blob, (path, blob) ∈ l → FileWellFormed path blob) :
    findingsSize (l.filterMap fun e =>
      (manifest.unexpected e.1 e.2).map fun reason => ⟨e.1, reason⟩) ≤ 2104 * l.length := by
  induction l with
  | nil => exact le_refl _
  | cons e l ih =>
    obtain ⟨path, blob⟩ := e
    have hrest := ih fun path blob hm => h path blob (List.mem_cons_of_mem _ hm)
    have hpath := strSize_path_le (h path blob List.mem_cons_self).path
    rw [List.length_cons]
    cases hreason : manifest.unexpected path blob with
    | none =>
      rw [List.filterMap_cons_none (by simp [hreason])]
      omega
    | some reason =>
      have hsome := unexpected_reason hreason
      have hfinding := size_finding ⟨path, reason⟩
      dsimp only at hfinding
      rw [List.filterMap_cons_some (b := ⟨path, reason⟩) (by simp [hreason]), findingsSize_cons]
      omega

/-- **The findings of a check.** -/
theorem findingsSize_check [Sha256] {findings : List Finding} (hcount : snapshot.files.size ≤ 512)
    (h : manifest.check snapshot = .ok findings) :
    findingsSize findings ≤ manifest.toJson.size + 1077248 := by
  simp only [Manifest.check, bind_ok, pure_ok] at h
  obtain ⟨_, hvalid, _, hstructure, found, hfound, rfl⟩ := h
  simp only [Manifest.validate, bind_ok, each_ok] at hvalid
  obtain ⟨_, _, _, _, hfiles⟩ := hvalid
  simp only [Snapshot.validateStructure, bind_ok, check_ok, decide_eq_true_eq,
    Snapshot.validateFiles_iff (Nat.zero_le _)] at hstructure
  obtain ⟨_, _, _, _, hwell, _⟩ := hstructure
  have hchanges := findingsSize_changes hfiles hfound
  have hadditions : findingsSize (manifest.additions snapshot) ≤
      2104 * snapshot.files.entries.length := findingsSize_additions hwell
  have hmanifest : Json.membersSize (manifest.files.entries.map fun e => member e.1 e.2.toJson) ≤
      manifest.toJson.size := by
    have hobj := Json.le_size_obj (manifest.files.entries.map fun e => member e.1 e.2.toJson)
    rw [Manifest.toJson]
    generalize manifest.files.entries.map (fun e => member e.1 e.2.toJson) = members at hobj ⊢
    rw [Json.size_obj_cons]
    simp only [member, Json.membersSize_cons, Json.membersSize_nil]
    omega
  rw [OrderedMap.size] at hcount
  rw [findingsSize_append]
  omega

/-- Logs as items. -/
theorem size_logs {logs : List RunLog} (h : LogsBounded logs) :
    Json.itemsSize (logs.map RunLog.toJson) ≤ 1577472 := by
  have hkeys : Json.strSize "student_visible".toList = 17 ∧ Json.strSize "text".toList = 6 := by
    decide
  have hitem : ∀ log : RunLog, log.toJson.size + 1 ≤ 6 * Text.len log.text + 36 := by
    intro log
    have hbool := Json.size_bool log.studentVisible
    have htext := size_stringJson_le log.text
    rw [RunLog.toJson, Json.size_obj_cons]
    simp only [member, Json.membersSize_cons, Json.membersSize_nil, hkeys]
    omega
  have hsum : ∀ l : List RunLog, Json.itemsSize (l.map RunLog.toJson) ≤
      6 * (l.map fun log => Text.len log.text).sum + 36 * l.length := by
    intro l
    induction l with
    | nil => exact le_refl _
    | cons log l ih =>
      have hlog := hitem log
      rw [List.map_cons, Json.itemsSize_cons, List.map_cons, List.sum_cons, List.length_cons]
      omega
  have htotal := h.total
  have hcount := h.count
  have hle := hsum logs
  rw [maxRunLogBytes] at htotal
  omega

theorem size_score {score : ScriptScore} {maximum : Int} {baseline : Option PublicBaseline}
    (hmaximum : maximum ≤ 100000) (h : score.validate maximum baseline = .ok ()) :
    score.toJson.size ≤ 12500 := by
  simp only [ScriptScore.validate, bind_ok, check_ok, Bool.and_eq_true, decide_eq_true_eq] at h
  obtain ⟨_, ⟨⟨hversion, hpoints⟩, hreason⟩, _⟩ := h
  have hnum := Json.size_num (n := score.points) (k := 6) (by decide) (by omega)
  have hversionSize := size_natJson_le (n := score.schemaVersion) (k := 1) (by decide)
    (by rw [hversion]; decide)
  have hbool := Json.size_bool score.invalidated
  have htext := size_stringJson_le score.reason
  have hkeys : Json.strSize "schema_version".toList = 16 ∧ Json.strSize "points".toList = 8 ∧
      Json.strSize "invalidated".toList = 13 ∧ Json.strSize "reason".toList = 8 := by decide
  rw [ScriptScore.toJson, Json.size_obj_cons]
  simp only [member, Json.membersSize_cons, Json.membersSize_nil, hkeys]
  omega

/-- The parts of a revision that come back in a result. -/
theorem size_revision_parts {r : Revision} (h : r.validate = .ok ()) :
    (stringJson r.assignment.image).size + r.assignment.resources.toJson.size +
      r.manifest.toJson.size ≤ 1900000 := by
  have hsize := (Revision.validate_ok h).2.2
  have hassignment : (stringJson r.assignment.image).size + r.assignment.resources.toJson.size ≤
      r.assignment.toJson.size := by
    rw [Assignment.toJson, Json.size_obj_cons]
    simp only [member, Json.membersSize_cons, Json.membersSize_nil]
    omega
  have hparts : r.assignment.toJson.size + r.manifest.toJson.size ≤ r.toJson.size := by
    rw [Revision.toJson, List.cons_append, Json.size_obj_cons]
    simp only [member, List.cons_append, List.nil_append, Json.membersSize_cons]
    omega
  omega

theorem size_status (status : RunStatus) : (stringJson status.text).size ≤ 24 := by
  cases status <;> decide

/-- The findings of a result, beside the manifest of its revision. -/
theorem findingsSize_built [Sha256] {w : Surroundings} {lease : Lease} {r : RunResult}
    (h : Built w lease r)
    (hcount : ∀ bytes snapshot, w.source = .ok bytes → w.decode bytes = .ok snapshot →
      snapshot.files.size ≤ 512) :
    findingsSize r.findings ≤ lease.revision.manifest.toJson.size + 1077248 := by
  rcases h.findings with hnil | hone | ⟨bytes, snapshot, hbytes, hsnapshot, hcheck⟩
  · rw [hnil]
    exact Nat.zero_le _
  · rw [hone]
    have hunsafe : findingsSize [unsafeTree] ≤ 1077248 := by decide +kernel
    omega
  · exact findingsSize_check (hcount bytes snapshot hbytes hsnapshot) hcheck

theorem size_logs_member {logs : List RunLog} (h : LogsBounded logs) :
    Json.membersSize (if logs = [] then []
      else [member "logs" (.arr (logs.map RunLog.toJson))]) ≤ 1577500 := by
  have hkey : Json.strSize "logs".toList = 6 := by decide
  have hlogs := size_logs h
  split
  · exact Nat.zero_le _
  · have harr := Json.size_arr_le (logs.map RunLog.toJson)
    simp only [member, Json.membersSize_cons, Json.membersSize_nil, hkey]
    omega

theorem size_score_member {score : Option ScriptScore} {maximum : Int}
    {baseline : Option PublicBaseline} (hmaximum : maximum ≤ 100000)
    (h : ∀ s ∈ score, s.validate maximum baseline = .ok ()) :
    Json.membersSize (memberIfSome "score" ScriptScore.toJson score) ≤ 12600 := by
  have hkey : Json.strSize "score".toList = 7 := by decide
  cases score with
  | none => exact Nat.zero_le _
  | some s =>
    have hsize := size_score hmaximum (h s rfl)
    rw [memberIfSome]
    simp only [member, Json.membersSize_cons, Json.membersSize_nil, hkey]
    omega

/-- **A result fits in the body the server reads.** -/
theorem size_result [Sha256] {w : Surroundings} {lease : Lease} {r : RunResult}
    (hserved : lease.Served) (h : Built w lease r) (hlogs : LogsBounded r.logs)
    (hcount : ∀ bytes snapshot, w.source = .ok bytes → w.decode bytes = .ok snapshot →
      snapshot.files.size ≤ 512) :
    (toVec r.toJson).length ≤ 8 * 1024 * 1024 := by
  have hparts := size_revision_parts hserved.revision
  have hmaximum : lease.revision.assignment.maxPoints ≤ 100000 := by
    have hassignment := (Revision.validate_ok hserved.revision).1
    simp only [Assignment.validate, bind_ok, check_ok, Bool.and_eq_true,
      decide_eq_true_eq] at hassignment
    obtain ⟨_, _, _, _, _, _, _, _, _, _, _, _, _, _, _, _, _, _, _, hpoints, _⟩ := hassignment
    exact hpoints.2
  have hversion : r.schemaVersion = 1 := congrArg RunResult.schemaVersion h.same
  have hshaOf : r.sha = lease.sha := congrArg RunResult.sha h.same
  have hdigestOf : r.revisionDigest = lease.revisionDigest :=
    congrArg RunResult.revisionDigest h.same
  have himage : r.image = lease.revision.assignment.image := congrArg RunResult.image h.same
  have hresources : r.resources = lease.revision.assignment.resources :=
    congrArg RunResult.resources h.same
  have hversionSize := size_natJson_le (n := r.schemaVersion) (k := 1) (by decide)
    (by rw [hversion]; decide)
  have hrun := size_uuidJson_le r.runId
  have htoken := size_uuidJson_le r.leaseToken
  have hsha := size_hex_le hserved.sha
  have hdigest := size_hex_le hserved.revisionDigest
  have hstatus := size_status r.status
  have hfindings := findingsSize_built h hcount
  have hfindingsArr := Json.size_arr_le (r.findings.map Finding.toJson)
  have hlogsSize := size_logs_member hlogs
  have hscore := size_score_member hmaximum h.score
  have hkeys : Json.strSize "schema_version".toList = 16 ∧
      Json.strSize "lease_token".toList = 13 ∧ Json.strSize "run_id".toList = 8 ∧ Json.strSize "sha".toList = 5 ∧
      Json.strSize "revision_digest".toList = 17 ∧ Json.strSize "image".toList = 7 ∧
      Json.strSize "resources".toList = 11 ∧ Json.strSize "status".toList = 8 ∧
      Json.strSize "findings".toList = 10 := by decide
  rw [findingsSize] at hfindings
  rw [length_toVec, RunResult.toJson]
  generalize memberIfSome "score" ScriptScore.toJson r.score = scoreMember at hscore ⊢
  generalize (if r.logs = [] then [] else [member "logs" (.arr (r.logs.map RunLog.toJson))]) =
    logsMember at hlogsSize ⊢
  generalize r.findings.map Finding.toJson = items at hfindings hfindingsArr ⊢
  refine (Json.size_obj_le _).trans ?_
  simp only [member, Json.membersSize_append, Json.membersSize_cons, Json.membersSize_nil, hkeys,
    hshaOf, hdigestOf, himage, hresources]
  omega

end Sizes

/-! ### Every component -/

/-- `bounded`: read the chunks of a response, up to a limit. -/
def bounded (limit : Nat) : List (List UInt8) → List UInt8 → Except Error (List UInt8)
  | [], bytes => return bytes
  | chunk :: rest, bytes => do
    check (bytes.length + chunk.length ≤ limit) "worker response exceeds limit"
    bounded limit rest (bytes ++ chunk)

/-- A response within the limit is read, however it comes. -/
theorem bounded_of_le {limit : Nat} {chunks : List (List UInt8)} {bytes : List UInt8}
    (h : (bytes ++ chunks.flatten).length ≤ limit) :
    bounded limit chunks bytes = .ok (bytes ++ chunks.flatten) := by
  induction chunks generalizing bytes with
  | nil =>
    rw [bounded, List.flatten_nil, List.append_nil]
    rfl
  | cons chunk rest ih =>
    rw [List.flatten_cons, ← List.append_assoc] at h ⊢
    have hfits : bytes.length + chunk.length ≤ limit := by
      simp only [List.length_append] at h
      omega
    rw [bounded, ← ih h]
    simp only [hfits, decide_true, check, ensure]
    rfl

/-- **The size limits of the components agree.**  A snapshot that is accepted is
stored, read again and downloaded, in whatever chunks; a lease that is served is
read by the executor; and the result of an execution for it, of a student
snapshot of at most 512 files, is within the body limit of the server. -/
theorem sizes_agree [Sha256] :
    (∀ snapshot : Snapshot, snapshot.validateStructure = .ok () →
      (toVec snapshot.toJson).length ≤ 2 * maxSnapshotBytes ∧
      (∀ files : Artifacts, ∃ files' hash,
        files.write (toVec snapshot.toJson) = .ok (files', hash) ∧
        files'.get hash = .ok (toVec snapshot.toJson)) ∧
      ∀ chunks : List (List UInt8), chunks.flatten = toVec snapshot.toJson →
        bounded (maxSnapshotBytes * 2) chunks [] = .ok (toVec snapshot.toJson)) ∧
    ∀ lease : Lease, lease.Served →
      (toVec lease.toJson).length ≤ 2 * 1024 * 1024 ∧
      (∀ chunks : List (List UInt8), chunks.flatten = toVec lease.toJson →
        bounded (2 * 1024 * 1024) chunks [] = .ok (toVec lease.toJson)) ∧
      ∀ w : Surroundings,
        (∀ bytes snapshot, w.source = .ok bytes → w.decode bytes = .ok snapshot →
          snapshot.files.size ≤ 512) →
        (toVec (w.execute lease).toJson).length ≤ 8 * 1024 * 1024 := by
  have hread : ∀ {limit : Nat} {v : Json}, (toVec v).length ≤ limit →
      ∀ chunks : List (List UInt8), chunks.flatten = toVec v → bounded limit chunks [] = .ok (toVec v) := by
    intro limit v hlen chunks hchunks
    rw [← hchunks] at hlen ⊢
    exact bounded_of_le hlen
  refine ⟨fun snapshot hvalid => ?_, fun lease hserved => ?_⟩
  · have hlen := Snapshot.length_toVec_le hvalid
    refine ⟨(Nat.mul_comm _ _).trans_ge hlen, fun files => ?_, hread hlen⟩
    have hwrite : files.write (toVec snapshot.toJson) = .ok (_, _) :=
      Artifacts.write_ok.mpr ⟨hlen, rfl, rfl⟩
    exact ⟨_, _, hwrite, Artifacts.get_write hwrite⟩
  · have hlen := Lease.length_toVec_le hserved
    refine ⟨hlen, hread hlen, fun w hcount => ?_⟩
    obtain ⟨hbuilt, hlogs⟩ := execute_built w lease
    exact size_result hserved hbuilt hlogs hcount

namespace Sample

attribute [local instance] Sha256.standard

/-- A submission that changes a public test of a small exercise. -/
def changedTree : Snapshot := ⟨openTemplate.sha, .ofList [("pub/a", ⟨"100644", "Yg=="⟩)]⟩

/-- A private lease of the submission. -/
def openLease : Lease where
  schemaVersion := 1
  taskId := 0
  runId := 1
  leaseToken := 2
  expiresAt := 0
  sha := openTemplate.sha
  revisionDigest := "dddddddddddddddddddddddddddddddddddddddddddddddddddddddddddddddd"
  sourceDigest := digest (toVec changedTree.toJson)
  revision := openRevision
  baseline := some ⟨3, 1, 1⟩

theorem openLease_served : openLease.Served where
  schemaVersion := rfl
  revision := openRevision_valid
  expiresAt := by unfold inRange; decide +kernel
  sha := by decide +kernel
  revisionDigest := by decide +kernel
  sourceDigest := validHex_digest _
  baseline b hb := by
    cases hb
    unfold inRange
    decide +kernel

/-- An executor to which the submission is delivered. -/
def online : Surroundings where
  approve _ := .ok ()
  verify _ := .ok ()
  source := .ok (toVec changedTree.toJson)
  decode _ := .ok changedTree
  stage _ := .ok ()
  controller := .ok (.failed .timedOut)
  decodeScore _ := .error .json
  pushes := []
  describe _ := ("submission_download", "unavailable")

/-- The submission fails the integrity check. -/
theorem online_result : online.execute openLease = { initialResult openLease with
    status := .integrityFailed, findings := [⟨"pub/a", "content changed"⟩] } := by
  have hfound : openLease.revision.manifest.check changedTree =
      .ok [⟨"pub/a", "content changed"⟩] := by
    decide +kernel
  have hinner : online.executeInner openLease = .ok { initialResult openLease with
      status := .integrityFailed, findings := [⟨"pub/a", "content changed"⟩] } := by
    have happrove : online.approve openLease = .ok () := rfl
    have hseed : online.verifySeed openLease = .ok () := rfl
    have hsource : online.source = .ok (toVec changedTree.toJson) := rfl
    have hdigest : digest (toVec changedTree.toJson) = openLease.sourceDigest := rfl
    have hdecode : online.decode (toVec changedTree.toJson) = .ok changedTree := rfl
    have hsha : changedTree.sha = openLease.sha := rfl
    rw [Surroundings.executeInner_of_found happrove hseed hsource hdigest hdecode hsha hfound,
      if_pos (List.cons_ne_nil _ _)]
  rw [Surroundings.execute, hinner]
  rfl

theorem sizes_agree_open : (toVec openLease.toJson).length ≤ 2 * 1024 * 1024 ∧
    (online.execute openLease).findings = [⟨"pub/a", "content changed"⟩] ∧
    (toVec (online.execute openLease).toJson).length ≤ 8 * 1024 * 1024 := by
  obtain ⟨hlen, _, hresult⟩ := sizes_agree.2 openLease openLease_served
  refine ⟨hlen, by rw [online_result], hresult online fun bytes snapshot hbytes hsnapshot => ?_⟩
  cases hsnapshot
  decide +kernel

end Sample

end Grading

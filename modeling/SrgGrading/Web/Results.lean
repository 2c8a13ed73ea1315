import SrgGrading.Store.Artifacts
import SrgGrading.Store.Dashboard
import SrgGrading.Store.PrivateRuns

/-!
# The pages of a run

The routes `run_logs` and `report` read the retained result of a run, the one
decoded to its type, the other as a JSON value.  Each filters what a student
sees on its own.

* `redact_result`: what is left of the JSON of a result says nothing of its
  lease token and its hidden logs, but whether there was any log.
* `student_view`: so the two pages of a student are a function of what the
  student may see, and nobody else sees a page.
-/

open Fallible Relational

namespace Grading

/-! ### Reading results -/

/-- The reading side of `serde_json`, on what `toVec` wrote: a value keeps the
members of its objects by key, and a result decodes to itself. -/
structure Serde where
  value : List UInt8 → Except Error Json
  result : List UInt8 → Except Error RunResult
  value_toVec : ∀ r : RunResult, value (toVec r.toJson) = .ok r.toJson.sorted
  result_toVec : ∀ r : RunResult, result (toVec r.toJson) = .ok r

/-- A reader of exactly what `toVec` writes. -/
noncomputable def Serde.exact : Serde where
  value bytes := by
    classical
    exact if h : ∃ r : RunResult, toVec r.toJson = bytes then .ok h.choose.toJson.sorted
      else .error .json
  result bytes := by
    classical
    exact if h : ∃ r : RunResult, toVec r.toJson = bytes then .ok h.choose else .error .json
  value_toVec r := by
    have h : ∃ r' : RunResult, toVec r'.toJson = toVec r.toJson := ⟨r, rfl⟩
    rw [dif_pos h, toVec_inj h.choose_spec]
  result_toVec r := by
    have h : ∃ r' : RunResult, toVec r'.toJson = toVec r.toJson := ⟨r, rfl⟩
    rw [dif_pos h, RunResult.toJson_inj (toVec_inj h.choose_spec)]

namespace Web

/-! ### Responses -/

/-- The status codes the routes stop with. -/
inductive HttpError
  | unauthorized
  | forbidden
  | notFound
  | badRequest
  | conflict
  | internalServerError
  deriving DecidableEq

structure Response where
  headers : List (String × String)
  body : List UInt8
  deriving DecidableEq

/-- `HttpError::from(anyhow::Error)`. -/
def fromAnyhow {α : Type} : Except Error α → Except HttpError α
  | .ok a => .ok a
  | .error _ => .error .internalServerError

def utf8 (s : String) : List UInt8 := s.toList.flatMap String.utf8EncodeChar

/-- A page of HTML. -/
def html (page : String) : Response := ⟨[("content-type", "text/html; charset=utf-8")], utf8 page⟩

/-- How a character of a value stands in a template. -/
def escapeChar (c : Char) : List Char :=
  if c = '"' then "&#34;".toList
  else if c = '&' then "&#38;".toList
  else if c = '\'' then "&#39;".toList
  else if c = '<' then "&#60;".toList
  else if c = '>' then "&#62;".toList
  else [c]

def escape (s : String) : String := String.ofList (s.toList.flatMap escapeChar)

structure LogsPage where
  status : String
  sha : String
  text : String
  publicRunId : String

/-- The template `logs.html`. -/
def LogsPage.render (page : LogsPage) : String :=
  String.intercalate "\n" [
    "<!doctype html>",
    "<html lang=\"en\">",
    "<head>",
    "    <meta charset=\"utf-8\">",
    "    <meta name=\"viewport\" content=\"width=device-width, initial-scale=1\">",
    "    <title>Grading logs · Grading portal</title>",
    "    <link rel=\"stylesheet\" href=\"/static/style.css\">",
    "</head>",
    "<body>",
    "<header><div class=\"bar\"><a class=\"brand\" href=\"/\">" ++
      "Technical University of Munich · Grading portal</a></div></header>",
    "<main>",
    "    <a href=\"/\">Back to assignments</a>",
    "    <h1>Grading logs</h1>",
    "    <p>Status: " ++ escape page.status ++ "</p>",
    "    <p class=\"commit\">Commit <code>" ++ escape page.sha ++ "</code></p>",
    "    " ++ (if page.publicRunId = "" then "" else "<p><a href=\"/runs/" ++
      escape page.publicRunId ++ "/logs\">View public grading logs</a></p>"),
    "    <p class=\"muted\">Output is limited to 256 KiB per run. " ++
      "Private grader output is available to instructors.</p>",
    "    <pre class=\"execution-log\">" ++ escape page.text ++ "</pre>",
    "</main>",
    "</body>",
    "</html>"]

/-! ### The routes -/

/-- The signed-in user, as `authenticated` found the session. -/
structure Session where
  githubId : Int
  admin : Bool

/-- What the routes read: the database, with the table `admins`, and the files. -/
structure Portal where
  store : Store
  admins : List Int
  artifacts : Artifacts

/-- A run joined with its submission, its repository and the enrollment. -/
def runRow (s : Store) (id : Uuid) : Option (GradingRun × Submission × Enrollment) := do
  let g ← lookup GradingRun.id id s.runs
  let x ← lookup Submission.id g.submissionId s.submissions
  let r ← lookup StudentRepository.id x.repositoryId s.repositories
  let e ← lookup Enrollment.id r.enrollmentId s.enrollments
  return (g, x, e)

/-- `… WHERE g.id=$1 AND (e.github_id=$2 OR EXISTS(SELECT 1 FROM admins WHERE github_id=$2))`. -/
def visible (p : Portal) (viewer : Int) (id : Uuid) :
    Except HttpError (GradingRun × Submission × Enrollment) :=
  fetchOne .notFound <| (runRow p.store id).filter fun (_, _, e) =>
    e.githubId = viewer || p.admins.contains viewer

/-- The text of the log page. -/
def logText (session : Session) (publicRun : Option Uuid) (logs : List RunLog) : String :=
  if publicRun.isSome && !session.admin then
    "Private grading logs are available to instructors. " ++
      "Open the public run's logs for build and public-test feedback.\n"
  else
    let text := logs.foldl (fun text log =>
      if session.admin || log.studentVisible then text ++ log.text ++ "\n" else text) ""
    if text = "" then "No execution logs were retained for this run.\n" else text

def runLogs (serde : Serde) [Sha256] (p : Portal) (session : Session) (id : Uuid) :
    Except HttpError Response := do
  let (g, x, _) ← visible p session.githubId id
  let hash ← fetchOne .notFound g.reportDigest
  let bytes ← fromAnyhow (p.artifacts.get hash)
  let result ← fromAnyhow (serde.result bytes)
  return html (LogsPage.render
    { status := g.status.text
      sha := x.sha
      text := logText session g.publicRunId result.logs
      publicRunId := (g.publicRunId.map fun id => String.ofList id.text).getD "" })

/-- An `Option<i32>` as JSON. -/
def integerJson (n : Option Int) : Json := (n.map Json.num).getD .null

/-- What a student reads about a private run. -/
def privateReport (id : Uuid) (g : GradingRun) (sha : String) : Json :=
  .obj [member "schema_version" (.num 1), member "run_id" (uuidJson id),
    member "sha" (stringJson sha), member "phase" (stringJson "private"),
    member "status" (stringJson g.status.text), member "points" (integerJson g.points),
    member "public_points" (integerJson g.publicPoints),
    member "feedback" (stringJson "Detailed private grading findings are available to instructors.")]

/-- `log["student_visible"] == true`. -/
def studentVisible : Json → Bool
  | .obj members =>
    match members.find? fun m => m.1 = "student_visible".toList with
    | some (_, .bool b) => b
    | _ => false
  | _ => false

/-- The logs a student sees, where the value is an array. -/
def retain : Json → Json
  | .arr logs => .arr (logs.filter studentVisible)
  | v => v

def retainVisible (key : List Char) (v : Json) : Json :=
  if key = "logs".toList then retain v else v

/-- Not the lease token. -/
def keptKey (key : List Char) : Bool := key ≠ "lease_token".toList

/-- The report without the hidden logs and the lease token. -/
def redact : Json → Json
  | .obj members => .obj ((members.map (Json.mapMember retainVisible)).filter fun m => keptKey m.1)
  | v => v

def report (serde : Serde) [Sha256] (p : Portal) (session : Session) (id : Uuid) :
    Except HttpError Response := do
  let (g, x, _) ← visible p session.githubId id
  let hash ← fetchOne .notFound g.reportDigest
  let body ← if g.publicRunId.isSome && !session.admin then
      pure (toVec (privateReport id g x.sha).sorted)
    else do
      let bytes ← fromAnyhow (p.artifacts.get hash)
      if session.admin then pure bytes
      else do
        let value ← fromAnyhow (serde.value bytes)
        pure (toVec (redact value))
  return ⟨[("content-type", "text/plain; charset=utf-8"), ("content-disposition", "inline")], body⟩

/-! ### What a student may see of a result -/

/-- A result without its lease token and its hidden logs. -/
def shown (r : RunResult) : RunResult :=
  { r with leaseToken := 0, logs := r.logs.filter RunLog.studentVisible }

theorem logText_shown {session : Session} (hstudent : session.admin = false)
    (publicRun : Option Uuid) (logs : List RunLog) :
    logText session publicRun logs =
      logText session publicRun (logs.filter RunLog.studentVisible) := by
  have hfold : ∀ text : String,
      logs.foldl (fun text log => if session.admin || log.studentVisible then
        text ++ log.text ++ "\n" else text) text =
      (logs.filter RunLog.studentVisible).foldl (fun text log =>
        if session.admin || log.studentVisible then text ++ log.text ++ "\n" else text) text := by
    intro text
    induction logs generalizing text with
    | nil => rfl
    | cons log rest ih =>
      rw [List.foldl_cons, List.filter_cons]
      by_cases hv : log.studentVisible = true
      · rw [if_pos hv, List.foldl_cons]
        exact ih _
      · have hhidden : (session.admin || log.studentVisible) = false := by
          rw [hstudent, Bool.eq_false_iff.mpr hv]
          rfl
        rw [if_neg hv, hhidden]
        exact ih _
  rw [logText, logText, hfold]

theorem sorted_log (log : RunLog) : log.toJson.sorted = log.toJson := by
  have hpair : ∀ {k k' : List Char} (v v' : Json), k < k' →
      (Json.obj [(k, v), (k', v')]).sorted = Json.obj [(k, v.sorted), (k', v'.sorted)] := by
    intro k k' v v' hlt
    rw [Json.sorted, Json.sortedMembers, Json.sortedMembers, Json.sortedMembers,
      Json.insertMember, Json.insertMember, if_pos hlt]
  have hlt : "student_visible".toList < "text".toList := List.Lex.rel (by decide : 's' < 't')
  exact hpair (.bool log.studentVisible) (stringJson log.text) hlt

/-! ### What is left of the report -/

/-- The members of a report under other keys than those `redact` looks at. -/
def otherMembers (r : RunResult) : List (List Char × Json) :=
  [member "run_id" (uuidJson r.runId), member "sha" (stringJson r.sha),
    member "revision_digest" (stringJson r.revisionDigest),
    member "image" (stringJson r.image), member "resources" r.resources.toJson,
    member "status" (stringJson r.status.text),
    member "findings" (.arr (r.findings.map Finding.toJson))] ++
  memberIfSome "score" ScriptScore.toJson r.score

/-- The member with the logs, left out where there are none. -/
def logsMember (retained : Bool) (logs : List RunLog) : List (List Char × Json) :=
  if retained then [member "logs" (.arr (logs.map RunLog.toJson))] else []

theorem toJson_eq (r : RunResult) : r.toJson =
    .obj (logsMember (decide (r.logs ≠ [])) r.logs ++
      (member "schema_version" (natJson r.schemaVersion) ::
        member "lease_token" (uuidJson r.leaseToken) :: otherMembers r)) := by
  rw [RunResult.toJson, logsMember, otherMembers, List.append_assoc]
  by_cases hl : r.logs = []
  · rw [if_pos hl, if_neg (by simp [hl])]
    rfl
  · rw [if_neg hl, if_pos (by simp [hl])]
    rfl

/-- `redact` does not look at a member. -/
def Plain (m : List Char × Json) : Prop := m.1 ≠ "logs".toList ∧ keptKey m.1 = true

theorem plain_schemaVersion (v : Json) : Plain (member "schema_version" v) :=
  ⟨show "schema_version".toList ≠ _ by decide, show keptKey "schema_version".toList = _ by decide⟩

theorem plain_otherMembers (r : RunResult) : ∀ m ∈ otherMembers r, Plain m := by
  intro m hm
  have hkey : m.1 ∈ ["run_id".toList, "sha".toList, "revision_digest".toList, "image".toList,
      "resources".toList, "status".toList, "findings".toList, "score".toList] := by
    rw [otherMembers, List.mem_append] at hm
    rcases hm with hm | hm
    · have hmap := List.mem_map_of_mem (f := Prod.fst) hm
      exact List.mem_append_left ["score".toList] hmap
    · cases hs : r.score with
      | none => rw [hs] at hm; cases hm
      | some score =>
        rw [hs, memberIfSome, List.mem_singleton] at hm
        subst hm
        exact List.mem_of_getElem (i := 7) (h := by decide) rfl
  have hplain : ∀ k ∈ ["run_id".toList, "sha".toList, "revision_digest".toList, "image".toList,
      "resources".toList, "status".toList, "findings".toList, "score".toList],
      k ≠ "logs".toList ∧ keptKey k = true := by
    decide
  exact hplain m.1 hkey

theorem mapMember_plain {m : List Char × Json} (h : Plain m) :
    Json.mapMember retainVisible m = m := by
  rw [Json.mapMember, retainVisible, if_neg h.1]

theorem map_filter_plain {members : List (List Char × Json)} (h : ∀ m ∈ members, Plain m) :
    (members.map (Json.mapMember retainVisible)).filter (fun m => keptKey m.1) = members := by
  have hmap : members.map (Json.mapMember retainVisible) = members := by
    rw [List.map_congr_left fun m hm => mapMember_plain (h m hm), List.map_id']
  rw [hmap, List.filter_eq_self]
  exact fun m hm => (h m hm).2

theorem retain_logs (logs : List RunLog) : retain (.arr (logs.map RunLog.toJson)) =
    .arr ((logs.filter RunLog.studentVisible).map RunLog.toJson) := by
  have hfilter : (logs.map RunLog.toJson).filter studentVisible =
      (logs.filter RunLog.studentVisible).map RunLog.toJson := List.filter_map
  rw [retain, hfilter]

theorem sorted_logs (logs : List RunLog) : (Json.arr (logs.map RunLog.toJson)).sorted =
    .arr (logs.map RunLog.toJson) := by
  rw [Json.sorted, Json.sortedItems_eq_map, List.map_map]
  exact congrArg _ (List.map_congr_left fun log _ => sorted_log log)

/-- The hidden logs are gone. -/
theorem map_filter_logs (retained : Bool) (logs : List RunLog) :
    ((logsMember retained logs).map (Json.mapMember retainVisible)).filter
        (fun m => keptKey m.1) =
      logsMember retained (logs.filter RunLog.studentVisible) := by
  have hkept : keptKey "logs".toList = true := by decide
  cases retained with
  | false => rfl
  | true =>
    have hmap : Json.mapMember retainVisible (member "logs" (.arr (logs.map RunLog.toJson))) =
        member "logs" (.arr ((logs.filter RunLog.studentVisible).map RunLog.toJson)) := by
      rw [Json.mapMember, member, retainVisible, if_pos rfl, retain_logs]
      rfl
    rw [logsMember, logsMember, if_pos rfl, if_pos rfl, List.map_singleton, hmap]
    exact List.filter_cons_of_pos hkept

/-- What is left of a report. -/
theorem redact_toJson (r : RunResult) : redact r.toJson =
    .obj (logsMember (decide (r.logs ≠ [])) (shown r).logs ++
      (member "schema_version" (natJson (shown r).schemaVersion) :: otherMembers (shown r))) := by
  have hschema : Plain (member "schema_version" (natJson r.schemaVersion)) :=
    plain_schemaVersion _
  have htoken : keptKey (Json.mapMember retainVisible
      (member "lease_token" (uuidJson r.leaseToken))).1 = false :=
    show keptKey "lease_token".toList = false by decide
  rw [toJson_eq, redact, List.map_append, List.filter_append, map_filter_logs, List.map_cons,
    List.map_cons, mapMember_plain hschema, List.filter_cons, List.filter_cons, hschema.2, htoken,
    map_filter_plain (plain_otherMembers r)]
  rfl

/-- The logs of a report can be filtered before its members are sorted. -/
theorem retainVisible_sorted (r : RunResult) : ∀ m ∈
    logsMember (decide (r.logs ≠ [])) r.logs ++
      (member "schema_version" (natJson r.schemaVersion) ::
        member "lease_token" (uuidJson r.leaseToken) :: otherMembers r),
    retainVisible m.1 m.2.sorted = (retainVisible m.1 m.2).sorted := by
  have hother : ∀ m : List Char × Json, m.1 ≠ "logs".toList →
      retainVisible m.1 m.2.sorted = (retainVisible m.1 m.2).sorted := by
    intro m hm
    rw [retainVisible, retainVisible, if_neg hm, if_neg hm]
  intro m hm
  rcases List.mem_append.mp hm with hlogs | hrest
  · rw [logsMember] at hlogs
    split at hlogs
    · rw [List.mem_singleton] at hlogs
      subst hlogs
      show retainVisible "logs".toList (Json.arr (r.logs.map RunLog.toJson)).sorted =
        (retainVisible "logs".toList (.arr (r.logs.map RunLog.toJson))).sorted
      rw [retainVisible, retainVisible, if_pos rfl, if_pos rfl, sorted_logs, retain_logs,
        sorted_logs]
    · cases hlogs
  · rcases List.mem_cons.mp hrest with rfl | hrest
    · exact hother _ (plain_schemaVersion _).1
    · rcases List.mem_cons.mp hrest with rfl | hrest
      · exact hother _ (show "lease_token".toList ≠ _ by decide)
      · exact hother m (plain_otherMembers r m hrest).1

/-- Sorting the members of a report before or after it is redacted. -/
theorem redact_sorted (r : RunResult) : redact r.toJson.sorted = (redact r.toJson).sorted := by
  rw [toJson_eq, Json.sorted, redact, redact, Json.sorted,
    Json.sortedMembers_map (retainVisible_sorted r), Json.sortedMembers_filter]

/-- **The redacted report depends on what is shown and on whether there was a log.** -/
theorem redact_result {r r' : RunResult} (hshown : shown r = shown r')
    (hretained : r.logs = [] ↔ r'.logs = []) :
    redact r.toJson.sorted = redact r'.toJson.sorted := by
  have hsame : decide (r.logs ≠ []) = decide (r'.logs ≠ []) := decide_eq_decide.mpr hretained.not
  rw [redact_sorted, redact_sorted, redact_toJson, redact_toJson, hshown, hsame]

/-! ### What a page depends on -/

section Pages

variable (serde : Serde) [Sha256] {p p' : Portal} {session : Session} {g : GradingRun}
  {sha : String} {call call' : Runs.AcceptCall}

/-- The result of `call` is stored as that of the run `g` of the student's
submission `sha`. -/
structure Stored (p : Portal) (session : Session) (g : GradingRun) (sha : String)
    (call : Runs.AcceptCall) : Prop where
  row : ∃ x e, runRow p.store g.id = some (Runs.recordResult call g, x, e) ∧ x.sha = sha ∧
    e.githubId = session.githubId
  student : session.admin = false
  file : p.artifacts.get (Runs.resultDigest call.result) = .ok (toVec call.result.toJson)

/-- Both give the same page. -/
def SamePage (page page' : Except HttpError Response) : Prop :=
  ∃ r, page = .ok r ∧ page' = .ok r

/-- The row after a result is recorded. -/
theorem runRow_commitResult {s : Store} {x : Submission} {e : Enrollment}
    (h : runRow s g.id = some (g, x, e)) (hid : call.result.runId = g.id) :
    runRow (Runs.commitResult s call) g.id = some (Runs.recordResult call g, x, e) := by
  simp only [runRow, Option.bind_eq_bind, Option.bind_eq_some_iff, Option.pure_def,
    Option.some_inj, Prod.mk.injEq] at h ⊢
  have hrepository : ∀ {id : Uuid} {r : StudentRepository},
      lookup StudentRepository.id id s.repositories = some r → ∃ r', lookup StudentRepository.id id
        (Runs.commitResult s call).repositories = some r' ∧ r'.enrollmentId = r.enrollmentId := by
    intro id r hr
    have hreviewed : lookup StudentRepository.id id (Runs.commitResult s call).repositories =
        (lookup StudentRepository.id id s.repositories).map fun r =>
          if call.result.status = .invalidated && Runs.gradesRepository s call.result.runId r then
            { r with needsReview := true } else r :=
      lookup_updateWhere fun _ _ => rfl
    rw [hr, Option.map_some] at hreviewed
    exact ⟨_, hreviewed, by split <;> rfl⟩
  obtain ⟨g', hg, x', hx, r, hr, e', he, hgg, hxx, hee⟩ := h
  obtain ⟨r', hr', henrollment⟩ := hrepository hr
  refine ⟨Runs.recordResult call g, ?_, x', hgg ▸ hx, r', hr', e', ?_, rfl, hxx, hee⟩
  · have hrecorded : lookup GradingRun.id g.id (Runs.commitResult s call).runs =
        (lookup GradingRun.id g.id s.runs).map fun g =>
          if decide (g.id = call.result.runId) then Runs.recordResult call g else g :=
      lookup_updateWhere fun _ _ => rfl
    rw [hg, hgg, Option.map_some, if_pos (decide_eq_true hid.symm)] at hrecorded
    exact hrecorded
  · rw [henrollment]
    exact he

/-- **Recording a result stores it.** -/
theorem Stored.of_accept {s s' : Store} {now : Time} {fresh : Nat → Uuid} {t : TaskRow}
    {files files' : Artifacts} {hash : String} {x : Submission} {e : Enrollment}
    (hrow : runRow s g.id = some (g, x, e)) (hid : call.result.runId = g.id)
    (hfind : s.tasks.find? (fun t => t.id = call.task &&
      t.leaseToken = some call.result.leaseToken && t.leaseOwner = some call.worker.id) = some t)
    (hopen : t.status ≠ .done) (hcommit : Runs.acceptCommit s now fresh call = .ok s')
    (hwrite : files.write (toVec call.result.toJson) = .ok (files', hash))
    (hstudent : session.admin = false) (howner : e.githubId = session.githubId)
    (admins : List Int) : Stored ⟨s', admins, files'⟩ session g x.sha call where
  row := by
    simp only [Runs.acceptCommit, fetchOne_ok, bind_ok] at hcommit
    obtain ⟨u, hu, hcommit⟩ := hcommit
    have htask : u = t := Option.some_inj.mp (hu.symm.trans hfind)
    rw [htask, if_neg hopen] at hcommit
    simp only [bind_ok] at hcommit
    obtain ⟨_, _, _, _, henqueue⟩ := hcommit
    have hcommitted := runRow_commitResult hrow hid
    rw [Queue.enqueue] at henqueue
    split at henqueue
    · rw [pure_ok] at henqueue
      subst henqueue
      exact ⟨x, e, hcommitted, rfl, howner⟩
    · simp only [bind_ok, pure_ok] at henqueue
      obtain ⟨_, _, rfl⟩ := henqueue
      exact ⟨x, e, hcommitted, rfl, howner⟩
  student := hstudent
  file := by
    have hhash := (Artifacts.write_ok.mp hwrite).2.2
    rw [Runs.resultDigest, ← hhash]
    exact Artifacts.get_write hwrite

/-- A student sees the row of the own run. -/
theorem Stored.visible (h : Stored p session g sha call) : ∃ x e,
    Web.visible p session.githubId g.id = .ok (Runs.recordResult call g, x, e) ∧ x.sha = sha := by
  obtain ⟨x, e, hrow, hsha, howner⟩ := h.row
  refine ⟨x, e, ?_, hsha⟩
  rw [Web.visible, hrow, Option.filter_some, if_pos (by simp [howner])]
  rfl

/-- The log page as a function of the row and the logs of the result. -/
theorem Stored.runLogs (h : Stored p session g sha call) :
    Web.runLogs serde p session g.id = .ok (html (LogsPage.render
      { status := call.result.status.state.text
        sha := sha
        text := logText session g.publicRunId (shown call.result).logs
        publicRunId := (g.publicRunId.map fun id => String.ofList id.text).getD "" })) := by
  obtain ⟨x, e, hvisible, rfl⟩ := h.visible
  have htext := logText_shown h.student g.publicRunId call.result.logs
  rw [Web.runLogs, hvisible]
  simp only [Runs.recordResult, fetchOne, bind, Except.bind, h.file, fromAnyhow,
    serde.result_toVec]
  rw [htext]
  rfl

/-- The report of a private run, as a student reads it. -/
theorem Stored.report_private (h : Stored p session g sha call)
    (hprivate : g.publicRunId.isSome = true) :
    Web.report serde p session g.id = .ok
      ⟨[("content-type", "text/plain; charset=utf-8"), ("content-disposition", "inline")],
        toVec (privateReport g.id (Runs.recordResult call g) sha).sorted⟩ := by
  obtain ⟨x, e, hvisible, rfl⟩ := h.visible
  have hbranch : ((Runs.recordResult call g).publicRunId.isSome && !session.admin) = true := by
    rw [h.student, Bool.not_false, Bool.and_true]
    exact hprivate
  rw [Web.report, hvisible]
  simp only [fetchOne, bind, Except.bind, hbranch, if_true]
  rfl

/-- The report of a public run, as a student reads it. -/
theorem Stored.report_public (h : Stored p session g sha call)
    (hpublic : g.publicRunId = none) :
    Web.report serde p session g.id = .ok
      ⟨[("content-type", "text/plain; charset=utf-8"), ("content-disposition", "inline")],
        toVec (redact call.result.toJson.sorted)⟩ := by
  obtain ⟨x, e, hvisible, rfl⟩ := h.visible
  have hbranch : ((Runs.recordResult call g).publicRunId.isSome && !session.admin) = false := by
    rw [Runs.recordResult, hpublic]
    rfl
  rw [Web.report, hvisible]
  simp only [fetchOne, bind, Except.bind, hbranch, Bool.false_eq_true, if_false]
  simp only [Runs.recordResult, h.student, h.file, fromAnyhow, serde.value_toVec]
  rfl

omit [Sha256] in
/-- Nobody else sees a run. -/
theorem visible_stranger {id : Uuid} (howner : ∀ g x e, runRow p.store id = some (g, x, e) →
      e.githubId ≠ session.githubId) (hadmin : session.githubId ∉ p.admins) :
    visible p session.githubId id = .error .notFound := by
  rw [visible]
  cases hrow : runRow p.store id with
  | none => rfl
  | some row =>
    obtain ⟨g, x, e⟩ := row
    have hhidden : (decide (e.githubId = session.githubId) ||
        p.admins.contains session.githubId) = false := by
      simp [howner g x e hrow, hadmin]
    rw [Option.filter_some]
    show fetchOne HttpError.notFound (if (decide (e.githubId = session.githubId) ||
      p.admins.contains session.githubId) = true then some (g, x, e) else none) = _
    rw [hhidden]
    rfl

/-- **Student view noninterference.**  The two pages of a private run are a
function of the SHA, the status and the points.  Those of a public run are a
function of the result without its lease token and its hidden logs, and of
whether there was any log.  Who is neither the owner of a run nor an
administrator finds neither page. -/
theorem student_view :
    (∀ p p' session g sha call call', Stored p session g sha call →
      Stored p' session g sha call' →
      (g.publicRunId.isSome = true →
        (Runs.recordResult call g).status = (Runs.recordResult call' g).status →
        (Runs.recordResult call g).points = (Runs.recordResult call' g).points →
        (Runs.recordResult call g).publicPoints = (Runs.recordResult call' g).publicPoints →
        SamePage (report serde p session g.id) (report serde p' session g.id) ∧
        SamePage (runLogs serde p session g.id) (runLogs serde p' session g.id)) ∧
      (g.publicRunId = none → shown call.result = shown call'.result →
        (call.result.logs = [] ↔ call'.result.logs = []) →
        SamePage (report serde p session g.id) (report serde p' session g.id) ∧
        SamePage (runLogs serde p session g.id) (runLogs serde p' session g.id))) ∧
    (∀ (p : Portal) (session : Session) (id : Uuid),
      (∀ g x e, runRow p.store id = some (g, x, e) → e.githubId ≠ session.githubId) →
      session.githubId ∉ p.admins →
      report serde p session id = .error .notFound ∧
      runLogs serde p session id = .error .notFound) := by
  refine ⟨?_, ?_⟩
  · intro p p' session g sha call call' h h'
    refine ⟨?_, ?_⟩
    · intro hprivate hstatus hpoints hpublic
      have hreport : privateReport g.id (Runs.recordResult call g) sha =
          privateReport g.id (Runs.recordResult call' g) sha := by
        rw [privateReport, privateReport, hstatus, hpoints, hpublic]
      have htext : ∀ logs logs' : List RunLog,
          logText session g.publicRunId logs = logText session g.publicRunId logs' := by
        intro logs logs'
        have hbranch : (g.publicRunId.isSome && !session.admin) = true := by
          rw [h.student, hprivate]
          rfl
        rw [logText, logText, if_pos hbranch, if_pos hbranch]
      have hstate : call.result.status.state = call'.result.status.state := hstatus
      refine ⟨⟨_, h.report_private serde hprivate, ?_⟩, ⟨_, h.runLogs serde, ?_⟩⟩
      · rw [hreport]
        exact h'.report_private serde hprivate
      · rw [hstate, htext (shown call.result).logs (shown call'.result).logs]
        exact h'.runLogs serde
    · intro hpublic hshown hretained
      have hstatus : call.result.status = call'.result.status :=
        show (shown call.result).status = (shown call'.result).status by rw [hshown]
      refine ⟨⟨_, h.report_public serde hpublic, ?_⟩, ⟨_, h.runLogs serde, ?_⟩⟩
      · rw [redact_result hshown hretained]
        exact h'.report_public serde hpublic
      · rw [hshown, hstatus]
        exact h'.runLogs serde
  · intro p session id howner hadmin
    have hnone := visible_stranger howner hadmin
    refine ⟨?_, ?_⟩
    · rw [report, hnone]
      rfl
    · rw [runLogs, hnone]
      rfl

end Pages

end Web

namespace Sample

open Web

/-- The runs of the student's submission 21, before a result was recorded. -/
def accepted : Submission := ⟨21, 3, 22, shaB, second 1, some sourceDigest⟩

def publicRun : GradingRun := Runs.newRun 50 21 revisionDigest 1 .running none
def privateRun : GradingRun := Runs.newRun 60 21 revisionDigest 2 .running (some 50)

/-- A portal with one recorded result. -/
def portal [Sha256] (g : GradingRun) (c : Runs.AcceptCall) : Portal where
  store := { start.store with submissions := [accepted], runs := [Runs.recordResult c g] }
  admins := []
  artifacts := fun name =>
    if name = Runs.resultDigest c.result then some (toVec c.result.toJson) else none

theorem stored_portal [Sha256] {g : GradingRun} (hsubmission : g.submissionId = 21) {c : Runs.AcceptCall}
    (hlen : (toVec c.result.toJson).length ≤ maxSnapshotBytes * 2) :
    Stored (portal g c) ⟨7, false⟩ g shaB c where
  row := by
    have hfirst : ∀ {α : Type} {key : α → Uuid} {a : α} {id : Uuid}, key a = id →
        lookup key id [a] = some a := fun h => List.find?_cons_of_pos (decide_eq_true h)
    have hrun : lookup GradingRun.id g.id [Runs.recordResult c g] =
        some (Runs.recordResult c g) := hfirst rfl
    have hsub : lookup Submission.id g.submissionId [accepted] = some accepted :=
      hfirst hsubmission.symm
    refine ⟨accepted, ⟨1, "prog", 7, "student", "Student"⟩, ?_, rfl, rfl⟩
    simp only [runRow, Option.bind_eq_bind, Option.bind_eq_some_iff, Option.pure_def]
    refine ⟨_, hrun, accepted, hsub, repository, ?_, _, ?_, rfl⟩
    · exact hfirst rfl
    · exact hfirst rfl
  student := rfl
  file := by
    have hwritten : (portal g c).artifacts (Runs.resultDigest c.result) =
        some (toVec c.result.toJson) := by
      simp only [portal, if_true]
    exact Artifacts.get_ok.mpr ⟨hwritten, hlen, rfl⟩

attribute [local instance] Sha256.standard

/-- The call with another result. -/
def reported (r : RunResult) : Runs.AcceptCall := { call with result := r }

/-- Two results a student cannot tell apart on a private run. -/
def graded : RunResult := passed 60 61 7
def explained : RunResult :=
  { graded with logs := [⟨false, "the hidden test"⟩], findings := [⟨"src/a", "changed"⟩] }

/-- Two results a student cannot tell apart on a public run. -/
def verbose (token : Uuid) (hidden : String) : RunResult :=
  { passed 50 token 7 with logs := [⟨true, "make: ok"⟩, ⟨false, hidden⟩] }

theorem student_view_pages :
    SamePage (report .exact (portal privateRun (reported graded)) ⟨7, false⟩ 60)
      (report .exact (portal privateRun (reported explained)) ⟨7, false⟩ 60) ∧
    SamePage (runLogs .exact (portal publicRun (reported (verbose 60 "a"))) ⟨7, false⟩ 50)
      (runLogs .exact (portal publicRun (reported (verbose 61 "b"))) ⟨7, false⟩ 50) ∧
    report .exact (portal publicRun (reported graded)) ⟨8, false⟩ 50 = .error .notFound := by
  have hview := student_view Serde.exact
  have hprivate := (hview.1 _ _ _ _ _ _ _ (stored_portal (g := privateRun) rfl
    (c := reported graded) (by decide +kernel)) (stored_portal (g := privateRun) rfl
    (c := reported explained) (by decide +kernel))).1 rfl rfl rfl rfl
  have hpublic := (hview.1 _ _ _ _ _ _ _ (stored_portal (g := publicRun) rfl
    (c := reported (verbose 60 "a")) (by decide +kernel)) (stored_portal (g := publicRun) rfl
    (c := reported (verbose 61 "b")) (by decide +kernel))).2 rfl rfl (by decide)
  refine ⟨hprivate.1, hpublic.2, (hview.2 _ _ _ ?_ (List.not_mem_nil)).1⟩
  intro g x e hrow
  cases hrow
  decide

end Sample

end Grading

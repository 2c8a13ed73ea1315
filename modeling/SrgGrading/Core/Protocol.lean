import SrgGrading.Library.Json
import SrgGrading.Core.Config

/-!
# Leases, results and their wire format

The data the server and its executors exchange, the JSON it is written in and
the checks on it.
-/

open Fallible

namespace Grading

/-- A UUID, as the number its 32 hexadecimal digits write. -/
abbrev Uuid := Fin (2 ^ 128)

instance Uuid.neZero : NeZero (2 ^ 128) := ⟨by decide⟩

structure ScriptTests where
  schemaVersion : Nat
  deriving DecidableEq

structure Workflow where
  publicCommand : List String
  privateCommand : Option (List String)
  deriving DecidableEq

structure Grader where
  caching : Option Seed
  repository : String
  revision : String
  image : String
  sourceDigest : Option String
  workflow : Option Workflow
  deriving DecidableEq

structure Revision where
  courseId : String
  assignmentId : String
  assignment : Assignment
  manifest : Manifest
  tests : ScriptTests
  grader : Option Grader
  deriving DecidableEq

structure PublicBaseline where
  runId : Uuid
  points : Int
  deadline : Time
  deriving DecidableEq

structure Lease where
  schemaVersion : Nat
  taskId : Uuid
  runId : Uuid
  leaseToken : Uuid
  expiresAt : Time
  sha : String
  revisionDigest : String
  sourceDigest : String
  revision : Revision
  baseline : Option PublicBaseline
  deriving DecidableEq

inductive RunStatus
  | completed
  | integrityFailed
  | infrastructureFailed
  | timedOut
  | invalidated
  deriving DecidableEq

structure RunLog where
  studentVisible : Bool
  text : String
  deriving DecidableEq

structure ScriptScore where
  schemaVersion : Nat
  points : Int
  invalidated : Bool
  reason : String
  deriving DecidableEq

structure RunResult where
  logs : List RunLog
  schemaVersion : Nat
  leaseToken : Uuid
  runId : Uuid
  sha : String
  revisionDigest : String
  image : String
  resources : Resources
  status : RunStatus
  findings : List Finding
  score : Option ScriptScore
  deriving DecidableEq

def maxRunLogBytes : Nat := 256 * 1024

/-! ### Times and identifiers as text -/

/-- Year, month and day of a day counted from 1970-01-01. -/
def civil (day : Int) : Int × Int × Int :=
  let z := day + 719468
  let era := z / 146097
  let doe := z % 146097
  let yoe := (doe - doe / 1460 + doe / 36524 - doe / 146096) / 365
  let doy := doe - (365 * yoe + yoe / 4 - yoe / 100)
  let mp := (5 * doy + 2) / 153
  let month := if mp < 10 then mp + 3 else mp - 9
  (yoe + era * 400 + (if month ≤ 2 then 1 else 0), month, doy - (153 * mp + 2) / 5 + 1)

/-- `n` in at least `width` decimal digits. -/
def decimal (width n : Nat) : List Char :=
  let digits := Nat.toDigits 10 n
  List.replicate (width - digits.length) '0' ++ digits

/-- Four digits, or a sign and more where four do not do. -/
def yearText (year : Int) : List Char :=
  if 0 ≤ year ∧ year ≤ 9999 then decimal 4 year.toNat
  else (if year < 0 then '-' else '+') :: decimal 4 year.natAbs

/-- The fraction of a second, with as many digits as it takes. -/
def fractionText (nanos : Nat) : List Char :=
  if nanos = 0 then []
  else if nanos % 1000000 = 0 then '.' :: decimal 3 (nanos / 1000000)
  else if nanos % 1000 = 0 then '.' :: decimal 6 (nanos / 1000)
  else '.' :: decimal 9 nanos

/-- The date, `sep`, and the time of day; a leap second is the sixtieth of its minute. -/
def dateTimeText (sep : Char) (d : DateTime) : List Char :=
  let (year, month, day) := civil (d.second / 86400)
  let time := (d.second % 86400).toNat
  yearText year ++ '-' :: decimal 2 month.toNat ++ '-' :: decimal 2 day.toNat ++ sep ::
    decimal 2 (time / 3600) ++ ':' :: decimal 2 (time / 60 % 60) ++ ':' ::
    decimal 2 (time % 60 + d.nanos / 1000000000) ++ fractionText (d.nanos % 1000000000)

/-- RFC 3339, as `DateTime<Utc>` is serialised. -/
def rfc3339 (d : DateTime) : List Char := dateTimeText 'T' d ++ ['Z']

/-- Whether RFC 3339 text of `d` parses again: its year has four digits. -/
def rfc3339Parses (d : DateTime) : Bool :=
  let year := (civil (d.second / 86400)).1
  0 ≤ year && year ≤ 9999

/-- `Uuid::to_string`: 8, 4, 4, 4 and 12 digits. -/
def Uuid.text (id : Uuid) : List Char :=
  let digits := Text.hex 32 id.val
  digits.take 8 ++ '-' :: ((digits.drop 8).take 4 ++ '-' :: ((digits.drop 12).take 4 ++
    '-' :: ((digits.drop 16).take 4 ++ '-' :: digits.drop 20)))

/-! ### JSON -/

/-- `serde_json::to_vec`: the compact text in UTF-8. -/
def toVec (v : Json) : List UInt8 := v.render.flatMap String.utf8EncodeChar

section Wire

/-- An object member. -/
def member (key : String) (value : Json) : List Char × Json := (key.toList, value)

/-- A member skipped when there is no value. -/
def memberIfSome {α : Type} (key : String) (f : α → Json) : Option α → List (List Char × Json)
  | none => []
  | some a => [member key (f a)]

def stringJson (s : String) : Json := .str s.toList
def natJson (n : Nat) : Json := .num n
def uuidJson (id : Uuid) : Json := .str id.text
def dateTimeJson (d : DateTime) : Json := .str (rfc3339 d)
def timeJson (t : Time) : Json := dateTimeJson (.ofInstant t)
def stringsJson (l : List String) : Json := .arr (l.map stringJson)

def Resources.toJson (r : Resources) : Json :=
  .obj [member "cpu" (natJson r.cpu), member "memory_gib" (natJson r.memoryGib),
    member "storage_gib" (natJson r.storageGib)]

def ScorePolicy.toJson (p : ScorePolicy) : Json :=
  .obj [member "source" (stringJson p.source), member "selection" (stringJson p.selection)]

def Assignment.toJson (a : Assignment) : Json :=
  .obj [member "title" (stringJson a.title), member "opens_at" (dateTimeJson a.opensAt),
    member "deadline" (dateTimeJson a.deadline), member "branch" (stringJson a.branch),
    member "template" (stringJson a.template),
    member "template_revision" (stringJson a.templateRevision),
    member "image" (stringJson a.image),
    member "integrity_manifest" (stringJson a.integrityManifest),
    member "public_tests" (stringJson a.publicTests),
    member "execution_profile" (stringJson a.executionProfile),
    member "max_points" (.num a.maxPoints),
    member "timeout_seconds" (natJson a.timeoutSeconds),
    member "resources" a.resources.toJson, member "score" a.score.toJson]

def ProtectedFile.toJson (f : ProtectedFile) : Json :=
  .obj [member "mode" (stringJson f.mode), member "sha256" (stringJson f.sha256)]

def Manifest.toJson (m : Manifest) : Json :=
  .obj [member "schema_version" (natJson m.schemaVersion),
    member "template_revision" (stringJson m.templateRevision),
    member "editable" (stringsJson m.editable),
    member "files" (.obj (m.files.entries.map fun e => member e.1 e.2.toJson))]

def CacheMode.toJson : CacheMode → Json
  | .readOnly => stringJson "read_only"
  | .privateCopy => stringJson "private_copy"

def CacheArtifact.toJson (a : CacheArtifact) : Json :=
  .obj [member "name" (stringJson a.name), member "path" (stringJson a.path),
    member "mount_path" (stringJson a.mountPath), member "mode" a.mode.toJson,
    member "max_size_gib" (natJson a.maxSizeGib)]

def Caching.toJson (c : Caching) : Json :=
  .obj [member "version" (natJson c.version), member "recipe_dir" (stringJson c.recipeDir),
    member "command" (stringsJson c.command),
    member "timeout_seconds" (natJson c.timeoutSeconds),
    member "resources" c.resources.toJson, member "architecture" (stringJson c.architecture),
    member "artifacts" (.arr (c.artifacts.map CacheArtifact.toJson))]

def Seed.toJson (s : Seed) : Json :=
  .obj [member "config" s.config.toJson, member "input_key" (stringJson s.inputKey),
    member "digest" (stringJson s.digest), member "namespace" (stringJson s.namespaceName),
    member "source_pvc" (stringJson s.sourcePvc)]

def Workflow.toJson (w : Workflow) : Json :=
  .obj [member "public_command" (stringsJson w.publicCommand),
    member "private_command" ((w.privateCommand.map stringsJson).getD .null)]

def Grader.toJson (g : Grader) : Json :=
  .obj (memberIfSome "caching" Seed.toJson g.caching ++
    [member "repository" (stringJson g.repository), member "revision" (stringJson g.revision),
      member "image" (stringJson g.image)] ++
    memberIfSome "source_digest" stringJson g.sourceDigest ++
    memberIfSome "workflow" Workflow.toJson g.workflow)

def ScriptTests.toJson (t : ScriptTests) : Json :=
  .obj [member "schema_version" (natJson t.schemaVersion), member "tests" (.arr [])]

def Revision.toJson (r : Revision) : Json :=
  .obj ([member "course_id" (stringJson r.courseId),
    member "assignment_id" (stringJson r.assignmentId),
    member "assignment" r.assignment.toJson, member "manifest" r.manifest.toJson,
    member "tests" r.tests.toJson] ++ memberIfSome "grader" Grader.toJson r.grader)

def RunLog.toJson (l : RunLog) : Json :=
  .obj [member "student_visible" (.bool l.studentVisible), member "text" (stringJson l.text)]

/-- The text of a status, on the wire and in the database. -/
def RunStatus.text : RunStatus → String
  | .completed => "completed"
  | .integrityFailed => "integrity_failed"
  | .infrastructureFailed => "infrastructure_failed"
  | .timedOut => "timed_out"
  | .invalidated => "invalidated"

def Finding.toJson (f : Finding) : Json :=
  .obj [member "path" (stringJson f.path), member "reason" (stringJson f.reason)]

def ScriptScore.toJson (s : ScriptScore) : Json :=
  .obj [member "schema_version" (natJson s.schemaVersion), member "points" (.num s.points),
    member "invalidated" (.bool s.invalidated), member "reason" (stringJson s.reason)]

def RunResult.toJson (r : RunResult) : Json :=
  .obj ((if r.logs = [] then [] else [member "logs" (.arr (r.logs.map RunLog.toJson))]) ++
    [member "schema_version" (natJson r.schemaVersion),
      member "lease_token" (uuidJson r.leaseToken), member "run_id" (uuidJson r.runId),
      member "sha" (stringJson r.sha), member "revision_digest" (stringJson r.revisionDigest),
      member "image" (stringJson r.image), member "resources" r.resources.toJson,
      member "status" (stringJson r.status.text),
      member "findings" (.arr (r.findings.map Finding.toJson))] ++
    memberIfSome "score" ScriptScore.toJson r.score)

end Wire

/-! ### What the text determines -/

section Injective

theorem toVec_inj {v w : Json} (h : toVec v = toVec w) : v = w := by
  have hbytes : String.ofList v.render = String.ofList w.render := by
    apply String.toByteArray_inj.mp
    simp only [String.toByteArray_ofList, List.utf8Encode]
    exact congrArg _ h
  exact Json.render_inj (String.ofList_injective hbytes)

theorem stringJson_inj {a b : String} (h : stringJson a = stringJson b) : a = b := by
  rw [stringJson, stringJson, Json.str.injEq] at h
  exact String.toList_inj.mp h

theorem natJson_inj {m n : Nat} (h : natJson m = natJson n) : m = n := by
  rw [natJson, natJson, Json.num.injEq] at h
  exact Int.ofNat.inj h

/-- A group of digits and what follows it. -/
theorem group_inj {d d' r r' : List Char} {n : Nat} (hlen : d.length = d'.length)
    (h : d.take n ++ '-' :: r = d'.take n ++ '-' :: r') : d.take n = d'.take n ∧ r = r' := by
  obtain ⟨hhead, htail⟩ := List.append_inj h (by rw [List.length_take, List.length_take, hlen])
  exact ⟨hhead, (List.cons.inj htail).2⟩

theorem eq_of_groups {d d' : List Char} {n : Nat} (htake : d.take n = d'.take n)
    (hdrop : d.drop n = d'.drop n) : d = d' := by
  rw [← List.take_append_drop n d, htake, hdrop, List.take_append_drop]

theorem Uuid.text_inj {a b : Uuid} (h : a.text = b.text) : a = b := by
  have hlen : ∀ n, ((Text.hex 32 a.val).drop n).length = ((Text.hex 32 b.val).drop n).length := by
    intro n
    rw [List.length_drop, List.length_drop, Text.length_hex, Text.length_hex]
  have h0 : (Text.hex 32 a.val).length = (Text.hex 32 b.val).length := hlen 0
  obtain ⟨h8, h⟩ := group_inj h0 h
  obtain ⟨h12, h⟩ := group_inj (hlen 8) h
  obtain ⟨h16, h⟩ := group_inj (hlen 12) h
  obtain ⟨h20, h⟩ := group_inj (hlen 16) h
  have hdigits : Text.hex 32 a.val = Text.hex 32 b.val := by
    refine eq_of_groups h8 (eq_of_groups h12 (eq_of_groups (n := 4) ?_ (eq_of_groups (n := 4) ?_ ?_)))
    · rw [List.drop_drop, List.drop_drop]
      exact h16
    · rw [List.drop_drop, List.drop_drop, List.drop_drop, List.drop_drop]
      exact h20
    · simp only [List.drop_drop]
      exact h
  have hsize : (16 : Nat) ^ 32 = 2 ^ 128 := by decide
  have hlt : ∀ id : Uuid, id.val < 16 ^ 32 := fun id => lt_of_lt_of_eq id.isLt hsize.symm
  exact Fin.eq_of_val_eq (Text.hex_inj (hlt a) (hlt b) hdigits)

theorem RunStatus.text_inj {s t : RunStatus} (h : s.text = t.text) : s = t := by
  cases s <;> cases t <;> first | rfl | (simp [RunStatus.text] at h)

theorem Resources.toJson_inj {a b : Resources} (h : a.toJson = b.toJson) : a = b := by
  simp only [Resources.toJson, member, Json.obj.injEq, List.cons.injEq, Prod.mk.injEq, true_and,
    and_true] at h
  obtain ⟨hcpu, hmemory, hstorage⟩ := h
  cases a
  cases b
  simp only [Resources.mk.injEq]
  exact ⟨natJson_inj hcpu, natJson_inj hmemory, natJson_inj hstorage⟩

theorem Finding.toJson_inj {a b : Finding} (h : a.toJson = b.toJson) : a = b := by
  simp only [Finding.toJson, member, Json.obj.injEq, List.cons.injEq, Prod.mk.injEq, true_and,
    and_true] at h
  cases a
  cases b
  simp only [Finding.mk.injEq]
  exact ⟨stringJson_inj h.1, stringJson_inj h.2⟩

theorem RunLog.toJson_inj {a b : RunLog} (h : a.toJson = b.toJson) : a = b := by
  simp only [RunLog.toJson, member, Json.obj.injEq, List.cons.injEq, Prod.mk.injEq, true_and,
    and_true, Json.bool.injEq] at h
  cases a
  cases b
  simp only [RunLog.mk.injEq]
  exact ⟨h.1, stringJson_inj h.2⟩

theorem ScriptScore.toJson_inj {a b : ScriptScore} (h : a.toJson = b.toJson) : a = b := by
  simp only [ScriptScore.toJson, member, Json.obj.injEq, List.cons.injEq, Prod.mk.injEq, true_and,
    and_true, Json.bool.injEq, Json.num.injEq] at h
  cases a
  cases b
  simp only [ScriptScore.mk.injEq]
  exact ⟨natJson_inj h.1, h.2.1, h.2.2.1, stringJson_inj h.2.2.2⟩

theorem uuidJson_inj {a b : Uuid} (h : uuidJson a = uuidJson b) : a = b := by
  rw [uuidJson, uuidJson, Json.str.injEq] at h
  exact Uuid.text_inj h

theorem arr_inj {α : Type} {f : α → Json} (hf : ∀ {a b}, f a = f b → a = b) {l l' : List α}
    (h : Json.arr (l.map f) = Json.arr (l'.map f)) : l = l' := by
  rw [Json.arr.injEq] at h
  exact List.map_injective_iff.mpr (fun _ _ => hf) h

theorem memberIfSome_inj {α : Type} {key : String} {f : α → Json}
    (hf : ∀ {a b}, f a = f b → a = b) {o o' : Option α}
    (h : memberIfSome key f o = memberIfSome key f o') : o = o' := by
  cases o with
  | none =>
    cases o' with
    | none => rfl
    | some b => cases h
  | some a =>
    cases o' with
    | none => cases h
    | some b =>
      simp only [memberIfSome, member, List.cons.injEq, Prod.mk.injEq, true_and, and_true] at h
      rw [hf h]

/-- The logs are left out when there are none; the next member has another key. -/
theorem logs_inj {l l' : List RunLog} {v w : Json} {r r' : List (List Char × Json)}
    (h : (if l = [] then [] else [member "logs" (.arr (l.map RunLog.toJson))]) ++
        member "schema_version" v :: r =
      (if l' = [] then [] else [member "logs" (.arr (l'.map RunLog.toJson))]) ++
        member "schema_version" w :: r') : l = l' ∧ v = w ∧ r = r' := by
  have hkey : "logs".toList ≠ "schema_version".toList := by decide
  by_cases hl : l = []
  · by_cases hl' : l' = []
    · simp only [hl, hl', if_true, List.nil_append, member, List.cons.injEq, Prod.mk.injEq,
        true_and] at h
      exact ⟨hl.trans hl'.symm, h⟩
    · simp only [if_pos hl, if_neg hl', List.nil_append, List.singleton_append, member,
        List.cons.injEq, Prod.mk.injEq] at h
      exact absurd h.1.1.symm hkey
  · by_cases hl' : l' = []
    · simp only [if_neg hl, if_pos hl', List.nil_append, List.singleton_append, member,
        List.cons.injEq, Prod.mk.injEq] at h
      exact absurd h.1.1 hkey
    · simp only [if_neg hl, if_neg hl', List.singleton_append, member, List.cons.injEq,
        Prod.mk.injEq, true_and] at h
      exact ⟨arr_inj RunLog.toJson_inj h.1, h.2⟩

/-- **A result is determined by its JSON.** -/
theorem RunResult.toJson_inj {a b : RunResult} (h : a.toJson = b.toJson) : a = b := by
  simp only [RunResult.toJson, Json.obj.injEq, List.append_assoc, List.cons_append,
    List.nil_append] at h
  obtain ⟨hlogs, hschema, h⟩ := logs_inj h
  simp only [member, List.cons.injEq, Prod.mk.injEq, true_and] at h
  obtain ⟨htoken, hrun, hsha, hrevision, himage, hresources, hstatus, hfindings, hscore⟩ := h
  cases a
  cases b
  simp only [RunResult.mk.injEq]
  exact ⟨hlogs, natJson_inj hschema, uuidJson_inj htoken, uuidJson_inj hrun, stringJson_inj hsha,
    stringJson_inj hrevision, stringJson_inj himage, Resources.toJson_inj hresources,
    RunStatus.text_inj (stringJson_inj hstatus), arr_inj Finding.toJson_inj hfindings,
    memberIfSome_inj ScriptScore.toJson_inj hscore⟩

end Injective

/-! ### Revisions -/

namespace Workflow

def validate (w : Workflow) : Except Error Unit := do
  validateCommand w.publicCommand
  match w.privateCommand with
  | some command => validateCommand command
  | none => return

end Workflow

def Grader.validate (g : Grader) : Except Error Unit := do
  match g.caching with
  | some seed => seed.validate
  | none => pure ()
  check (githubRepository g.repository) "invalid grader repository"
  check (Text.validHex g.revision 40) "grader must use a commit SHA"
  validateImage g.image
  let digest ← fetchOne (.message "missing grader snapshot reference") g.sourceDigest
  check (Text.validHex digest 64) "invalid grader snapshot reference"
  let workflow ← fetchOne (.message "missing script workflow") g.workflow
  workflow.validate

namespace Revision

/-- The space the private copies of a cache take. -/
def cacheCopies (seed : Seed) : Nat :=
  ((seed.config.artifacts.filter fun a => a.mode = .privateCopy).map
    CacheArtifact.maxSizeGib).sum

/-- Whether a path is the public tests or lies beneath them. -/
def isPublicTest (a : Assignment) (path : String) : Bool :=
  path = a.publicTests || Text.startsWith path (a.publicTests ++ "/")

def validate (r : Revision) : Except Error Unit := do
  check (identifier r.courseId && identifier r.assignmentId) "invalid revision identity"
  r.assignment.validate
  check (r.tests.schemaVersion = 1) "unsupported script test marker"
  let grader ← fetchOne (.message "missing shared-runner grader") r.grader
  grader.validate
  match grader.caching with
  | some seed =>
    check (cacheCopies seed < r.assignment.resources.storageGib)
      "private cache copies need additional grading storage"
  | none => pure ()
  check (grader.image = r.assignment.image) "shared runner images must match"
  check (r.assignment.executionProfile = "registered-v1") "only registered-v1 is supported"
  r.manifest.validate
  check (r.manifest.templateRevision = r.assignment.templateRevision)
    "template/manifest revision mismatch"
  check (r.manifest.files.keys.any (isPublicTest r.assignment)) "public tests must be protected"
  check ((toVec r.toJson).length ≤ 1900000) "exercise definition exceeds worker lease size limit"

/-- `Revision::digest`. -/
def digest [Sha256] (r : Revision) : String := Grading.digest (toVec r.toJson)

/-- `serde_json::from_value` on a stored definition.  Every field decodes to
what was encoded, but for a date whose year does not have four digits. -/
def decode (r : Revision) : Except Error Revision := do
  ensure (rfc3339Parses r.assignment.opensAt && rfc3339Parses r.assignment.deadline) .json
  return r

end Revision

/-! ### Results -/

def ScriptScore.validate (s : ScriptScore) (maximum : Int) (baseline : Option PublicBaseline) :
    Except Error Unit := do
  check (s.schemaVersion = 1 && (0 ≤ s.points && s.points ≤ maximum) && Text.len s.reason ≤ 2048)
    "invalid script result"
  check (!s.invalidated || baseline.isSome) "only private grading can invalidate a score"
  check (!(s.invalidated || baseline.any fun b => b.points ≠ s.points) || !Text.blank s.reason)
    "private score changes require a reason"

/-- `RunResult::validate`: the points to record, if the run was scored. -/
def RunResult.validate (r : RunResult) (lease : Lease) : Except Error (Option Int) := do
  lease.revision.validate
  check (r.schemaVersion = 1 && r.leaseToken = lease.leaseToken && r.runId = lease.runId
    && r.sha = lease.sha && r.revisionDigest = lease.revisionDigest) "result provenance mismatch"
  check (r.image = lease.revision.assignment.image
    && r.resources = lease.revision.assignment.resources) "execution environment mismatch"
  check (r.findings.length ≤ 10000
    && r.findings.all fun f => Text.len f.path ≤ 1024 && Text.len f.reason ≤ 256)
    "findings too large"
  check (r.logs.length ≤ 128 && (r.logs.map fun log => Text.len log.text).sum ≤ maxRunLogBytes)
    "run logs exceed limit"
  check (lease.baseline.isNone || r.logs.all fun log => !log.studentVisible)
    "private run logs cannot be student visible"
  if !(r.status = .completed || r.status = .invalidated) then do
    check r.score.isNone "failed execution cannot contain a score"
    check (r.status = .integrityFailed || r.findings = []) "unexpected findings"
    return none
  else do
    check (r.findings = []) "unexpected findings for script workflow"
    let score ← fetchOne (.message "missing script score") r.score
    score.validate lease.revision.assignment.maxPoints lease.baseline
    check (score.invalidated = decide (r.status = .invalidated)) "script status mismatch"
    return if score.invalidated then none else some score.points

end Grading

import SrgGrading.Library.Reading
import SrgGrading.Core.Dates
import SrgGrading.Store.System

/-!
# Stored definitions

A revision is stored as JSON and read back by `serde_json::from_value`.  The
readers take members by their names and refuse members they do not know.

* `Assignment.ofJson_toJson`, `Manifest.ofJson_toJson`, `Grader.ofJson_toJson`: what
  the parts are read as.
* `Revision.ofJson_iff`: the model's `decode` is what the readers do.
* `Revision.round_trip`: **a validated revision survives exactly where the years of
  its dates have four digits.**
-/

open Fallible Json

namespace Grading

/-! ### Readers -/

/-- `deny_unknown_fields`. -/
def fields (names : List String) : Json → Except Error Unit := only .json (names.map String.toList)

def field {α : Type} (name : String) (f : Json → Except Error α) : Json → Except Error α :=
  read .json name.toList f

def fieldIfSome {α : Type} (name : String) (f : Json → Except Error α) :
    Json → Except Error (Option α) :=
  readIfSome name.toList f

def readString : Json → Except Error String
  | .str s => return String.ofList s
  | _ => .error .json

def readInt : Json → Except Error Int
  | .num n => return n
  | _ => .error .json

/-- An unsigned number; its range is that of the type. -/
def readNat : Json → Except Error Nat
  | .num n => do
    ensure (0 ≤ n) .json
    return n.toNat
  | _ => .error .json

def readStrings : Json → Except Error (List String) := readItems .json readString

/-- `config::datetime`, on JSON. -/
def datetime : Json → Except Error DateTime
  | .str s => fetchOne .json (parseRfc3339 s)
  | _ => .error .json

def Resources.ofJson (v : Json) : Except Error Resources := do
  fields ["cpu", "memory_gib", "storage_gib"] v
  let cpu ← field "cpu" readNat v
  let memoryGib ← field "memory_gib" readNat v
  let storageGib ← field "storage_gib" readNat v
  return ⟨cpu, memoryGib, storageGib⟩

def ScorePolicy.ofJson (v : Json) : Except Error ScorePolicy := do
  fields ["source", "selection"] v
  let source ← field "source" readString v
  let selection ← field "selection" readString v
  return ⟨source, selection⟩

def Assignment.ofJson (v : Json) : Except Error Assignment := do
  fields ["title", "opens_at", "deadline", "branch", "template", "template_revision", "image",
    "integrity_manifest", "public_tests", "execution_profile", "max_points", "timeout_seconds",
    "resources", "score"] v
  let title ← field "title" readString v
  let opensAt ← field "opens_at" datetime v
  let deadline ← field "deadline" datetime v
  let branch ← field "branch" readString v
  let template ← field "template" readString v
  let templateRevision ← field "template_revision" readString v
  let image ← field "image" readString v
  let integrityManifest ← field "integrity_manifest" readString v
  let publicTests ← field "public_tests" readString v
  let executionProfile ← field "execution_profile" readString v
  let maxPoints ← field "max_points" readInt v
  let timeoutSeconds ← field "timeout_seconds" readNat v
  let resources ← field "resources" Resources.ofJson v
  let score ← field "score" ScorePolicy.ofJson v
  return ⟨title, opensAt, deadline, branch, template, templateRevision, image,
    integrityManifest, publicTests, executionProfile, maxPoints, timeoutSeconds, resources, score⟩

def ProtectedFile.ofJson (v : Json) : Except Error ProtectedFile := do
  fields ["mode", "sha256"] v
  let mode ← field "mode" readString v
  let sha256 ← field "sha256" readString v
  return ⟨mode, sha256⟩

def readFiles (v : Json) : Except Error (OrderedMap String ProtectedFile) := do
  let members ← readMembers .json ProtectedFile.ofJson v
  return .ofList (members.map fun m => (String.ofList m.1, m.2))

def Manifest.ofJson (v : Json) : Except Error Manifest := do
  fields ["schema_version", "template_revision", "editable", "files"] v
  let schemaVersion ← field "schema_version" readNat v
  let templateRevision ← field "template_revision" readString v
  let editable ← field "editable" readStrings v
  let files ← field "files" readFiles v
  return ⟨schemaVersion, templateRevision, editable, files⟩

def CacheMode.ofJson : Json → Except Error CacheMode
  | .str s =>
    if s = "read_only".toList then return .readOnly
    else if s = "private_copy".toList then return .privateCopy
    else .error .json
  | _ => .error .json

def CacheArtifact.ofJson (v : Json) : Except Error CacheArtifact := do
  fields ["name", "path", "mount_path", "mode", "max_size_gib"] v
  let name ← field "name" readString v
  let path ← field "path" readString v
  let mountPath ← field "mount_path" readString v
  let mode ← field "mode" CacheMode.ofJson v
  let maxSizeGib ← field "max_size_gib" readNat v
  return ⟨name, path, mountPath, mode, maxSizeGib⟩

/-- `caching::architecture`, where the member is missing. -/
def readArchitecture (v : Json) : Except Error String :=
  match v.get? "architecture".toList with
  | none => return "amd64"
  | some w => readString w

def Caching.ofJson (v : Json) : Except Error Caching := do
  fields ["version", "recipe_dir", "command", "timeout_seconds", "resources", "architecture",
    "artifacts"] v
  let version ← field "version" readNat v
  let recipeDir ← field "recipe_dir" readString v
  let command ← field "command" readStrings v
  let timeoutSeconds ← field "timeout_seconds" readNat v
  let resources ← field "resources" Resources.ofJson v
  let architecture ← readArchitecture v
  let artifacts ← field "artifacts" (readItems .json CacheArtifact.ofJson) v
  return ⟨version, recipeDir, command, timeoutSeconds, resources, architecture, artifacts⟩

def Seed.ofJson (v : Json) : Except Error Seed := do
  fields ["config", "input_key", "digest", "namespace", "source_pvc"] v
  let config ← field "config" Caching.ofJson v
  let inputKey ← field "input_key" readString v
  let digest ← field "digest" readString v
  let namespaceName ← field "namespace" readString v
  let sourcePvc ← field "source_pvc" readString v
  return ⟨config, inputKey, digest, namespaceName, sourcePvc⟩

def Workflow.ofJson (v : Json) : Except Error Workflow := do
  fields ["public_command", "private_command"] v
  let publicCommand ← field "public_command" readStrings v
  let privateCommand ← fieldIfSome "private_command" readStrings v
  return ⟨publicCommand, privateCommand⟩

def Grader.ofJson (v : Json) : Except Error Grader := do
  fields ["caching", "repository", "revision", "image", "source_digest", "workflow"] v
  let caching ← fieldIfSome "caching" Seed.ofJson v
  let repository ← field "repository" readString v
  let revision ← field "revision" readString v
  let image ← field "image" readString v
  let sourceDigest ← fieldIfSome "source_digest" readString v
  let workflow ← fieldIfSome "workflow" Workflow.ofJson v
  return ⟨caching, repository, revision, image, sourceDigest, workflow⟩

/-- The array of no tests. -/
def readNoTests : Json → Except Error Unit
  | .arr [] => return ()
  | _ => .error .json

def ScriptTests.ofJson (v : Json) : Except Error ScriptTests := do
  fields ["schema_version", "tests"] v
  let schemaVersion ← field "schema_version" readNat v
  field "tests" readNoTests v
  return ⟨schemaVersion⟩

/-- `serde_json::from_value` of a revision. -/
def Revision.ofJson (v : Json) : Except Error Revision := do
  fields ["course_id", "assignment_id", "assignment", "manifest", "tests", "grader"] v
  let courseId ← field "course_id" readString v
  let assignmentId ← field "assignment_id" readString v
  let assignment ← field "assignment" Assignment.ofJson v
  let manifest ← field "manifest" Manifest.ofJson v
  let tests ← field "tests" ScriptTests.ofJson v
  let grader ← fieldIfSome "grader" Grader.ofJson v
  return ⟨courseId, assignmentId, assignment, manifest, tests, grader⟩

/-! ### Leaves -/

theorem readString_sorted (s : String) : readString (stringJson s).sorted = .ok s := by
  rw [stringJson, sorted, readString, String.ofList_toList]
  rfl

theorem readInt_sorted (n : Int) : readInt (Json.num n).sorted = .ok n := rfl

theorem readNat_sorted (n : Nat) : readNat (natJson n).sorted = .ok n := by
  have hpos : decide ((0 : Int) ≤ (n : Int)) = true := decide_eq_true (Int.natCast_nonneg n)
  rw [natJson, sorted, readNat, hpos]
  rfl

theorem readStrings_sorted (l : List String) : readStrings (stringsJson l).sorted = .ok l :=
  readItems_of readString_sorted l

theorem datetime_sorted (d : DateTime) :
    datetime (dateTimeJson d).sorted = .ok d ↔ rfc3339Parses d = true := by
  rw [dateTimeJson, sorted, datetime, parse_rfc3339, fetchOne_ok, Option.ite_none_right_eq_some]
  exact and_iff_left rfl

/-- A date that is read is the date that was written. -/
theorem datetime_parses {d d' : DateTime} (h : datetime (dateTimeJson d).sorted = .ok d') :
    rfc3339Parses d = true := by
  rw [dateTimeJson, sorted, datetime, parse_rfc3339, fetchOne_ok,
    Option.ite_none_right_eq_some] at h
  exact h.1

/-! ### Objects -/

theorem Resources.ofJson_toJson (r : Resources) : Resources.ofJson r.toJson.sorted = .ok r := by
  have hkeys : ([member "cpu" (natJson r.cpu), member "memory_gib" (natJson r.memoryGib),
      member "storage_gib" (natJson r.storageGib)].map Prod.fst).Nodup := of_decide_eq_true rfl
  simp only [Resources.ofJson, bind_ok, pure_ok]
  exact ⟨(), only_of hkeys (of_decide_eq_true rfl), _, read_of hkeys rfl (readNat_sorted _), _,
    read_of hkeys rfl (readNat_sorted _), _, read_of hkeys rfl (readNat_sorted _), rfl⟩

theorem ScorePolicy.ofJson_toJson (p : ScorePolicy) : ScorePolicy.ofJson p.toJson.sorted = .ok p := by
  have hkeys : ([member "source" (stringJson p.source),
      member "selection" (stringJson p.selection)].map Prod.fst).Nodup := of_decide_eq_true rfl
  simp only [ScorePolicy.ofJson, bind_ok, pure_ok]
  exact ⟨(), only_of hkeys (of_decide_eq_true rfl), _, read_of hkeys rfl (readString_sorted _), _,
    read_of hkeys rfl (readString_sorted _), rfl⟩

/-- The members of an assignment have different names. -/
theorem Assignment.keys_nodup (a : Assignment) :
    ([member "title" (stringJson a.title), member "opens_at" (dateTimeJson a.opensAt),
      member "deadline" (dateTimeJson a.deadline), member "branch" (stringJson a.branch),
      member "template" (stringJson a.template),
      member "template_revision" (stringJson a.templateRevision),
      member "image" (stringJson a.image),
      member "integrity_manifest" (stringJson a.integrityManifest),
      member "public_tests" (stringJson a.publicTests),
      member "execution_profile" (stringJson a.executionProfile),
      member "max_points" (.num a.maxPoints),
      member "timeout_seconds" (natJson a.timeoutSeconds),
      member "resources" a.resources.toJson, member "score" a.score.toJson].map Prod.fst).Nodup :=
  of_decide_eq_true rfl

/-- An assignment is read as it was written, if its dates are. -/
theorem Assignment.ofJson_toJson {a : Assignment} (hopens : rfc3339Parses a.opensAt = true)
    (hdeadline : rfc3339Parses a.deadline = true) : Assignment.ofJson a.toJson.sorted = .ok a := by
  have hkeys := a.keys_nodup
  simp only [Assignment.ofJson, bind_ok, pure_ok]
  exact ⟨(), only_of hkeys (of_decide_eq_true rfl), _, read_of hkeys rfl (readString_sorted _), _,
    read_of hkeys rfl ((datetime_sorted _).mpr hopens), _,
    read_of hkeys rfl ((datetime_sorted _).mpr hdeadline), _,
    read_of hkeys rfl (readString_sorted _), _, read_of hkeys rfl (readString_sorted _), _,
    read_of hkeys rfl (readString_sorted _), _, read_of hkeys rfl (readString_sorted _), _,
    read_of hkeys rfl (readString_sorted _), _, read_of hkeys rfl (readString_sorted _), _,
    read_of hkeys rfl (readString_sorted _), _, read_of hkeys rfl (readInt_sorted _), _,
    read_of hkeys rfl (readNat_sorted _), _, read_of hkeys rfl (Resources.ofJson_toJson _), _,
    read_of hkeys rfl (ScorePolicy.ofJson_toJson _), rfl⟩

/-- An assignment that is read at all has dates that are. -/
theorem Assignment.ofJson_parses {a b : Assignment} (h : Assignment.ofJson a.toJson.sorted = .ok b) :
    rfc3339Parses a.opensAt = true ∧ rfc3339Parses a.deadline = true := by
  simp only [Assignment.ofJson, bind_ok] at h
  obtain ⟨_, _, _, _, _, hopens, _, hdeadline, _⟩ := h
  exact ⟨datetime_parses ((read_sorted a.keys_nodup rfl).symm.trans hopens),
    datetime_parses ((read_sorted a.keys_nodup rfl).symm.trans hdeadline)⟩

theorem ProtectedFile.ofJson_toJson (f : ProtectedFile) :
    ProtectedFile.ofJson f.toJson.sorted = .ok f := by
  have hkeys : ([member "mode" (stringJson f.mode),
      member "sha256" (stringJson f.sha256)].map Prod.fst).Nodup := of_decide_eq_true rfl
  simp only [ProtectedFile.ofJson, bind_ok, pure_ok]
  exact ⟨(), only_of hkeys (of_decide_eq_true rfl), _, read_of hkeys rfl (readString_sorted _), _,
    read_of hkeys rfl (readString_sorted _), rfl⟩

/-- The files of a manifest, in the order of their paths. -/
theorem readFiles_sorted (files : OrderedMap String ProtectedFile) :
    readFiles (Json.obj (files.entries.map fun e => member e.1 e.2.toJson)).sorted = .ok files := by
  have hsorted : (files.entries.map fun e => (e.1.toList, e.2)).Pairwise
      fun a b => a.1 < b.1 := by
    rw [List.pairwise_map]
    exact files.sorted
  have hmembers := readMembers_of (e := Error.json) ProtectedFile.ofJson_toJson hsorted
  rw [List.map_map] at hmembers
  have hmap : (files.entries.map fun e => (e.1.toList, e.2)).map
      (fun m => (String.ofList m.1, m.2)) = files.entries := by
    rw [List.map_map]
    have hid : ∀ e : String × ProtectedFile, (String.ofList e.1.toList, e.2) = e := fun e =>
      Prod.ext String.ofList_toList rfl
    exact (List.map_congr_left fun e _ => hid e).trans (List.map_id _)
  have hfiles : OrderedMap.ofList files.entries = files := by
    apply OrderedMap.ext_get?
    intro path
    apply Option.ext
    intro file
    rw [OrderedMap.get?_ofList files.keys_nodup, OrderedMap.mem_entries_iff]
  simp only [readFiles, bind_ok, pure_ok]
  refine ⟨_, hmembers, ?_⟩
  rw [hmap, hfiles]

theorem Manifest.ofJson_toJson (m : Manifest) : Manifest.ofJson m.toJson.sorted = .ok m := by
  have hkeys : ([member "schema_version" (natJson m.schemaVersion),
      member "template_revision" (stringJson m.templateRevision),
      member "editable" (stringsJson m.editable),
      member "files" (.obj (m.files.entries.map fun e => member e.1 e.2.toJson))].map
        Prod.fst).Nodup := of_decide_eq_true rfl
  simp only [Manifest.ofJson, bind_ok, pure_ok]
  exact ⟨(), only_of hkeys (of_decide_eq_true rfl), _, read_of hkeys rfl (readNat_sorted _), _,
    read_of hkeys rfl (readString_sorted _), _, read_of hkeys rfl (readStrings_sorted _), _,
    read_of hkeys rfl (readFiles_sorted _), rfl⟩

theorem CacheMode.ofJson_toJson (m : CacheMode) : CacheMode.ofJson m.toJson.sorted = .ok m := by
  cases m <;> rfl

theorem CacheArtifact.ofJson_toJson (a : CacheArtifact) :
    CacheArtifact.ofJson a.toJson.sorted = .ok a := by
  have hkeys : ([member "name" (stringJson a.name), member "path" (stringJson a.path),
      member "mount_path" (stringJson a.mountPath), member "mode" a.mode.toJson,
      member "max_size_gib" (natJson a.maxSizeGib)].map Prod.fst).Nodup := of_decide_eq_true rfl
  simp only [CacheArtifact.ofJson, bind_ok, pure_ok]
  exact ⟨(), only_of hkeys (of_decide_eq_true rfl), _, read_of hkeys rfl (readString_sorted _), _,
    read_of hkeys rfl (readString_sorted _), _, read_of hkeys rfl (readString_sorted _), _,
    read_of hkeys rfl (CacheMode.ofJson_toJson _), _, read_of hkeys rfl (readNat_sorted _), rfl⟩

theorem Caching.ofJson_toJson (c : Caching) : Caching.ofJson c.toJson.sorted = .ok c := by
  have hkeys : ([member "version" (natJson c.version), member "recipe_dir" (stringJson c.recipeDir),
      member "command" (stringsJson c.command),
      member "timeout_seconds" (natJson c.timeoutSeconds), member "resources" c.resources.toJson,
      member "architecture" (stringJson c.architecture),
      member "artifacts" (.arr (c.artifacts.map CacheArtifact.toJson))].map Prod.fst).Nodup :=
    of_decide_eq_true rfl
  have harchitecture : readArchitecture c.toJson.sorted = .ok c.architecture := by
    rw [readArchitecture, Caching.toJson, get?_sorted hkeys]
    exact readString_sorted _
  simp only [Caching.ofJson, bind_ok, pure_ok]
  exact ⟨(), only_of hkeys (of_decide_eq_true rfl), _, read_of hkeys rfl (readNat_sorted _), _,
    read_of hkeys rfl (readString_sorted _), _, read_of hkeys rfl (readStrings_sorted _), _,
    read_of hkeys rfl (readNat_sorted _), _, read_of hkeys rfl (Resources.ofJson_toJson _), _,
    harchitecture, _, read_of hkeys rfl (readItems_of CacheArtifact.ofJson_toJson _), rfl⟩

theorem Seed.ofJson_toJson (s : Seed) : Seed.ofJson s.toJson.sorted = .ok s := by
  have hkeys : ([member "config" s.config.toJson, member "input_key" (stringJson s.inputKey),
      member "digest" (stringJson s.digest), member "namespace" (stringJson s.namespaceName),
      member "source_pvc" (stringJson s.sourcePvc)].map Prod.fst).Nodup := of_decide_eq_true rfl
  simp only [Seed.ofJson, bind_ok, pure_ok]
  exact ⟨(), only_of hkeys (of_decide_eq_true rfl), _,
    read_of hkeys rfl (Caching.ofJson_toJson _), _, read_of hkeys rfl (readString_sorted _), _,
    read_of hkeys rfl (readString_sorted _), _, read_of hkeys rfl (readString_sorted _), _,
    read_of hkeys rfl (readString_sorted _), rfl⟩

theorem Workflow.ofJson_toJson (w : Workflow) : Workflow.ofJson w.toJson.sorted = .ok w := by
  obtain ⟨publicCommand, privateCommand⟩ := w
  have hkeys : ([member "public_command" (stringsJson publicCommand), member "private_command"
      ((privateCommand.map stringsJson).getD .null)].map Prod.fst).Nodup := of_decide_eq_true rfl
  have hprivate : fieldIfSome "private_command" readStrings
      (Workflow.toJson ⟨publicCommand, privateCommand⟩).sorted = .ok privateCommand := by
    cases privateCommand with
    | none => exact readIfSome_of_null hkeys rfl
    | some l => exact readIfSome_of hkeys rfl (fun h => (by cases h)) (readStrings_sorted l)
  simp only [Workflow.ofJson, bind_ok, pure_ok]
  exact ⟨(), only_of hkeys (of_decide_eq_true rfl), _, read_of hkeys rfl (readStrings_sorted _), _,
    hprivate, rfl⟩

/-- A grader is written without the members it lacks. -/
theorem Grader.ofJson_toJson (g : Grader) : Grader.ofJson g.toJson.sorted = .ok g := by
  obtain ⟨caching, repository, revision, image, sourceDigest, workflow⟩ := g
  have hkeys : ((memberIfSome "caching" Seed.toJson caching ++
      [member "repository" (stringJson repository), member "revision" (stringJson revision),
        member "image" (stringJson image)] ++
      memberIfSome "source_digest" stringJson sourceDigest ++
      memberIfSome "workflow" Workflow.toJson workflow).map Prod.fst).Nodup := by
    cases caching <;> cases sourceDigest <;> cases workflow <;> exact of_decide_eq_true rfl
  simp only [Grader.ofJson, bind_ok, pure_ok]
  refine ⟨(), ?_, caching, ?_, repository, ?_, revision, ?_, image, ?_, sourceDigest, ?_, workflow,
    ?_, rfl⟩
  · refine only_of hkeys ?_
    cases caching <;> cases sourceDigest <;> cases workflow <;> exact of_decide_eq_true rfl
  · cases caching with
    | none =>
      refine readIfSome_of_none hkeys ?_
      cases sourceDigest <;> cases workflow <;> rfl
    | some s => exact readIfSome_of hkeys rfl (fun h => (by cases h)) (Seed.ofJson_toJson s)
  · refine read_of hkeys ?_ (readString_sorted _)
    cases caching <;> rfl
  · refine read_of hkeys ?_ (readString_sorted _)
    cases caching <;> rfl
  · refine read_of hkeys ?_ (readString_sorted _)
    cases caching <;> rfl
  · cases sourceDigest with
    | none =>
      refine readIfSome_of_none hkeys ?_
      cases caching <;> cases workflow <;> rfl
    | some s =>
      refine readIfSome_of hkeys ?_ (fun h => (by cases h)) (readString_sorted s)
      cases caching <;> rfl
  · cases workflow with
    | none =>
      refine readIfSome_of_none hkeys ?_
      cases caching <;> cases sourceDigest <;> rfl
    | some w =>
      refine readIfSome_of hkeys ?_ (fun h => (by cases h)) (Workflow.ofJson_toJson w)
      cases caching <;> cases sourceDigest <;> rfl

theorem ScriptTests.ofJson_toJson (t : ScriptTests) : ScriptTests.ofJson t.toJson.sorted = .ok t := by
  have hkeys : ([member "schema_version" (natJson t.schemaVersion),
      member "tests" (.arr [])].map Prod.fst).Nodup := of_decide_eq_true rfl
  simp only [ScriptTests.ofJson, bind_ok, pure_ok]
  exact ⟨(), only_of hkeys (of_decide_eq_true rfl), _, read_of hkeys rfl (readNat_sorted _), _,
    read_of hkeys rfl rfl, rfl⟩

/-! ### Revisions -/

namespace Revision

/-- What is stored of a revision. -/
def stored (r : Revision) : Json := r.toJson.sorted

theorem keys_nodup (r : Revision) : (([member "course_id" (stringJson r.courseId),
    member "assignment_id" (stringJson r.assignmentId),
    member "assignment" r.assignment.toJson, member "manifest" r.manifest.toJson,
    member "tests" r.tests.toJson] ++ memberIfSome "grader" Grader.toJson r.grader).map
      Prod.fst).Nodup := by
  cases r.grader <;> exact of_decide_eq_true rfl

/-- **What is read of a stored revision** is what the model's `decode` says. -/
theorem ofJson_iff {r r' : Revision} : ofJson r.stored = .ok r' ↔ r.decode = .ok r' := by
  have hkeys := r.keys_nodup
  have hread : rfc3339Parses r.assignment.opensAt = true →
      rfc3339Parses r.assignment.deadline = true → ofJson r.stored = .ok r := by
    intro hopens hdeadline
    obtain ⟨courseId, assignmentId, assignment, manifest, tests, grader⟩ := r
    simp only [ofJson, bind_ok, pure_ok]
    refine ⟨(), ?_, _, read_of hkeys rfl (readString_sorted _), _,
      read_of hkeys rfl (readString_sorted _), _,
      read_of hkeys rfl (Assignment.ofJson_toJson hopens hdeadline), _,
      read_of hkeys rfl (Manifest.ofJson_toJson _), _,
      read_of hkeys rfl (ScriptTests.ofJson_toJson _), grader, ?_, rfl⟩
    · refine only_of hkeys ?_
      cases grader <;> exact of_decide_eq_true rfl
    · cases grader with
      | none => exact readIfSome_of_none hkeys rfl
      | some g => exact readIfSome_of hkeys rfl (fun h => (by cases h)) (Grader.ofJson_toJson g)
  have hdates : ∀ {r'}, ofJson r.stored = .ok r' → rfc3339Parses r.assignment.opensAt = true ∧
      rfc3339Parses r.assignment.deadline = true := by
    intro r' h
    simp only [ofJson, bind_ok] at h
    obtain ⟨_, _, _, _, _, _, _, hassignment, _⟩ := h
    exact Assignment.ofJson_parses ((read_sorted hkeys rfl).symm.trans hassignment)
  simp only [decode, bind_ok, ensure_ok, pure_ok, Bool.and_eq_true]
  constructor
  · intro h
    obtain ⟨hopens, hdeadline⟩ := hdates h
    refine ⟨(), ⟨hopens, hdeadline⟩, ?_⟩
    rw [hread hopens hdeadline, Except.ok.injEq] at h
    exact h
  · rintro ⟨_, ⟨hopens, hdeadline⟩, rfl⟩
    exact hread hopens hdeadline

/-- The year of a date has four digits. -/
def FourDigitYear (d : DateTime) : Prop :=
  0 ≤ (civil (d.second / 86400)).1 ∧ (civil (d.second / 86400)).1 ≤ 9999

theorem parses_iff {d : DateTime} : rfc3339Parses d = true ↔ FourDigitYear d := by
  rw [rfc3339Parses, Bool.and_eq_true, decide_eq_true_eq, decide_eq_true_eq, FourDigitYear]

/-- A stored revision is read again as a valid one with the same digest. -/
def Survives [Sha256] (r : Revision) : Prop :=
  ∃ r', ofJson r.stored = .ok r' ∧ r'.validate = .ok () ∧ r'.digest = r.digest

/-- **A validated revision survives exactly where the years of its dates have four
digits.** -/
theorem round_trip [Sha256] {r : Revision} (h : r.validate = .ok ()) :
    r.Survives ↔ FourDigitYear r.assignment.opensAt ∧ FourDigitYear r.assignment.deadline := by
  simp only [Survives, ofJson_iff, decode, bind_ok, ensure_ok, pure_ok, Bool.and_eq_true,
    parses_iff]
  constructor
  · rintro ⟨_, ⟨_, hyears, _⟩, _⟩
    exact hyears
  · intro hyears
    exact ⟨r, ⟨(), hyears, rfl⟩, h, rfl⟩

end Revision

namespace Sample

attribute [local instance] Sha256.standard

/-- `revision` with a deadline of 9999-12-31T23:30:00-01:00. -/
def lateRevision : Revision :=
  { revision with assignment := { revision.assignment with
    deadline := .ofInstant (253402302600 * nanosPerSecond) } }

/-- A store with the source of the grader and no revision yet. -/
def unpublished : Store :=
  { start.store with
    revisions := [], repositories := []
    artifacts := [⟨"dddddddddddddddddddddddddddddddddddddddddddddddddddddddddddddddd", 1, "grader"⟩] }

/-- **A validated revision that is inserted does not survive**: in UTC its deadline
is in the year 10000. -/
theorem late_lost : parseRfc3339 "9999-12-31T23:30:00-01:00".toList =
      some lateRevision.assignment.deadline ∧
    lateRevision.validate = .ok () ∧
    (∃ s, Exercises.insert unpublished 2 lateRevision = .ok (s, lateRevision.digest)) ∧
    ¬ lateRevision.Survives := by
  have hvalid : lateRevision.validate = .ok () :=
    revision_with (by decide +kernel) ⟨rfl, rfl, rfl, rfl⟩ (by decide +kernel)
  have hyear : (civil (lateRevision.assignment.deadline.second / 86400)).1 = 10000 := by
    decide +kernel
  have hinserted : ∃ s, Exercises.insert unpublished 2 lateRevision =
      .ok (s, lateRevision.digest) := by
    simp only [Exercises.insert, bind_ok, fetchOne_ok, ensure_ok, unpublished, List.any_nil,
      Bool.false_eq_true, if_false, pure_ok, Prod.mk.injEq, and_true]
    exact ⟨_, (), hvalid, grader, rfl, (), by decide +kernel, (), by decide +kernel, rfl⟩
  refine ⟨by decide +kernel, hvalid, hinserted, fun h => ?_⟩
  have hdeadline := ((Revision.round_trip hvalid).mp h).2.2
  rw [hyear] at hdeadline
  exact absurd hdeadline (by decide)

/-- `revision` with a deadline in the leap second of 2016. -/
def leapRevision : Revision :=
  { revision with assignment := { revision.assignment with
    deadline := ⟨1483228799, 1000000000, by decide, by decide⟩ } }

/-- A revision with dates in 1970 survives, and so does one whose deadline is a leap
second. -/
theorem round_trip_revision : revision.Survives ∧
    parseRfc3339 "2016-12-31T23:59:60Z".toList = some leapRevision.assignment.deadline ∧
    leapRevision.Survives := by
  have hvalid : leapRevision.validate = .ok () :=
    revision_with (by decide +kernel) ⟨rfl, rfl, rfl, rfl⟩ (by decide +kernel)
  refine ⟨?_, by decide +kernel, ?_⟩
  · exact (Revision.round_trip revision_checked.1).mpr
      ⟨Revision.parses_iff.mp (by decide +kernel), Revision.parses_iff.mp (by decide +kernel)⟩
  · exact (Revision.round_trip hvalid).mpr
      ⟨Revision.parses_iff.mp (by decide +kernel), Revision.parses_iff.mp (by decide +kernel)⟩

end Sample

end Grading

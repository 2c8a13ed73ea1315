import SrgGrading.Library.JsonSize
import SrgGrading.Core.Dates
import SrgGrading.Core.Keys
import SrgGrading.Core.Snapshots

/-!
# How long the documents are

Snapshots and leases as JSON, from the limits they are checked against.

* `Snapshot.length_toVec_le`: a snapshot of `validate_structure`.
* `Lease.length_toVec_le`: a lease as the server hands it out.
-/

open Fallible

namespace Grading

/-! ### Parts -/

theorem length_toVec (v : Json) : (toVec v).length = v.size := by
  rw [toVec, Json.size]
  induction v.render with
  | nil => rfl
  | cons c l ih =>
    rw [List.flatMap_cons, List.length_append, String.length_utf8EncodeChar, ih,
      String.utf8Len_cons, Nat.add_comm]

theorem utf8Len_toList (s : String) : String.utf8Len s.toList = Text.len s := by
  rw [← String.utf8ByteSize_ofList, String.ofList_toList]
  rfl

theorem size_stringJson_le (s : String) : (stringJson s).size ≤ 6 * Text.len s + 2 := by
  rw [stringJson, Json.size_str, ← utf8Len_toList]
  exact Json.strSize_le s.toList

theorem size_hex_le {s : String} {n : Nat} (h : Text.validHex s n = true) :
    (stringJson s).size ≤ 6 * n + 2 := by
  rw [Text.validHex, Bool.and_eq_true, decide_eq_true_eq] at h
  have hsize := size_stringJson_le s
  omega

theorem size_natJson_le {n k : Nat} (hpos : 0 < k) (h : n < 10 ^ k) :
    (natJson n).size ≤ 4 * (k + 1) := by
  rw [natJson]
  exact Json.size_num hpos (by rwa [Int.natAbs_natCast])

theorem size_uuidJson_le (id : Uuid) : (uuidJson id).size ≤ 866 := by
  have hlen : id.text.length = 36 := by
    rw [Uuid.text]
    simp only [List.length_append, List.length_cons, List.length_take, List.length_drop,
      Text.length_hex]
    rfl
  rw [uuidJson, Json.size_str]
  have hsize := Json.strSize_le_length id.text
  omega

/-- The years of `DateTime<Utc>`. -/
def inRange (t : Time) : Prop := (civil (t / nanosPerSecond / 86400)).1.natAbs ≤ 262143

theorem length_fractionText_le {n : Nat} (h : n < 1000000000) : (fractionText n).length ≤ 10 := by
  rw [fractionText]
  split_ifs
  · exact Nat.zero_le _
  · rw [List.length_cons, length_decimal (by decide) (by omega)]
    decide
  · rw [List.length_cons, length_decimal (by decide) (by omega)]
    decide
  · rw [List.length_cons, length_decimal (by decide) (by omega)]

theorem length_yearText_le {year : Int} (h : year.natAbs ≤ 262143) :
    (yearText year).length ≤ 7 := by
  rw [yearText]
  split
  · rw [length_decimal (by decide) (by omega)]
    decide
  · have hdigits := Nat.toDigits_length 10 year.natAbs 6 (by decide) (by omega)
    rw [List.length_cons, decimal, List.length_append, List.length_replicate]
    omega

theorem size_dateTimeJson_le {d : DateTime} (h : (civil (d.second / 86400)).1.natAbs ≤ 262143) :
    (dateTimeJson d).size ≤ 794 := by
  have hrange := civil_range (d.second / 86400)
  have hfraction := length_fractionText_le (Nat.mod_lt d.nanos (by decide))
  have hbounded := d.bounded
  have hlen : (rfc3339 d).length ≤ 33 := by
    rcases hcivil : civil (d.second / 86400) with ⟨year, month, day⟩
    rw [hcivil] at h hrange
    dsimp only at h hrange
    have hyear := length_yearText_le h
    simp only [rfc3339, dateTimeText, hcivil, List.length_append, List.length_cons,
      List.length_nil]
    rw [length_decimal (by decide) (by omega), length_decimal (by decide) (by omega),
      length_decimal (by decide) (by omega), length_decimal (by decide) (by omega),
      length_decimal (by decide) (by omega)]
    omega
  rw [dateTimeJson, Json.size_str]
  have hsize := Json.strSize_le_length (rfc3339 d)
  omega

theorem size_timeJson_le {t : Time} (h : inRange t) : (timeJson t).size ≤ 794 :=
  size_dateTimeJson_le h

/-! ### Snapshots -/

theorem printable_of_safePath {path : String} (h : safePath path = .ok ()) :
    Text.len path ≤ 1024 ∧ ∀ c ∈ path.toList, 32 ≤ c.toNat := by
  simp only [safePath, bind_ok, check_ok, Bool.and_eq_true, decide_eq_true_eq,
    Bool.not_eq_true', List.any_eq_false] at h
  obtain ⟨_, ⟨⟨⟨_, hlen⟩, _⟩, hcontrol⟩, _⟩ := h
  refine ⟨hlen, fun c hc => ?_⟩
  have hplain := hcontrol c hc
  simp only [Text.isControl, Bool.or_eq_true, decide_eq_true_eq, not_or] at hplain
  omega

/-- The text of a path takes at most two bytes for one. -/
theorem strSize_path_le {path : String} (h : safePath path = .ok ()) :
    Json.strSize path.toList ≤ 2050 := by
  obtain ⟨hlen, hprintable⟩ := printable_of_safePath h
  have hsize := Json.strSize_of_printable hprintable
  rw [utf8Len_toList] at hsize
  omega

/-- Nothing of a base64 text is escaped. -/
theorem size_base64 {data : String} {bytes : List UInt8}
    (h : decodeBase64 data.toList = some bytes) :
    (stringJson data).size = (bytes.length + 2) / 3 * 4 + 2 := by
  have hplain : ∀ c ∈ data.toList, Json.escape c = [c] := by
    rw [encode_decodeBase64 h]
    exact forall_mem_encodeBase64 (by decide) (by decide) bytes
  rw [stringJson, Json.size_str, Json.strSize_of_plain hplain, utf8Len_toList, len_of_decode h]

namespace Snapshot

theorem size_file_le {path : String} {blob : Blob} (h : FileWellFormed path blob) :
    3 * (Json.strSize path.toList + blob.toJson.size + 2) ≤ 6245 + 4 * blob.decodedSize := by
  obtain ⟨hpath, hmode, bytes, hdata, _⟩ := h
  have hstr := strSize_path_le hpath
  have hmodeSize : (stringJson blob.mode).size = 8 := by
    have hall : ∀ mode ∈ ["100644", "100755", "120000", "160000"],
        (stringJson mode).size = 8 := by decide
    exact hall _ hmode
  have hkeys : Json.strSize "mode".toList = 6 ∧ Json.strSize "data".toList = 6 := by decide
  rw [Blob.decodedSize_eq hdata, Blob.toJson, Json.size_obj_cons]
  simp only [member, Json.membersSize_cons, Json.membersSize_nil, hkeys, hmodeSize,
    size_base64 hdata]
  omega

theorem size_files_le {l : List (String × Blob)}
    (h : ∀ path blob, (path, blob) ∈ l → FileWellFormed path blob) :
    3 * Json.membersSize (l.map fun e => member e.1 e.2.toJson) ≤
      6245 * l.length + 4 * decodedTotal l := by
  induction l with
  | nil => exact le_refl _
  | cons e l ih =>
    have hfirst := size_file_le (h e.1 e.2 List.mem_cons_self)
    have hrest := ih fun path blob hm => h path blob (List.mem_cons_of_mem _ hm)
    rw [List.map_cons, Json.membersSize_cons, List.length_cons, decodedTotal_cons]
    rw [member]
    dsimp only
    omega

/-- **A snapshot that is accepted fits wherever snapshots are read.** -/
theorem length_toVec_le {s : Snapshot} (h : s.validateStructure = .ok ()) :
    (toVec s.toJson).length ≤ maxSnapshotBytes * 2 := by
  simp only [validateStructure, bind_ok, check_ok, decide_eq_true_eq,
    validateFiles_iff (Nat.zero_le _), Nat.zero_add] at h
  obtain ⟨_, hsha, _, hcount, hfiles, htotal, _⟩ := h
  have hshaSize := size_hex_le hsha
  have hsize := size_files_le hfiles
  have hkeys : Json.strSize "sha".toList = 5 ∧ Json.strSize "files".toList = 7 := by decide
  rw [length_toVec, toJson]
  generalize s.files.entries.map (fun e => member e.1 e.2.toJson) = members at hsize ⊢
  have hobj := Json.size_obj_le members
  rw [Json.size_obj_cons]
  simp only [member, Json.membersSize_cons, Json.membersSize_nil, hkeys]
  rw [OrderedMap.size, maxFiles] at hcount
  rw [maxSnapshotBytes] at htotal ⊢
  omega

end Snapshot

/-! ### Leases -/

def PublicBaseline.toJson (b : PublicBaseline) : Json :=
  .obj [member "run_id" (uuidJson b.runId), member "points" (.num b.points),
    member "deadline" (timeJson b.deadline)]

namespace Lease

def toJson (l : Lease) : Json :=
  .obj ([member "schema_version" (natJson l.schemaVersion), member "task_id" (uuidJson l.taskId),
    member "run_id" (uuidJson l.runId), member "lease_token" (uuidJson l.leaseToken),
    member "expires_at" (timeJson l.expiresAt), member "sha" (stringJson l.sha),
    member "revision_digest" (stringJson l.revisionDigest),
    member "source_digest" (stringJson l.sourceDigest),
    member "revision" l.revision.toJson] ++
    memberIfSome "baseline" PublicBaseline.toJson l.baseline)

/-- A lease of a valid revision, with what the columns of the database hold. -/
structure Served (l : Lease) : Prop where
  schemaVersion : l.schemaVersion = 1
  revision : l.revision.validate = .ok ()
  expiresAt : inRange l.expiresAt
  sha : Text.validHex l.sha 40 = true
  revisionDigest : Text.validHex l.revisionDigest 64 = true
  sourceDigest : Text.validHex l.sourceDigest 64 = true
  baseline : ∀ b ∈ l.baseline, b.points.natAbs ≤ 2 ^ 31 ∧ inRange b.deadline

end Lease

theorem Revision.validate_ok {r : Revision} (h : r.validate = .ok ()) :
    r.assignment.validate = .ok () ∧ r.manifest.validate = .ok () ∧ r.toJson.size ≤ 1900000 := by
  rw [Revision.validate] at h
  simp only [bind_ok] at h
  obtain ⟨_, _, _, hassignment, _, _, grader, _, _, _, h⟩ := h
  rw [← length_toVec]
  cases hcaching : grader.caching with
  | none =>
    rw [hcaching] at h
    simp only [bind_ok, check_ok, decide_eq_true_eq] at h
    obtain ⟨_, _, _, _, _, hmanifest, _, _, _, _, hsize⟩ := h
    exact ⟨hassignment, hmanifest, hsize⟩
  | some seed =>
    rw [hcaching] at h
    simp only [bind_ok, check_ok, decide_eq_true_eq] at h
    obtain ⟨_, _, _, _, _, _, _, hmanifest, _, _, _, _, hsize⟩ := h
    exact ⟨hassignment, hmanifest, hsize⟩

/-! ### Parts of a revision -/

theorem ScorePolicy.size_le (p : ScorePolicy) :
    p.toJson.size ≤ 6 * (Text.len p.source + Text.len p.selection) + 50 := by
  have hsource := size_stringJson_le p.source
  have hselection := size_stringJson_le p.selection
  have hkeys : Json.strSize "source".toList = 8 ∧ Json.strSize "selection".toList = 11 := by decide
  rw [ScorePolicy.toJson, Json.size_obj_cons]
  simp only [member, Json.membersSize_cons, Json.membersSize_nil, hkeys]
  omega

/-- **An assignment** takes no more than its texts, its times and its numbers. -/
theorem Assignment.size_le {a : Assignment} {m n : Nat}
    (htexts : Text.len a.title + Text.len a.branch + Text.len a.template +
      Text.len a.templateRevision + Text.len a.image + Text.len a.integrityManifest +
      Text.len a.publicTests + Text.len a.executionProfile + Text.len a.score.source +
      Text.len a.score.selection ≤ m)
    (hnumbers : (dateTimeJson a.opensAt).size + (dateTimeJson a.deadline).size +
      (Json.num a.maxPoints).size + (natJson a.timeoutSeconds).size + a.resources.toJson.size ≤ n) :
    a.toJson.size ≤ 6 * m + n + 500 := by
  have htitle := size_stringJson_le a.title
  have hbranch := size_stringJson_le a.branch
  have htemplate := size_stringJson_le a.template
  have hrevision := size_stringJson_le a.templateRevision
  have himage := size_stringJson_le a.image
  have hmanifest := size_stringJson_le a.integrityManifest
  have htests := size_stringJson_le a.publicTests
  have hprofile := size_stringJson_le a.executionProfile
  have hscore := a.score.size_le
  have hkeys : Json.strSize "title".toList = 7 ∧ Json.strSize "opens_at".toList = 10 ∧
      Json.strSize "deadline".toList = 10 ∧ Json.strSize "branch".toList = 8 ∧
      Json.strSize "template".toList = 10 ∧ Json.strSize "template_revision".toList = 19 ∧
      Json.strSize "image".toList = 7 ∧ Json.strSize "integrity_manifest".toList = 20 ∧
      Json.strSize "public_tests".toList = 14 ∧ Json.strSize "execution_profile".toList = 19 ∧
      Json.strSize "max_points".toList = 12 ∧ Json.strSize "timeout_seconds".toList = 17 ∧
      Json.strSize "resources".toList = 11 ∧ Json.strSize "score".toList = 7 := by decide
  rw [Assignment.toJson, Json.size_obj_cons]
  simp only [member, Json.membersSize_cons, Json.membersSize_nil, hkeys]
  clear hkeys
  linarith

theorem Manifest.size_le (m : Manifest) : m.toJson.size ≤
    (natJson m.schemaVersion).size + (stringJson m.templateRevision).size +
      (stringsJson m.editable).size +
      Json.membersSize (m.files.entries.map fun e => member e.1 e.2.toJson) + 100 := by
  have hobj := Json.size_obj_le (m.files.entries.map fun e => member e.1 e.2.toJson)
  have hkeys : Json.strSize "schema_version".toList = 16 ∧
      Json.strSize "template_revision".toList = 19 ∧ Json.strSize "editable".toList = 10 ∧
      Json.strSize "files".toList = 7 := by decide
  rw [Manifest.toJson, Json.size_obj_cons]
  generalize m.files.entries.map (fun e => member e.1 e.2.toJson) = members at hobj ⊢
  simp only [member, Json.membersSize_cons, Json.membersSize_nil, hkeys]
  omega

/-- A grader without a cache. -/
theorem Grader.size_le {g : Grader} {m n : Nat} (hcaching : g.caching = none)
    (htexts : Text.len g.repository + Text.len g.revision + Text.len g.image ≤ m)
    (hreferences : Json.membersSize (memberIfSome "source_digest" stringJson g.sourceDigest) +
      Json.membersSize (memberIfSome "workflow" Workflow.toJson g.workflow) ≤ n) :
    g.toJson.size ≤ 6 * m + n + 100 := by
  have hrepository := size_stringJson_le g.repository
  have hrevision := size_stringJson_le g.revision
  have himage := size_stringJson_le g.image
  have hkeys : Json.strSize "repository".toList = 12 ∧ Json.strSize "revision".toList = 10 ∧
      Json.strSize "image".toList = 7 := by decide
  rw [Grader.toJson, hcaching]
  refine (Json.size_obj_le _).trans ?_
  generalize memberIfSome "source_digest" stringJson g.sourceDigest = digestMember at *
  generalize memberIfSome "workflow" Workflow.toJson g.workflow = workflowMember at *
  simp only [memberIfSome, member, Json.membersSize_append, Json.membersSize_cons,
    Json.membersSize_nil, hkeys]
  omega

/-- **A revision** takes no more than its parts. -/
theorem Revision.size_le {r : Revision} {g : Grader} {k m n : Nat} (hgrader : r.grader = some g)
    (hnames : Text.len r.courseId + Text.len r.assignmentId + r.tests.toJson.size ≤ 100)
    (hassignment : r.assignment.toJson.size ≤ k) (hmanifest : r.manifest.toJson.size ≤ m)
    (hsize : g.toJson.size ≤ n) : r.toJson.size ≤ k + m + n + 1000 := by
  have hcourse := size_stringJson_le r.courseId
  have hid := size_stringJson_le r.assignmentId
  have hkeys : Json.strSize "course_id".toList = 11 ∧ Json.strSize "assignment_id".toList = 15 ∧
      Json.strSize "assignment".toList = 12 ∧ Json.strSize "manifest".toList = 10 ∧
      Json.strSize "tests".toList = 7 ∧ Json.strSize "grader".toList = 8 := by decide
  rw [Revision.toJson, hgrader]
  refine (Json.size_obj_le _).trans ?_
  simp only [memberIfSome, member, Json.membersSize_append, Json.membersSize_cons,
    Json.membersSize_nil, hkeys]
  omega

/-- A revision with short texts takes little more than its manifest. -/
theorem Revision.size_of_texts {r : Revision} {g : Grader} (hgrader : r.grader = some g)
    (hcaching : g.caching = none)
    (hnames : Text.len r.courseId + Text.len r.assignmentId + r.tests.toJson.size ≤ 100)
    (htexts : Text.len r.assignment.title + Text.len r.assignment.branch +
      Text.len r.assignment.template + Text.len r.assignment.templateRevision +
      Text.len r.assignment.image + Text.len r.assignment.integrityManifest +
      Text.len r.assignment.publicTests + Text.len r.assignment.executionProfile +
      Text.len r.assignment.score.source + Text.len r.assignment.score.selection ≤ 1000)
    (hnumbers : (dateTimeJson r.assignment.opensAt).size + (dateTimeJson r.assignment.deadline).size +
      (Json.num r.assignment.maxPoints).size + (natJson r.assignment.timeoutSeconds).size +
      r.assignment.resources.toJson.size ≤ 1000)
    (hreferences : Text.len g.repository + Text.len g.revision + Text.len g.image ≤ 1000)
    (hmembers : Json.membersSize (memberIfSome "source_digest" stringJson g.sourceDigest) +
      Json.membersSize (memberIfSome "workflow" Workflow.toJson g.workflow) ≤ 1000) :
    r.toJson.size ≤ r.manifest.toJson.size + 20000 := by
  have hassignment := Assignment.size_le htexts hnumbers
  have hsize := Grader.size_le hcaching hreferences hmembers
  have hrevision := Revision.size_le hgrader hnames hassignment (le_refl _) hsize
  omega

/-- **A revision whose parts are valid is valid** where it has no cache and its parts
fit together. -/
theorem Revision.validate_of_parts {r : Revision} {g : Grader} (hgrader : r.grader = some g)
    (hcaching : g.caching = none)
    (hnames : (identifier r.courseId && identifier r.assignmentId) = true)
    (hassignment : r.assignment.validate = .ok ()) (hg : g.validate = .ok ())
    (hmanifest : r.manifest.validate = .ok ())
    (htogether : r.tests.schemaVersion = 1 ∧ g.image = r.assignment.image ∧
      r.assignment.executionProfile = "registered-v1" ∧
      r.manifest.templateRevision = r.assignment.templateRevision)
    (hpublic : r.manifest.files.keys.any (isPublicTest r.assignment) = true)
    (hsize : r.toJson.size ≤ 1900000) : r.validate = .ok () := by
  obtain ⟨htests, himage, hprofile, htemplate⟩ := htogether
  rw [← length_toVec] at hsize
  unfold Revision.validate
  simp only [bind_ok, check_ok, fetchOne_ok, decide_eq_true_eq]
  refine ⟨(), hnames, (), hassignment, (), htests, g, hgrader, (), hg, ?_⟩
  rw [hcaching]
  simp only [bind_ok, check_ok, decide_eq_true_eq]
  exact ⟨(), himage, (), hprofile, (), hmanifest, (), htemplate, (), hpublic, hsize⟩

/-- **Other settings leave a revision valid** where they keep the image, the profile, the
template and the tests. -/
theorem Revision.validate_with {r : Revision} {g : Grader} {a : Assignment}
    (hr : r.validate = .ok ()) (hgrader : r.grader = some g) (hcaching : g.caching = none)
    (hvalid : a.validate = .ok ())
    (hkept : a.image = r.assignment.image ∧ a.executionProfile = r.assignment.executionProfile ∧
      a.templateRevision = r.assignment.templateRevision ∧
      a.publicTests = r.assignment.publicTests)
    (hnames : Text.len r.courseId + Text.len r.assignmentId + r.tests.toJson.size ≤ 100)
    (hsizes : a.toJson.size ≤ 10000 ∧ r.manifest.toJson.size ≤ 10000 ∧ g.toJson.size ≤ 10000) :
    Revision.validate { r with assignment := a } = .ok () := by
  obtain ⟨himage, hprofile, htemplate, htests⟩ := hkept
  have hsize := Revision.size_le (r := { r with assignment := a }) hgrader hnames hsizes.1
    hsizes.2.1 hsizes.2.2
  unfold Revision.validate at hr
  simp only [bind_ok, check_ok, fetchOne_ok, decide_eq_true_eq, hgrader, Option.some.injEq] at hr
  obtain ⟨_, hids, _, _, _, hschema, _, rfl, _, hg, hr⟩ := hr
  rw [hcaching] at hr
  simp only [bind_ok, check_ok, decide_eq_true_eq] at hr
  obtain ⟨_, himage', _, hprofile', _, hmanifest, _, htemplate', _, hpublic, _⟩ := hr
  have hpublic' : r.manifest.files.keys.any (isPublicTest a) = true := by
    unfold isPublicTest at hpublic ⊢
    rw [htests]
    exact hpublic
  exact validate_of_parts (r := { r with assignment := a }) hgrader hcaching hids hvalid hg
    hmanifest ⟨hschema, himage'.trans himage.symm, hprofile.trans hprofile',
      htemplate'.trans htemplate.symm⟩ hpublic' (hsize.trans (by decide))

/-! ### Baselines -/

theorem PublicBaseline.size_le {b : PublicBaseline} (hpoints : b.points.natAbs ≤ 2 ^ 31)
    (hdeadline : inRange b.deadline) : b.toJson.size ≤ 2000 := by
  have hid := size_uuidJson_le b.runId
  have hnum := Json.size_num (k := 10) (by decide) (lt_of_le_of_lt hpoints (by decide))
  have htime := size_timeJson_le hdeadline
  have hkeys : Json.strSize "run_id".toList = 8 ∧ Json.strSize "points".toList = 8 ∧
      Json.strSize "deadline".toList = 10 := by decide
  rw [PublicBaseline.toJson, Json.size_obj_cons]
  simp only [member, Json.membersSize_cons, Json.membersSize_nil, hkeys]
  omega

namespace Lease

theorem size_baseline_le {l : Lease} (h : l.Served) :
    Json.membersSize (memberIfSome "baseline" PublicBaseline.toJson l.baseline) ≤ 2100 := by
  have hkey : Json.strSize "baseline".toList = 10 := by decide
  cases hb : l.baseline with
  | none => exact Nat.zero_le _
  | some b =>
    obtain ⟨hpoints, hdeadline⟩ := h.baseline b hb
    have hsize := PublicBaseline.size_le hpoints hdeadline
    rw [memberIfSome]
    simp only [member, Json.membersSize_cons, Json.membersSize_nil, hkey]
    omega

/-- **A lease fits in what the executor reads.** -/
theorem length_toVec_le {l : Lease} (h : l.Served) :
    (toVec l.toJson).length ≤ 2 * 1024 * 1024 := by
  have hrevision := (Revision.validate_ok h.revision).2.2
  have hversion := size_natJson_le (n := l.schemaVersion) (k := 1) (by decide)
    (by rw [h.schemaVersion]; decide)
  have htask := size_uuidJson_le l.taskId
  have hrun := size_uuidJson_le l.runId
  have htoken := size_uuidJson_le l.leaseToken
  have htime := size_timeJson_le h.expiresAt
  have hsha := size_hex_le h.sha
  have hdigest := size_hex_le h.revisionDigest
  have hsource := size_hex_le h.sourceDigest
  have hbaseline := size_baseline_le h
  have hkeys : Json.strSize "schema_version".toList = 16 ∧ Json.strSize "task_id".toList = 9 ∧
      Json.strSize "run_id".toList = 8 ∧ Json.strSize "lease_token".toList = 13 ∧
      Json.strSize "expires_at".toList = 12 ∧ Json.strSize "sha".toList = 5 ∧
      Json.strSize "revision_digest".toList = 17 ∧ Json.strSize "source_digest".toList = 15 ∧
      Json.strSize "revision".toList = 10 := by decide
  rw [length_toVec, toJson]
  generalize memberIfSome "baseline" PublicBaseline.toJson l.baseline = rest at hbaseline ⊢
  rw [List.cons_append, Json.size_obj_cons]
  simp only [member, List.cons_append, List.nil_append, Json.membersSize_cons,
    hkeys]
  omega

end Lease

end Grading

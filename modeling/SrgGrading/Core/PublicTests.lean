import Mathlib.Data.List.Infix
import SrgGrading.Core.IntegrityCheck
import SrgGrading.Core.Sizes

/-!
# The public tests of a revision

`Revision.validate` asks that one protected file is a public test, or lies
beneath them.  The template is not part of the revision, so nothing is said
about its other public tests.

* `Manifest.changes_mem`: a change to a protected file is reported.
* `Revision.protects_iff`: all public tests of the template are protected
  unless an editable area beneath them holds a file of the template.
-/

open Fallible

namespace Grading

theorem Text.startsWith_iff {s start : String} :
    startsWith s start = true ↔ start.toList <+: s.toList := List.isPrefixOf_iff_prefix

section Protection

variable [Sha256] {S T : Snapshot} {editable : List String} {M : Manifest}

/-- A change to a protected file is reported. -/
theorem Manifest.changes_mem : ∀ {l : List (String × ProtectedFile)} {found : List Finding},
    changes T l = .ok found → ∀ e ∈ l, changed e.2 (T.files.get? e.1) ≠ .ok none →
      e.1 ∈ found.map Finding.path := by
  intro l
  induction l with
  | nil => intro found _ e he; cases he
  | cons first rest ih =>
    obtain ⟨path, expected⟩ := first
    intro found h e he hne
    simp only [changes, bind_ok, pure_ok] at h
    obtain ⟨reason, hreason, later, hlater, rfl⟩ := h
    rw [List.map_append]
    rcases List.mem_cons.mp he with rfl | hrest
    · cases reason with
      | none => exact absurd hreason hne
      | some text => exact List.mem_append_left _ List.mem_cons_self
    · exact List.mem_append_right _ (ih hlater e hrest hne)

/-- `T` has the file of `S` at `path`, with its mode and bytes. -/
def Snapshot.SameFile (S T : Snapshot) (path : String) : Prop :=
  ∃ blob blob', S.files.get? path = some blob ∧ T.files.get? path = some blob' ∧
    blob.mode = blob'.mode ∧ blob.bytes = blob'.bytes

/-- Any change to a file a generated manifest protects is reported. -/
theorem Manifest.check_reports (hgen : generate S editable = .ok M)
    (hT : T.validateStructure = .ok ())
    (hc : CollisionFree fun bytes => S.Holds bytes ∨ T.Holds bytes) {path : String} {blob : Blob}
    (hS : S.files.get? path = some blob) (hprotected : editablePath editable path = false)
    (hchanged : ¬S.SameFile T path) :
    ∃ found, M.check T = .ok found ∧ path ∈ found.map Finding.path := by
  obtain ⟨bytes, hbytes, hfile⟩ := (generate_spec hgen).2.2.2.2 path blob hS hprotected
  have hne : changed ⟨blob.mode, digest bytes⟩ (T.files.get? path) ≠ .ok none := by
    intro h
    obtain ⟨blob', bytes', hT', hmode, hbytes', hdigest⟩ := changed_eq_none.mp h
    have hsame : bytes' = bytes := hc.eq (Or.inr ⟨path, blob', hT', hbytes'⟩)
      (Or.inl ⟨path, blob, hS, hbytes⟩) hdigest
    exact hchanged ⟨blob, blob', hS, hT', hmode.symm, by rw [hbytes, hbytes', hsame]⟩
  obtain ⟨found, hfound⟩ := changes_total hT M.files.entries
  refine ⟨_, (check_spec (validate_generate hgen) hT).mpr ⟨found, hfound, rfl⟩, ?_⟩
  rw [List.map_append]
  exact List.mem_append_left _
    (changes_mem hfound (path, _) ((OrderedMap.mem_entries_iff _).mpr hfile) hne)

namespace Revision

/-- The public tests of the template are protected, and a submission that
changes one has a finding for it. -/
structure Protects (r : Revision) (template : Snapshot) : Prop where
  keys : ∀ path blob, template.files.get? path = some blob →
    isPublicTest r.assignment path = true → r.manifest.files.contains path = true
  reported : ∀ T, T.validateStructure = .ok () →
    CollisionFree (fun bytes => template.Holds bytes ∨ T.Holds bytes) →
    ∀ path blob, template.files.get? path = some blob → isPublicTest r.assignment path = true →
      ¬template.SameFile T path →
      ∃ found, r.manifest.check T = .ok found ∧ path ∈ found.map Finding.path

/-- An editable area beneath the public tests. -/
def beneathTests (r : Revision) (area : String) : Bool :=
  Text.startsWith area (r.assignment.publicTests ++ "/")

variable {r : Revision} {template : Snapshot} {editable : List String}

omit [Sha256] in
/-- The public tests `validate` finds among the protected files. -/
theorem exists_public_test (hvalid : r.validate = .ok ()) :
    ∃ path ∈ r.manifest.files.keys, isPublicTest r.assignment path = true := by
  simp only [validate, bind_ok, check_ok] at hvalid
  obtain ⟨_, _, _, _, _, _, grader, _, _, _, h⟩ := hvalid
  cases hcaching : grader.caching with
  | none =>
    simp only [hcaching, bind_ok, check_ok] at h
    obtain ⟨_, _, _, _, _, _, _, _, _, hpublic, _⟩ := h
    exact List.any_eq_true.mp hpublic
  | some seed =>
    simp only [hcaching, bind_ok, check_ok] at h
    obtain ⟨_, _, _, _, _, _, _, _, _, _, _, hpublic, _⟩ := h
    exact List.any_eq_true.mp hpublic

omit [Sha256] in
/-- An area that holds a public test, but no protected one, is beneath them. -/
theorem beneathTests_of_editable {area path protectedPath : String}
    (hpath : isPublicTest r.assignment path = true)
    (hprotected : isPublicTest r.assignment protectedPath = true)
    (harea : Text.startsWith path area = true)
    (hnot : Text.startsWith protectedPath area = false) : beneathTests r area = true := by
  have hslash : (r.assignment.publicTests ++ "/").toList =
      r.assignment.publicTests.toList ++ ['/'] := by
    rw [String.toList_append]
    rfl
  have hbase : ∀ p : String, isPublicTest r.assignment p = true →
      r.assignment.publicTests.toList <+: p.toList := by
    intro p hp
    rw [isPublicTest, Bool.or_eq_true, decide_eq_true_eq] at hp
    rcases hp with rfl | hp
    · exact List.prefix_refl _
    · rw [Text.startsWith_iff, hslash] at hp
      exact (List.prefix_append _ _).trans hp
  have hinside : ¬area.toList <+: r.assignment.publicTests.toList := by
    intro h
    rw [Text.startsWith_iff.mpr (h.trans (hbase _ hprotected))] at hnot
    cases hnot
  rw [beneathTests, Text.startsWith_iff, hslash]
  rw [Text.startsWith_iff] at harea
  rw [isPublicTest, Bool.or_eq_true, decide_eq_true_eq] at hpath
  rcases hpath with rfl | hpath
  · exact absurd harea hinside
  · rw [Text.startsWith_iff, hslash] at hpath
    rcases List.prefix_or_prefix_of_prefix harea hpath with h | h
    · -- of the prefixes of `tests/`, only the whole is no prefix of `tests`
      rcases List.prefix_concat_iff.mp h with heq | h
      · rw [heq]
      · exact absurd h hinside
    · exact h

/-- **When the public tests are fully protected.**  For an accepted revision
whose manifest was generated from a template, the public tests of the template
are protected exactly when no editable area beneath them holds one of its
files. -/
theorem protects_iff (hvalid : r.validate = .ok ())
    (hgen : Manifest.generate template editable = .ok r.manifest) :
    r.Protects template ↔ ∀ area ∈ editable, beneathTests r area = true →
      ∀ path ∈ template.files.keys, Text.startsWith path area = false := by
  obtain ⟨_, _, hnone, habsent, hprot⟩ := Manifest.generate_spec hgen
  have hkey : ∀ path blob, template.files.get? path = some blob →
      (r.manifest.files.contains path = true ↔ editablePath editable path = false) := by
    intro path blob hblob
    rw [OrderedMap.contains_iff]
    cases hed : editablePath editable path with
    | false =>
      obtain ⟨_, _, hfile⟩ := hprot path blob hblob hed
      exact ⟨fun _ => rfl, fun _ => ⟨_, hfile⟩⟩
    | true =>
      rw [hnone path hed]
      constructor
      · rintro ⟨_, h⟩
        cases h
      · intro h
        cases h
  constructor
  · intro h area harea hbeneath path hpath
    obtain ⟨blob, hblob⟩ := (OrderedMap.mem_keys_iff _).mp hpath
    by_contra hstarts
    rw [Bool.not_eq_false] at hstarts
    have hpublic : isPublicTest r.assignment path = true := by
      rw [isPublicTest, Bool.or_eq_true]
      exact Or.inr (Text.startsWith_iff.mpr ((Text.startsWith_iff.mp hbeneath).trans
        (Text.startsWith_iff.mp hstarts)))
    have hed : editablePath editable path = true := List.any_eq_true.mpr ⟨area, harea, hstarts⟩
    rw [(hkey path blob hblob).mp (h.keys path blob hblob hpublic)] at hed
    cases hed
  · intro h
    obtain ⟨known, hknown, hpublic⟩ := exists_public_test hvalid
    obtain ⟨file, hfile⟩ := (OrderedMap.mem_keys_iff _).mp hknown
    have hunedited : editablePath editable known = false := by
      by_contra hed
      rw [hnone known (by simpa using hed)] at hfile
      cases hfile
    have hprotected : ∀ path blob, template.files.get? path = some blob →
        isPublicTest r.assignment path = true → editablePath editable path = false := by
      intro path blob hblob hpath
      by_contra hed
      rw [Bool.not_eq_false] at hed
      obtain ⟨area, harea, hstarts⟩ := List.any_eq_true.mp hed
      have hknownArea : Text.startsWith known area = false := by
        by_contra hc
        have : editablePath editable known = true :=
          List.any_eq_true.mpr ⟨area, harea, by simpa using hc⟩
        rw [hunedited] at this
        cases this
      have hbeneath := beneathTests_of_editable hpath hpublic hstarts hknownArea
      rw [h area harea hbeneath path ((OrderedMap.mem_keys_iff _).mpr ⟨blob, hblob⟩)] at hstarts
      cases hstarts
    refine ⟨fun path blob hblob hpath => (hkey path blob hblob).mpr (hprotected path blob hblob
      hpath), fun T hT hc path blob hblob hpath hchanged => ?_⟩
    exact Manifest.check_reports hgen hT hc hblob (hprotected path blob hblob hpath) hchanged

end Revision

end Protection

/-! ### An open corner of the public tests -/

namespace Sample

attribute [local instance] Sha256.standard

/-- The public tests are the directory `pub`; one of its subdirectories is editable. -/
def openTemplate : Snapshot :=
  ⟨"aaaaaaaaaaaaaaaaaaaaaaaaaaaaaaaaaaaaaaaa",
    .ofList [("pub/a", ⟨"100644", "YQ=="⟩), ("pub/open/b", ⟨"100644", "YQ=="⟩)]⟩

def openManifest : Manifest :=
  ⟨1, openTemplate.sha, ["pub/open/"], .ofList [("pub/a",
    ⟨"100644", "ca978112ca1bbdcafac231b39a23dc4da786eff8147c4e72b9807785afee48bb"⟩)]⟩

def openImage : String :=
  "r@sha256:cccccccccccccccccccccccccccccccccccccccccccccccccccccccccccccccc"

def openRevision : Revision where
  courseId := "c"
  assignmentId := "a"
  assignment :=
    { title := "t", opensAt := .ofInstant 0, deadline := .ofInstant 1, branch := "main", template := "o/t"
      templateRevision := openTemplate.sha, image := openImage, integrityManifest := "m"
      publicTests := "pub", executionProfile := "registered-v1", maxPoints := 1
      timeoutSeconds := 1, resources := ⟨1, 1, 1⟩
      score := ⟨"public-tests", "latest-eligible-submission"⟩ }
  manifest := openManifest
  tests := ⟨1⟩
  grader := some
    { caching := none, repository := "o/g"
      revision := "bbbbbbbbbbbbbbbbbbbbbbbbbbbbbbbbbbbbbbbb", image := openImage
      sourceDigest := some "dddddddddddddddddddddddddddddddddddddddddddddddddddddddddddddddd"
      workflow := some ⟨["/g"], none⟩ }

def openGrader : Grader where
  caching := none
  repository := "o/g"
  revision := "bbbbbbbbbbbbbbbbbbbbbbbbbbbbbbbbbbbbbbbb"
  image := openImage
  sourceDigest := some "dddddddddddddddddddddddddddddddddddddddddddddddddddddddddddddddd"
  workflow := some ⟨["/g"], none⟩

theorem size_openRevision : openRevision.toJson.size ≤ 21000 := by
  have hmanifest : openRevision.manifest.toJson.size ≤ 1000 := by decide +kernel
  have hsize := Revision.size_of_texts (r := openRevision) (g := openGrader) rfl rfl
    (by decide +kernel) (by decide +kernel) (by decide +kernel) (by decide +kernel)
    (by decide +kernel)
  exact hsize.trans (Nat.add_le_add_right hmanifest 20000)

theorem openRevision_valid : openRevision.validate = .ok () := by
  have hgrader : openGrader.validate = .ok () := by decide +kernel
  have hassignment : openRevision.assignment.validate = .ok () := by decide +kernel
  have hmanifest : openRevision.manifest.validate = .ok () := by decide +kernel
  exact Revision.validate_of_parts (g := openGrader) rfl rfl (by decide +kernel) hassignment
    hgrader hmanifest ⟨rfl, rfl, rfl, rfl⟩ (by decide +kernel)
    (size_openRevision.trans (by decide))

theorem openManifest_generated : Manifest.generate openTemplate ["pub/open/"] =
    .ok openRevision.manifest := by
  decide +kernel

theorem openRevision_open : openRevision.manifest.files.contains "pub/open/b" = false := by
  decide +kernel

/-- An accepted revision does not protect all public tests. -/
theorem unprotected_public_test : ¬∀ (r : Revision) (template : Snapshot) (editable : List String),
    r.validate = .ok () → template.validate = .ok () →
    Manifest.generate template editable = .ok r.manifest → r.Protects template := by
  intro h
  have hprotects := h openRevision openTemplate ["pub/open/"] openRevision_valid
    (by decide +kernel) openManifest_generated
  have hblob : openTemplate.files.get? "pub/open/b" = some ⟨"100644", "YQ=="⟩ := by decide +kernel
  have hkey := hprotects.keys _ _ hblob (by decide +kernel)
  rw [openRevision_open] at hkey
  cases hkey

/-- The editable subdirectory holds a file of the template. -/
theorem protects_iff_open : ¬openRevision.Protects openTemplate := by
  intro h
  have harea := (Revision.protects_iff openRevision_valid openManifest_generated).mp h
    "pub/open/" List.mem_cons_self (by decide +kernel) "pub/open/b" (by decide +kernel)
  revert harea
  decide +kernel

end Sample

end Grading

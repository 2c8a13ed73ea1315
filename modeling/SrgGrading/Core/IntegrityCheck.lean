import SrgGrading.Core.Integrity

/-!
# The integrity check is exact

A manifest generated from a template has no finding against a snapshot exactly
when the snapshot holds the template's protected files, and no others outside
the editable areas, and only regular files inside them.

* `Manifest.generate_spec`: what a generated manifest protects.
* `Manifest.changes_spec`, `Manifest.mem_additions`: what the two loops of
  `check` report.
* `Manifest.check_generated`: the equivalence, and what follows from it.
-/

open Fallible

namespace Grading

/-! ### What a valid snapshot holds -/

namespace Snapshot

theorem validateFiles_ok {files : OrderedMap String Blob} : ∀ {l : List (String × Blob)}
    {size : Nat}, validateFiles files size l = .ok () →
    ∀ path blob, (path, blob) ∈ l → safePath path = .ok () ∧ ∃ bytes, blob.bytes = .ok bytes := by
  intro l
  induction l with
  | nil => intro size _ path blob hm; cases hm
  | cons e rest ih =>
    obtain ⟨path, blob⟩ := e
    intro size h path' blob' hm
    simp only [validateFiles, bind_ok] at h
    obtain ⟨_, hsafe, _, _, bytes, hbytes, _, _, _, _, hrest⟩ := h
    rcases List.mem_cons.mp hm with h1 | h1
    · cases h1
      exact ⟨hsafe, bytes, hbytes⟩
    · exact ih hrest path' blob' h1

variable {snapshot : Snapshot}

theorem validateStructure_ok (h : snapshot.validateStructure = .ok ()) {path : String}
    {blob : Blob} (hb : snapshot.files.get? path = some blob) :
    safePath path = .ok () ∧ ∃ bytes, blob.bytes = .ok bytes := by
  simp only [validateStructure, bind_ok] at h
  obtain ⟨_, _, _, _, hfiles⟩ := h
  exact validateFiles_ok hfiles path blob ((OrderedMap.mem_entries_iff _).mpr hb)

theorem validate_ok : snapshot.validate = .ok () ↔ snapshot.validateStructure = .ok () ∧
    ∀ path blob, snapshot.files.get? path = some blob → regularMode blob.mode = true := by
  simp only [validate, bind_ok, each_ok, check_ok]
  constructor
  · rintro ⟨_, hs, hm⟩
    exact ⟨hs, fun path blob hb => hm (path, blob) ((OrderedMap.mem_entries_iff _).mpr hb)⟩
  · rintro ⟨hs, hm⟩
    exact ⟨(), hs, fun e he => hm e.1 e.2 ((OrderedMap.mem_entries_iff _).mp he)⟩

end Snapshot

namespace Manifest

section Files
variable {T : Snapshot} {M : Manifest}

theorem validateFile_ok {path : String} {file : ProtectedFile} :
    M.validateFile (path, file) = .ok () ↔ safePath path = .ok () ∧ M.isEditable path = false ∧
      Text.validHex file.sha256 64 = true ∧ regularMode file.mode = true := by
  simp only [validateFile, bind_ok, check_ok, Bool.and_eq_true, Bool.not_eq_true']
  constructor
  · rintro ⟨_, hs, _, ⟨he, hh⟩, hm⟩
    exact ⟨hs, he, hh, hm⟩
  · rintro ⟨hs, he, hh, hm⟩
    exact ⟨(), hs, (), ⟨he, hh⟩, hm⟩

theorem mem_additions {f : Finding} : f ∈ M.additions T ↔
    ∃ blob, T.files.get? f.path = some blob ∧ M.unexpected f.path blob = some f.reason := by
  rw [additions, List.mem_filterMap]
  constructor
  · rintro ⟨⟨path, blob⟩, he, hf⟩
    obtain ⟨reason, hr, rfl⟩ := Option.map_eq_some_iff.mp hf
    exact ⟨blob, (OrderedMap.mem_entries_iff _).mp he, hr⟩
  · rintro ⟨blob, hb, hr⟩
    exact ⟨(f.path, blob), (OrderedMap.mem_entries_iff _).mpr hb,
      Option.map_eq_some_iff.mpr ⟨f.reason, hr, rfl⟩⟩

theorem additions_paths (M : Manifest) (T : Snapshot) :
    ((M.additions T).map Finding.path).Sublist T.files.keys := by
  rw [additions, OrderedMap.keys]
  induction T.files.entries with
  | nil => exact .slnil
  | cons e rest ih =>
    obtain ⟨path, blob⟩ := e
    cases hu : M.unexpected path blob with
    | none =>
      rw [List.filterMap_cons_none (by simp [hu])]
      exact .cons _ ih
    | some reason =>
      rw [List.filterMap_cons_some (b := ⟨path, reason⟩) (by simp [hu])]
      exact .cons_cons _ ih

theorem additions_eq_nil : M.additions T = [] ↔
    ∀ path blob, T.files.get? path = some blob → M.unexpected path blob = none := by
  rw [List.eq_nil_iff_forall_not_mem]
  constructor
  · intro h path blob hb
    cases hu : M.unexpected path blob with
    | none => rfl
    | some reason => exact absurd (mem_additions.mpr ⟨blob, hb, hu⟩) (h ⟨path, reason⟩)
  · intro h f hf
    obtain ⟨blob, hb, hu⟩ := mem_additions.mp hf
    rw [h f.path blob hb] at hu
    cases hu

theorem unexpected_eq_none {path : String} {blob : Blob} : M.unexpected path blob = none ↔
    (M.isEditable path = true ∧ regularMode blob.mode = true) ∨
      (M.isEditable path = false ∧ ∃ file, M.files.get? path = some file) := by
  rw [← OrderedMap.contains_iff, unexpected]
  cases M.isEditable path <;> cases M.files.contains path <;> cases regularMode blob.mode <;> simp

end Files

variable [Sha256]

/-! ### Generation -/

theorem protectFiles_spec {editable : List String} : ∀ {l : List (String × Blob)}
    {files m : OrderedMap String ProtectedFile}, protectFiles editable l files = .ok m →
    (l.map Prod.fst).Nodup →
    (∀ path, (∀ blob, (path, blob) ∉ l) ∨ editablePath editable path = true →
      m.get? path = files.get? path) ∧
    ∀ path blob, (path, blob) ∈ l → editablePath editable path = false →
      ∃ bytes, blob.bytes = .ok bytes ∧ m.get? path = some ⟨blob.mode, digest bytes⟩ := by
  intro l
  induction l with
  | nil =>
    intro files m h _
    cases h
    exact ⟨fun _ _ => rfl, fun path blob hm => by cases hm⟩
  | cons e rest ih =>
    obtain ⟨path, blob⟩ := e
    intro files m h hnd
    obtain ⟨hnew, hnd'⟩ := List.nodup_cons.mp hnd
    rw [protectFiles] at h
    split at h
    · rename_i hed
      obtain ⟨hsame, hprot⟩ := ih h hnd'
      refine ⟨fun p hp => hsame p (hp.imp_left fun hn b hb => hn b (List.mem_cons_of_mem _ hb)), ?_⟩
      intro p b hm hp
      rcases List.mem_cons.mp hm with h1 | h1
      · cases h1
        rw [hed] at hp
        cases hp
      · exact hprot p b h1 hp
    · rename_i hed
      obtain ⟨bytes, hbytes, h⟩ := bind_ok.mp h
      obtain ⟨hsame, hprot⟩ := ih h hnd'
      have hnotin : ∀ b, (path, b) ∉ rest := fun b hb =>
        hnew (List.mem_map.mpr ⟨(path, b), hb, rfl⟩)
      refine ⟨fun p hp => ?_, fun p b hm hp => ?_⟩
      · have hne : ¬ path = p := by
          rintro rfl
          rcases hp with hp | hp
          · exact hp blob List.mem_cons_self
          · exact hed hp
        rw [hsame p (hp.imp_left fun hn b hb => hn b (List.mem_cons_of_mem _ hb)),
          OrderedMap.get?_insert, if_neg hne]
      · rcases List.mem_cons.mp hm with h1 | h1
        · cases h1
          refine ⟨bytes, hbytes, ?_⟩
          rw [hsame path (Or.inl hnotin), OrderedMap.get?_insert, if_pos rfl]
        · exact hprot p b h1 hp

variable {S T : Snapshot} {editable : List String} {M : Manifest}

/-- **What a generated manifest protects**: the files outside the editable
areas, each with its mode and the digest of its bytes. -/
theorem generate_spec (h : generate S editable = .ok M) :
    S.validate = .ok () ∧ M.editable = editable ∧
      (∀ path, editablePath editable path = true → M.files.get? path = none) ∧
      (∀ path, S.files.get? path = none → M.files.get? path = none) ∧
      ∀ path blob, S.files.get? path = some blob → editablePath editable path = false →
        ∃ bytes, blob.bytes = .ok bytes ∧ M.files.get? path = some ⟨blob.mode, digest bytes⟩ := by
  simp only [generate, bind_ok, pure_ok] at h
  obtain ⟨_, hS, _, _, files, hfiles, rfl⟩ := h
  obtain ⟨hsame, hprot⟩ := protectFiles_spec hfiles S.files.keys_nodup
  refine ⟨hS, rfl, fun path hp => hsame path (Or.inr hp), fun path hp => ?_, fun path blob hb hp =>
    hprot path blob ((OrderedMap.mem_entries_iff _).mpr hb) hp⟩
  refine hsame path (Or.inl fun blob hb => ?_)
  rw [(OrderedMap.mem_entries_iff _).mp hb] at hp
  cases hp

/-- A generated manifest passes its own check. -/
theorem validate_generate (h : generate S editable = .ok M) : M.validate = .ok () := by
  obtain ⟨hS, hed, hnone, habsent, hprot⟩ := generate_spec h
  obtain ⟨hS', hmode⟩ := Snapshot.validate_ok.mp hS
  simp only [generate, bind_ok, pure_ok] at h
  obtain ⟨_, _, _, hempty, files, hfiles, rfl⟩ := h
  simp only [validate, bind_ok, each_ok] at hempty ⊢
  obtain ⟨u, hver, u', hareas, _⟩ := hempty
  refine ⟨u, hver, u', hareas, ?_⟩
  rintro ⟨path, file⟩ hf
  have hget := (OrderedMap.mem_entries_iff _).mp hf
  have hnot : editablePath editable path = false := by
    by_contra hc
    rw [hnone path (by simpa using hc)] at hget
    cases hget
  cases hb : S.files.get? path with
  | none => rw [habsent path hb] at hget; cases hget
  | some blob =>
    obtain ⟨bytes, hbytes, hget'⟩ := hprot path blob hb hnot
    rw [hget'] at hget
    cases hget
    exact validateFile_ok.mpr ⟨(Snapshot.validateStructure_ok hS' hb).1, hnot,
      validHex_digest bytes, hmode path blob hb⟩

/-! ### The changes -/

/-- The first loop succeeds on a snapshot whose blobs decode. -/
theorem changes_total (hT : T.validateStructure = .ok ()) :
    ∀ l : List (String × ProtectedFile), ∃ found, changes T l = .ok found := by
  intro l
  induction l with
  | nil => exact ⟨[], rfl⟩
  | cons e rest ih =>
    obtain ⟨path, expected⟩ := e
    obtain ⟨later, hlater⟩ := ih
    have hreason : ∃ reason, changed expected (T.files.get? path) = .ok reason := by
      cases hb : T.files.get? path with
      | none => exact ⟨_, rfl⟩
      | some blob =>
        obtain ⟨bytes, hbytes⟩ := (Snapshot.validateStructure_ok hT hb).2
        rw [changed]
        split
        · exact ⟨_, rfl⟩
        · exact ⟨_, bind_ok.mpr ⟨bytes, hbytes, rfl⟩⟩
    obtain ⟨reason, hreason⟩ := hreason
    exact ⟨_, bind_ok.mpr ⟨reason, hreason, bind_ok.mpr ⟨later, hlater, rfl⟩⟩⟩

theorem changes_spec : ∀ {l : List (String × ProtectedFile)} {found : List Finding},
    changes T l = .ok found →
    (found.map Finding.path).Sublist (l.map Prod.fst) ∧
      (found = [] ↔ ∀ e ∈ l, changed e.2 (T.files.get? e.1) = .ok none) := by
  intro l
  induction l with
  | nil =>
    intro found h
    cases h
    exact ⟨.slnil, ⟨fun _ e he => (by cases he), fun _ => rfl⟩⟩
  | cons e rest ih =>
    obtain ⟨path, expected⟩ := e
    intro found h
    simp only [changes, bind_ok, pure_ok] at h
    obtain ⟨reason, hreason, later, hlater, rfl⟩ := h
    obtain ⟨hsub, hnil⟩ := ih hlater
    cases reason with
    | none =>
      refine ⟨.cons _ hsub, ?_⟩
      rw [List.forall_mem_cons, ← hnil]
      exact ⟨fun he => ⟨hreason, he⟩, And.right⟩
    | some text =>
      refine ⟨.cons_cons _ hsub, ?_⟩
      rw [List.forall_mem_cons, hreason]
      constructor
      · intro he; cases he
      · rintro ⟨he, _⟩; cases he

theorem changed_eq_none {expected : ProtectedFile} {found : Option Blob} :
    changed expected found = .ok none ↔ ∃ blob bytes, found = some blob ∧
      blob.mode = expected.mode ∧ blob.bytes = .ok bytes ∧ digest bytes = expected.sha256 := by
  cases found with
  | none => simp [changed]
  | some blob =>
    rw [changed]
    split
    · rename_i hm
      simp [hm]
    · rename_i hm
      simp only [bind_ok, pure_ok, Option.some_inj]
      constructor
      · rintro ⟨bytes, hb, hd⟩
        refine ⟨blob, bytes, rfl, not_not.mp hm, hb, ?_⟩
        by_contra hne
        rw [if_pos hne] at hd
        cases hd
      · rintro ⟨_, bytes, rfl, _, hb, hd⟩
        exact ⟨bytes, hb, if_neg (not_not.mpr hd)⟩

/-- What the whole check returns, on a manifest and a snapshot it accepts. -/
theorem check_spec (hM : M.validate = .ok ()) (hT : T.validateStructure = .ok ())
    {found : List Finding} : M.check T = .ok found ↔
      ∃ changed, changes T M.files.entries = .ok changed ∧ found = changed ++ M.additions T := by
  simp only [check, bind_ok, pure_ok]
  constructor
  · rintro ⟨_, _, _, _, changed, hch, rfl⟩
    exact ⟨changed, hch, rfl⟩
  · rintro ⟨changed, hch, rfl⟩
    exact ⟨(), hM, (), hT, changed, hch, rfl⟩

end Manifest

/-! ### The equivalence -/

namespace Snapshot

/-- Some blob of the snapshot decodes to `bytes`. -/
def Holds (snapshot : Snapshot) (bytes : List UInt8) : Prop :=
  ∃ path blob, snapshot.files.get? path = some blob ∧ blob.bytes = .ok bytes

/-- `S` and `T` have the same files outside the editable areas, with the same
modes and the same decoded bytes. -/
structure SameProtected (editable : List String) (S T : Snapshot) : Prop where
  paths : ∀ path, editablePath editable path = false →
    ((∃ blob, S.files.get? path = some blob) ↔ ∃ blob, T.files.get? path = some blob)
  content : ∀ path blob blob', editablePath editable path = false →
    S.files.get? path = some blob → T.files.get? path = some blob' →
    blob.mode = blob'.mode ∧ blob.bytes = blob'.bytes

/-- The files inside the editable areas are regular files. -/
def RegularEdits (editable : List String) (T : Snapshot) : Prop :=
  ∀ path blob, editablePath editable path = true → T.files.get? path = some blob →
    regularMode blob.mode = true

end Snapshot

namespace Manifest

open Snapshot

variable [Sha256] {S T : Snapshot} {editable : List String} {M : Manifest}

/-- A generated manifest has no change to report exactly when every protected
file of the template is still there with its mode and bytes. -/
theorem no_changes_generated (hgen : generate S editable = .ok M)
    (hc : CollisionFree fun bytes => S.Holds bytes ∨ T.Holds bytes) :
    (∀ e ∈ M.files.entries, changed e.2 (T.files.get? e.1) = .ok none) ↔
      ∀ path blob, editablePath editable path = false → S.files.get? path = some blob →
        ∃ blob', T.files.get? path = some blob' ∧ blob.mode = blob'.mode ∧
          blob.bytes = blob'.bytes := by
  obtain ⟨_, _, hnone, habsent, hprot⟩ := generate_spec hgen
  constructor
  · intro h path blob hed hb
    obtain ⟨bytes, hbytes, hfile⟩ := hprot path blob hb hed
    obtain ⟨blob', bytes', hb', hmode, hbytes', hdig⟩ :=
      changed_eq_none.mp (h (path, _) ((OrderedMap.mem_entries_iff _).mpr hfile))
    refine ⟨blob', hb', hmode.symm, ?_⟩
    rw [hbytes, hbytes', hc.eq (Or.inr ⟨path, blob', hb', hbytes'⟩)
      (Or.inl ⟨path, blob, hb, hbytes⟩) hdig]
  · rintro h ⟨path, file⟩ he
    have hfile := (OrderedMap.mem_entries_iff _).mp he
    have hed : editablePath editable path = false := by
      by_contra hcon
      rw [hnone path (by simpa using hcon)] at hfile
      cases hfile
    cases hb : S.files.get? path with
    | none => rw [habsent path hb] at hfile; cases hfile
    | some blob =>
      obtain ⟨bytes, hbytes, hfile'⟩ := hprot path blob hb hed
      rw [hfile'] at hfile
      cases hfile
      obtain ⟨blob', hb', hmode, hsame⟩ := h path blob hed hb
      exact changed_eq_none.mpr ⟨blob', bytes, hb', hmode.symm, hsame ▸ hbytes, rfl⟩

/-- It has no addition to report exactly when every other file is in an
editable area and regular. -/
theorem no_additions_generated (hgen : generate S editable = .ok M) :
    M.additions T = [] ↔
      (∀ path blob', editablePath editable path = false → T.files.get? path = some blob' →
        ∃ blob, S.files.get? path = some blob) ∧ RegularEdits editable T := by
  obtain ⟨_, hareas, _, habsent, hprot⟩ := generate_spec hgen
  have hed : ∀ path, M.isEditable path = editablePath editable path := fun path => by
    rw [isEditable, hareas]
  simp only [additions_eq_nil, unexpected_eq_none, hed]
  constructor
  · intro h
    refine ⟨fun path blob' he hb' => ?_, fun path blob he hb => ?_⟩
    · rcases h path blob' hb' with ⟨he', _⟩ | ⟨_, file, hfile⟩
      · rw [he] at he'; cases he'
      · cases hS : S.files.get? path with
        | some blob => exact ⟨blob, rfl⟩
        | none => rw [habsent path hS] at hfile; cases hfile
    · rcases h path blob hb with ⟨_, hm⟩ | ⟨he', _⟩
      · exact hm
      · rw [he] at he'; cases he'
  · rintro ⟨hold, hreg⟩ path blob hb
    cases he : editablePath editable path with
    | true => exact Or.inl ⟨rfl, hreg path blob he hb⟩
    | false =>
      obtain ⟨blob₀, hb₀⟩ := hold path blob he hb
      obtain ⟨_, _, hfile⟩ := hprot path blob₀ hb₀ he
      exact Or.inr ⟨rfl, _, hfile⟩

/-- The check of a generated manifest is an equivalence. -/
theorem check_generated_iff (hgen : generate S editable = .ok M)
    (hT : T.validateStructure = .ok ())
    (hc : CollisionFree fun bytes => S.Holds bytes ∨ T.Holds bytes) :
    M.check T = .ok [] ↔ SameProtected editable S T ∧ RegularEdits editable T := by
  have hnil : M.check T = .ok [] ↔
      (∀ e ∈ M.files.entries, changed e.2 (T.files.get? e.1) = .ok none) ∧
        M.additions T = [] := by
    rw [check_spec (validate_generate hgen) hT]
    constructor
    · rintro ⟨found, hfound, he⟩
      obtain ⟨hf, ha⟩ := List.append_eq_nil_iff.mp he.symm
      exact ⟨(changes_spec hfound).2.mp hf, ha⟩
    · rintro ⟨hch, ha⟩
      obtain ⟨found, hfound⟩ := changes_total hT M.files.entries
      exact ⟨found, hfound, by rw [(changes_spec hfound).2.mpr hch, ha]; rfl⟩
  rw [hnil, no_changes_generated hgen hc, no_additions_generated hgen]
  constructor
  · rintro ⟨hkept, hold, hreg⟩
    refine ⟨⟨fun path he => ⟨?_, ?_⟩, fun path blob blob' he hb hb' => ?_⟩, hreg⟩
    · rintro ⟨blob, hb⟩
      obtain ⟨blob', hb', _⟩ := hkept path blob he hb
      exact ⟨blob', hb'⟩
    · rintro ⟨blob', hb'⟩
      exact hold path blob' he hb'
    · obtain ⟨b, hb₁, hm, hs⟩ := hkept path blob he hb
      rw [hb'] at hb₁
      cases hb₁
      exact ⟨hm, hs⟩
  · rintro ⟨hsame, hreg⟩
    refine ⟨fun path blob he hb => ?_, fun path blob' he hb' => ?_, hreg⟩
    · obtain ⟨blob', hb'⟩ := (hsame.paths path he).mp ⟨blob, hb⟩
      exact ⟨blob', hb', hsame.content path blob blob' he hb hb'⟩
    · exact (hsame.paths path he).mpr ⟨blob', hb'⟩

/-- A snapshot without findings holds regular files only. -/
theorem validate_of_no_findings (hgen : generate S editable = .ok M)
    (hT : T.validateStructure = .ok ()) (h : M.check T = .ok []) : T.validate = .ok () := by
  obtain ⟨hS, _, _, habsent, hprot⟩ := generate_spec hgen
  obtain ⟨found, hfound, he⟩ := (check_spec (validate_generate hgen) hT).mp h
  obtain ⟨hf, ha⟩ := List.append_eq_nil_iff.mp he.symm
  obtain ⟨hold, hreg⟩ := (no_additions_generated hgen).mp ha
  refine Snapshot.validate_ok.mpr ⟨hT, fun path blob' hb' => ?_⟩
  cases hed : editablePath editable path with
  | true => exact hreg path blob' hed hb'
  | false =>
    obtain ⟨blob, hb⟩ := hold path blob' hed hb'
    obtain ⟨bytes, hbytes, hfile⟩ := hprot path blob hb hed
    obtain ⟨b, _, hb₁, hm, _⟩ := changed_eq_none.mp
      ((changes_spec hfound).2.mp hf (path, _) ((OrderedMap.mem_entries_iff _).mpr hfile))
    rw [hb'] at hb₁
    cases hb₁
    rw [hm]
    exact (Snapshot.validate_ok.mp hS).2 path blob hb

/-- The paths of the findings are pairwise distinct. -/
theorem findings_nodup (hM : M.validate = .ok ()) (hT : T.validateStructure = .ok ())
    {found : List Finding} (h : M.check T = .ok found) : (found.map Finding.path).Nodup := by
  obtain ⟨changed, hch, rfl⟩ := (check_spec hM hT).mp h
  have hsub := (changes_spec hch).1
  rw [List.map_append, List.nodup_append]
  refine ⟨hsub.nodup M.files.keys_nodup, (additions_paths M T).nodup T.files.keys_nodup, ?_⟩
  intro path hp path' hp' heq
  subst heq
  -- a changed path is protected, an added one is editable or not protected
  obtain ⟨file, hfile⟩ := (OrderedMap.mem_keys_iff _).mp (hsub.subset hp)
  obtain ⟨f, hf, rfl⟩ := List.mem_map.mp hp'
  obtain ⟨blob, _, hu⟩ := mem_additions.mp hf
  have hvalid := hM
  simp only [validate, bind_ok, each_ok] at hvalid
  obtain ⟨_, _, _, _, hfiles⟩ := hvalid
  have hne := (validateFile_ok.mp (hfiles (f.path, file)
    ((OrderedMap.mem_entries_iff _).mpr hfile))).2.1
  rw [unexpected_eq_none.mpr (Or.inr ⟨hne, file, hfile⟩)] at hu
  cases hu

/-- **The integrity check is sound and complete.**  Against a manifest
generated from `S`, a well-formed snapshot has no finding exactly when it holds
the protected files of `S`, no others outside the editable areas, and only
regular files inside them.  The template itself has none, a snapshot without
findings is valid, and no path is reported twice. -/
theorem check_generated (hgen : generate S editable = .ok M)
    (hT : T.validateStructure = .ok ())
    (hc : CollisionFree fun bytes => S.Holds bytes ∨ T.Holds bytes) :
    (M.check T = .ok [] ↔ SameProtected editable S T ∧ RegularEdits editable T) ∧
      M.check S = .ok [] ∧ (M.check T = .ok [] → T.validate = .ok ()) ∧
      ∀ found, M.check T = .ok found → (found.map Finding.path).Nodup := by
  obtain ⟨hS, hmode⟩ := Snapshot.validate_ok.mp (generate_spec hgen).1
  have hcS : CollisionFree fun bytes => S.Holds bytes ∨ S.Holds bytes := fun a b ha hb =>
    hc a b (Or.inl (ha.elim id id)) (Or.inl (hb.elim id id))
  have hself : SameProtected editable S S ∧ RegularEdits editable S := by
    refine ⟨⟨fun _ _ => Iff.rfl, fun path blob blob' _ hb hb' => ?_⟩, fun path blob _ hb =>
      hmode path blob hb⟩
    rw [hb] at hb'
    cases hb'
    exact ⟨rfl, rfl⟩
  exact ⟨check_generated_iff hgen hT hc, (check_generated_iff hgen hS hcS).mpr hself,
    validate_of_no_findings hgen hT, fun _ h => findings_nodup (validate_generate hgen) hT h⟩

end Manifest

/-! ### A submission that adds a file -/

namespace Sample

open Snapshot

attribute [local instance] Sha256.standard

/-- A template with one protected file. -/
def template : Snapshot :=
  ⟨"aaaaaaaaaaaaaaaaaaaaaaaaaaaaaaaaaaaaaaaa", .ofList [("tests/t.py", ⟨"100644", "YQ=="⟩)]⟩

/-- The template and a file in an editable area. -/
def submission : Snapshot :=
  ⟨"bbbbbbbbbbbbbbbbbbbbbbbbbbbbbbbbbbbbbbbb",
    .ofList [("src/a.py", ⟨"100755", "YQ=="⟩), ("tests/t.py", ⟨"100644", "YQ=="⟩)]⟩

def manifest : Manifest :=
  ⟨1, template.sha, ["src/"], .ofList [("tests/t.py", ⟨"100644", digest [97]⟩)]⟩

theorem generate_template : Manifest.generate template ["src/"] = .ok manifest := by
  decide +kernel

/-- The bytes in `template` and `submission` are the same. -/
theorem holds_eq {bytes : List UInt8} (h : template.Holds bytes ∨ submission.Holds bytes) :
    bytes = [97] := by
  have key : ∀ e ∈ template.files.entries ++ submission.files.entries, e.2.data = "YQ==" := by
    decide +kernel
  have hdata : ∃ blob : Blob, blob.data = "YQ==" ∧ blob.bytes = .ok bytes := by
    rcases h with ⟨path, blob, hb, hbytes⟩ | ⟨path, blob, hb, hbytes⟩
    · exact ⟨blob, key (path, blob) (List.mem_append_left _
        ((OrderedMap.mem_entries_iff _).mpr hb)), hbytes⟩
    · exact ⟨blob, key (path, blob) (List.mem_append_right _
        ((OrderedMap.mem_entries_iff _).mpr hb)), hbytes⟩
  obtain ⟨⟨mode, data⟩, rfl, hbytes⟩ := hdata
  have hval : (⟨"100644", "YQ=="⟩ : Blob).bytes = .ok [97] := by decide +kernel
  have hval : (⟨mode, "YQ=="⟩ : Blob).bytes = .ok [97] := hval
  rw [hval] at hbytes
  cases hbytes
  rfl

/-- The check accepts `submission`, so it holds the template's protected file. -/
theorem check_generated_submission : SameProtected ["src/"] template submission ∧
    RegularEdits ["src/"] submission ∧ manifest.check template = .ok [] ∧
    submission.validate = .ok () := by
  obtain ⟨hiff, hself, hvalid, _⟩ := Manifest.check_generated (T := submission)
    generate_template (by decide +kernel) (fun a b ha hb _ => (holds_eq ha).trans (holds_eq hb).symm)
  have hcheck : manifest.check submission = .ok [] := by decide +kernel
  obtain ⟨hsame, hreg⟩ := hiff.mp hcheck
  exact ⟨hsame, hreg, hself, hvalid hcheck⟩

end Sample

end Grading

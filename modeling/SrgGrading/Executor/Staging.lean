import SrgGrading.Library.FileSystem
import SrgGrading.Core.IntegrityCheck

/-!
# Staging

A clean submission and the sources of its grader are written to directories the
sandbox mounts.  Core decides which paths are safe, the executor creates files
at them; a file system has limits of its own, which the check does not know.

* `apart_of_valid`: no file of a valid snapshot lies in another.
* `Staged.files`: what the loop over the files writes.
* `staged_iff`: staging succeeds, and is faithful, exactly when every path fits
  the limits of the file system.
-/

open Fallible FileSystem

namespace Grading

/-! ### Paths of a valid snapshot -/

namespace Snapshot

theorem validateFiles_parents {files : OrderedMap String Blob} : ∀ {l : List (String × Blob)}
    {size : Nat}, validateFiles files size l = .ok () →
    ∀ path blob, (path, blob) ∈ l → ∀ parent ∈ Text.parents path, files.contains parent = false := by
  intro l
  induction l with
  | nil => intro size _ path blob hm; cases hm
  | cons e rest ih =>
    obtain ⟨path, blob⟩ := e
    intro size h path' blob' hm
    simp only [validateFiles, bind_ok, each_ok, check_ok, Bool.not_eq_true'] at h
    obtain ⟨_, _, _, _, _, _, _, _, _, hparents, hrest⟩ := h
    rcases List.mem_cons.mp hm with h1 | h1
    · cases h1
      exact hparents
    · exact ih hrest path' blob' h1

/-- **No file of a valid snapshot lies in another.** -/
theorem apart {snapshot : Snapshot} (h : snapshot.validateStructure = .ok ()) {a b : String}
    {blob blob' : Blob} (ha : (a, blob) ∈ snapshot.files.entries)
    (hb : (b, blob') ∈ snapshot.files.entries) (hpre : Text.split a '/' <+: Text.split b '/') :
    a = b := by
  obtain ⟨rest, hrest⟩ := hpre
  cases rest with
  | nil =>
    rw [List.append_nil] at hrest
    exact Text.split_inj hrest
  | cons name rest =>
    have hparent := Text.mem_parents_of_split hrest.symm (List.cons_ne_nil _ _)
    simp only [validateStructure, bind_ok] at h
    obtain ⟨_, _, _, _, hfiles⟩ := h
    have hno := validateFiles_parents hfiles b blob' hb a hparent
    have hyes := (OrderedMap.contains_iff _).mpr ⟨blob, (OrderedMap.mem_entries_iff _).mp ha⟩
    rw [hno] at hyes
    cases hyes

end Snapshot

/-- A snapshot without findings has regular files only. -/
theorem Manifest.validate_of_clean [Sha256] {manifest : Manifest} {snapshot : Snapshot}
    (h : manifest.check snapshot = .ok []) : snapshot.validate = .ok () := by
  simp only [check, bind_ok, pure_ok] at h
  obtain ⟨_, hvalid, _, hstructure, found, hchanges, hempty⟩ := h
  obtain ⟨hfound, hadditions⟩ := List.append_eq_nil_iff.mp hempty
  refine Snapshot.validate_ok.mpr ⟨hstructure, fun path blob hblob => ?_⟩
  rcases unexpected_eq_none.mp (additions_eq_nil.mp hadditions path blob hblob) with
    ⟨_, hregular⟩ | ⟨_, file, hfile⟩
  · exact hregular
  · have hentry := (OrderedMap.mem_entries_iff _).mpr hfile
    obtain ⟨blob', _, hblob', hmode, _⟩ :=
      changed_eq_none.mp ((changes_spec hchanges).2.mp hfound (path, file) hentry)
    rw [hblob, Option.some_inj] at hblob'
    simp only [validate, bind_ok, each_ok] at hvalid
    obtain ⟨_, _, _, _, hfiles⟩ := hvalid
    rw [hblob', hmode]
    exact (validateFile_ok.mp (hfiles (path, file) hentry)).2.2.2

namespace Staging

/-! ### Writing files -/

/-- Names of at most 255 bytes, paths of at most 4096. -/
def limits : Limits String := ⟨Text.len, 255, 4096⟩

inductive Failure
  | io (e : Errno)
  | error (e : Error)

def destination (root : Path String) (path : String) : Path String :=
  (Text.split path '/').reverse ++ root

def fileMode (executable : Bool) : Nat := if executable then 493 else 420

def write (fs : Fs String) (path : Path String) (bytes : List UInt8) (executable : Bool) :
    Except Failure (Fs String) :=
  (createNew limits fs path (fileMode executable) bytes).mapError .io

/-- The loop over the files of a snapshot. -/
def stageFiles (root : Path String) : List (String × Blob) → Fs String →
    Except Failure (Fs String)
  | [], fs => return fs
  | (path, blob) :: rest, fs => do
    let fs ← (createDirAll limits fs (destination root path).tail).mapError .io
    let bytes ← blob.bytes.mapError .error
    let fs ← write fs (destination root path) bytes (blob.mode = "100755")
    stageFiles root rest fs

/-- A new directory with the files of a snapshot. -/
def stageInto (root : Path String) (snapshot : Snapshot) (fs : Fs String) :
    Except Failure (Fs String) := do
  let fs ← (createDir limits fs root).mapError .io
  stageFiles root snapshot.files.entries fs

def stageGrader (directory : Path String) : Option Snapshot → Fs String →
    Except Failure (Fs String)
  | none, fs => return fs
  | some snapshot, fs => do
    snapshot.validate.mapError .error
    stageInto ("grader" :: directory) snapshot fs

/-- What `execute_inner` stages in the directory of a lease. -/
def stage (directory : Path String) (grader : Option Snapshot) (snapshot : Snapshot)
    (fs : Fs String) : Except Failure (Fs String) := do
  let fs ← stageGrader directory grader fs
  stageInto ("source" :: directory) snapshot fs

/-! ### The loop over the files -/

theorem mapError_ok {ε ε' α : Type} {f : ε → ε'} {x : Except ε α} {a : α} :
    x.mapError f = .ok a ↔ x = .ok a := by
  cases x <;> simp [Except.mapError]

theorem destination_eq_cons (root : Path String) (path : String) :
    ∃ name parent, destination root path = name :: parent ∧ root <:+ parent := by
  rw [destination]
  cases hsplit : (Text.split path '/').reverse with
  | nil => exact absurd (List.reverse_eq_nil_iff.mp hsplit) (Text.split_ne_nil _ _)
  | cons name names => exact ⟨name, names ++ root, rfl, List.suffix_append _ _⟩

/-- A path below a directory. -/
def Below (root q : Path String) : Prop := root <:+ q ∧ q ≠ root

theorem below_destination (root : Path String) (path : String) :
    Below root (destination root path) := by
  obtain ⟨name, parent, heq, hparent⟩ := destination_eq_cons root path
  rw [heq]
  refine ⟨hparent.trans (List.suffix_cons _ _), fun h => ?_⟩
  have hlength := hparent.length_le
  rw [← h, List.length_cons] at hlength
  omega

/-- No file of the list lies in another. -/
def Apart (root : Path String) (files : List (String × Blob)) : Prop :=
  ∀ a ∈ files, ∀ b ∈ files, destination root a.1 <:+ destination root b.1 → a.1 = b.1

theorem apart_of_valid {snapshot : Snapshot} (h : snapshot.validateStructure = .ok ())
    (root : Path String) : Apart root snapshot.files.entries := by
  intro a ha b hb hsuffix
  refine Snapshot.apart h ha hb ?_
  rw [destination, destination] at hsuffix
  obtain ⟨t, ht⟩ := hsuffix
  rw [← List.append_assoc, List.append_cancel_right_eq] at ht
  exact List.reverse_suffix.mp ⟨t, ht⟩

/-- The files of `done` were staged below `root`, and nothing else. -/
structure Staged (fs₀ : Fs String) (root : Path String) (done : List (String × Blob))
    (fs : Fs String) : Prop where
  outside : ∀ q, ¬ Below root q → fs q = fs₀ q
  file : ∀ e ∈ done, ∃ bytes, e.2.bytes = .ok bytes ∧
    fs (destination root e.1) = some (.file (fileMode (e.2.mode = "100755")) bytes)
  dir : ∀ q, Below root q → (∀ e ∈ done, q ≠ destination root e.1) →
    (∃ e ∈ done, q <:+ destination root e.1) → fs q = some .dir
  none : ∀ q, Below root q → (∀ e ∈ done, ¬ q <:+ destination root e.1) → fs q = none

section Loop
variable {fs₀ fs : Fs String} {root : Path String} {done : List (String × Blob)}

/-- What is not below the root and above a path below it is above the root. -/
theorem suffix_root {q parent : Path String} (hroot : root <:+ parent) (hq : q <:+ parent)
    (hbelow : ¬ Below root q) : q <:+ root := by
  rcases List.suffix_or_suffix_of_suffix hroot hq with h | h
  · by_cases heq : q = root
    · rw [heq]
    · exact absurd ⟨h, heq⟩ hbelow
  · exact h

/-- **One more file.** -/
theorem Staged.file_step (h : Staged fs₀ root done fs) (htop : fs₀ [] = some .dir)
    (hroot : directory limits fs₀ root = .ok ()) {e : String × Blob}
    (hapart : Apart root (e :: done)) (hnew : ∀ d ∈ done, d.1 ≠ e.1)
    (hfits : limits.Fits (destination root e.1)) {bytes : List UInt8}
    (hbytes : e.2.bytes = .ok bytes) :
    ∃ fs₁ fs₂, createDirAll limits fs (destination root e.1).tail = .ok fs₁ ∧
      write fs₁ (destination root e.1) bytes (e.2.mode = "100755") = .ok fs₂ ∧
      Staged fs₀ root (e :: done) fs₂ := by
  have hbelow := below_destination root e.1
  have hother : ∀ d ∈ done, ¬ destination root d.1 <:+ destination root e.1 := fun d hd hs =>
    hnew d hd (hapart d (List.mem_cons_of_mem _ hd) e List.mem_cons_self hs)
  have hother' : ∀ d ∈ done, ¬ destination root e.1 <:+ destination root d.1 := fun d hd hs =>
    hnew d hd (hapart e List.mem_cons_self d (List.mem_cons_of_mem _ hd) hs).symm
  have habove : ∀ q, q <:+ root → fs₀ q = some .dir := by
    intro q hq
    by_cases hnil : q = []
    · rw [hnil, htop]
    · exact dir_of_directory hroot hq hnil
  obtain ⟨name, parent, heq, hparent⟩ := destination_eq_cons root e.1
  have hown : parent <:+ destination root e.1 := heq ▸ List.suffix_cons _ _
  -- nothing above the file is one of the files staged before
  have hclear : Clear fs parent := by
    intro q hq _
    by_cases hb : Below root q
    · have hne : ∀ d ∈ done, q ≠ destination root d.1 := fun d hd hqd =>
        hother d hd (hqd ▸ hq.trans hown)
      by_cases hs : ∃ d ∈ done, q <:+ destination root d.1
      · exact Or.inr (h.dir q hb hne hs)
      · exact Or.inl (h.none q hb fun d hd hs' => hs ⟨d, hd, hs'⟩)
    · rw [h.outside q hb]
      exact Or.inr (habove q (suffix_root hparent hq hb))
  have hnil : fs [] = some .dir := by
    rw [h.outside [] fun hb => hb.2 (List.suffix_nil.mp hb.1).symm, htop]
  rw [heq] at hfits hbelow ⊢
  obtain ⟨fs₁, hall, h₁⟩ := createDirAll_spec hfits.parent hclear hnil
  have hlonger : ¬ name :: parent <:+ parent := fun hs => by
    have hlength := hs.length_le
    rw [List.length_cons] at hlength
    omega
  have hfree : fs₁ (name :: parent) = Option.none := by
    rw [h₁, if_neg hlonger]
    exact h.none _ hbelow fun d hd hs => hother' d hd (heq ▸ hs)
  have hvacant : vacant limits fs₁ (name :: parent) = .ok () := by
    refine vacant_cons_ok.mpr ⟨hfits.2, ?_, hfits.1 name List.mem_cons_self, hfree⟩
    exact directory_ok hfits.parent.1 fun q hq _ => by rw [h₁, if_pos hq]
  refine ⟨fs₁, _, hall, mapError_ok.mpr (createNew_ok.mpr ⟨hvacant, rfl⟩), ?_⟩
  refine ⟨fun q hb => ?_, fun d hd => ?_, fun q hb hne hs => ?_, fun q hb hno => ?_⟩
  · have hq : q ≠ name :: parent := fun hq => hb (hq ▸ hbelow)
    rw [Function.update_of_ne hq, h₁]
    split
    · rename_i hs
      exact (habove q (suffix_root hparent hs hb)).symm
    · exact h.outside q hb
  · rcases List.mem_cons.mp hd with rfl | hd
    · exact ⟨bytes, hbytes, by rw [heq, Function.update_self]⟩
    · obtain ⟨b, hb, hfile⟩ := h.file d hd
      refine ⟨b, hb, ?_⟩
      have hq : destination root d.1 ≠ name :: parent := fun hq =>
        hother d hd (by rw [hq, heq])
      rw [Function.update_of_ne hq, h₁, if_neg fun hs => hother d hd (hs.trans hown), hfile]
  · have hq : q ≠ name :: parent := heq ▸ hne e List.mem_cons_self
    rw [Function.update_of_ne hq, h₁]
    split
    · rfl
    · rename_i hs'
      obtain ⟨d, hd, hqd⟩ := hs
      rcases List.mem_cons.mp hd with rfl | hd
      · rw [heq] at hqd
        exact absurd ((List.suffix_cons_iff.mp hqd).resolve_left hq) hs'
      · exact h.dir q hb (fun d hd => hne d (List.mem_cons_of_mem _ hd)) ⟨d, hd, hqd⟩
  · have hq : ¬ q <:+ name :: parent := heq ▸ hno e List.mem_cons_self
    have hne : q ≠ name :: parent := fun heq => hq (by rw [heq])
    rw [Function.update_of_ne hne, h₁, if_neg fun hs => hq (hs.trans (List.suffix_cons _ _))]
    exact h.none q hb fun d hd => hno d (List.mem_cons_of_mem _ hd)

/-- The loop, from files staged before. -/
theorem Staged.files (htop : fs₀ [] = some .dir) (hroot : directory limits fs₀ root = .ok ()) :
    ∀ {rest : List (String × Blob)} {done : List (String × Blob)} {fs : Fs String},
    Staged fs₀ root done fs → Apart root (rest.reverse ++ done) → (rest.map Prod.fst).Nodup →
    (∀ d ∈ done, ∀ e ∈ rest, d.1 ≠ e.1) →
    (∀ e ∈ rest, limits.Fits (destination root e.1) ∧ ∃ bytes, e.2.bytes = .ok bytes) →
    ∃ fs', stageFiles root rest fs = .ok fs' ∧ Staged fs₀ root (rest.reverse ++ done) fs' := by
  intro rest
  induction rest with
  | nil => exact fun h _ _ _ _ => ⟨_, rfl, h⟩
  | cons e rest ih =>
    intro done fs h hapart hnodup hnew hall
    rw [List.map_cons, List.nodup_cons] at hnodup
    rw [List.reverse_cons, List.append_assoc, List.singleton_append] at hapart ⊢
    obtain ⟨hfits, bytes, hbytes⟩ := hall e List.mem_cons_self
    obtain ⟨fs₁, fs₂, hdirs, hwrite, hstaged⟩ := h.file_step htop hroot
      (fun a ha b hb => hapart a (List.mem_append_right _ ha) b (List.mem_append_right _ hb))
      (fun d hd => hnew d hd e List.mem_cons_self) hfits hbytes
    obtain ⟨fs', hrest, hdone⟩ := ih hstaged hapart hnodup.2
      (fun d hd f hf => by
        rcases List.mem_cons.mp hd with rfl | hd
        · exact fun heq => hnodup.1 (heq ▸ List.mem_map_of_mem hf)
        · exact hnew d hd f (List.mem_cons_of_mem _ hf))
      fun f hf => hall f (List.mem_cons_of_mem _ hf)
    refine ⟨fs', ?_, hdone⟩
    rw [stageFiles]
    simp only [bind_ok, mapError_ok]
    exact ⟨fs₁, hdirs, bytes, hbytes, fs₂, hwrite, hrest⟩

end Loop

/-- Whatever was staged fits. -/
theorem fits_of_stageFiles {root : Path String} : ∀ {files : List (String × Blob)}
    {fs fs' : Fs String}, stageFiles root files fs = .ok fs' →
    ∀ e ∈ files, limits.Fits (destination root e.1) := by
  intro files
  induction files with
  | nil => exact fun _ e he => by cases he
  | cons e rest ih =>
    intro fs fs' h f hf
    rw [stageFiles] at h
    simp only [write, bind_ok, mapError_ok] at h
    obtain ⟨_, _, _, _, _, hwrite, hrest⟩ := h
    rcases List.mem_cons.mp hf with rfl | hf
    · exact fits_of_vacant (createNew_ok.mp hwrite).1
    · exact ih hrest f hf

/-! ### Whole snapshots -/

/-- A directory that holds one regular file for each path of a snapshot, with its
bytes and an execute bit for the mode 100755, and no other file. -/
structure Holds (fs : Fs String) (root : Path String) (snapshot : Snapshot) : Prop where
  self : fs root = some .dir
  files : ∀ path blob, snapshot.files.get? path = some blob → ∃ bytes, blob.bytes = .ok bytes ∧
    fs (destination root path) = some (.file (fileMode (blob.mode = "100755")) bytes)
  only : ∀ q mode bytes, Below root q → fs q = some (.file mode bytes) →
    ∃ path blob, snapshot.files.get? path = some blob ∧ q = destination root path

/-- Every path of a snapshot fits below a directory. -/
def AllFit (root : Path String) (snapshot : Snapshot) : Prop :=
  limits.Fits root ∧ ∀ path blob, snapshot.files.get? path = some blob →
    limits.Fits (destination root path)

theorem allFit_of_stageInto {root : Path String} {snapshot : Snapshot} {fs fs' : Fs String}
    (h : stageInto root snapshot fs = .ok fs') : AllFit root snapshot := by
  simp only [stageInto, bind_ok, mapError_ok] at h
  obtain ⟨fs₁, hdir, hfiles⟩ := h
  refine ⟨fits_of_vacant (createDir_ok.mp hdir).1, fun path blob hblob => ?_⟩
  exact fits_of_stageFiles hfiles (path, blob) ((OrderedMap.mem_entries_iff _).mpr hblob)

/-- **A snapshot is staged into a new directory.** -/
theorem stageInto_spec {name : String} {parent : Path String} {snapshot : Snapshot}
    {fs : Fs String} (htop : fs [] = some .dir) (hparent : directory limits fs parent = .ok ())
    (hempty : ∀ q, name :: parent <:+ q → fs q = none)
    (hvalid : snapshot.validateStructure = .ok ()) (hfit : AllFit (name :: parent) snapshot) :
    ∃ fs', stageInto (name :: parent) snapshot fs = .ok fs' ∧
      Holds fs' (name :: parent) snapshot ∧ ∀ q, ¬ name :: parent <:+ q → fs' q = fs q := by
  have hvacant : vacant limits fs (name :: parent) = .ok () :=
    vacant_cons_ok.mpr ⟨hfit.1.2, hparent, hfit.1.1 name List.mem_cons_self,
      hempty _ (List.suffix_refl _)⟩
  have hmade := createDir_ok.mpr ⟨hvacant, rfl⟩
  have hself : Function.update fs (name :: parent) (some .dir) (name :: parent) = some .dir :=
    Function.update_self _ _ _
  have hothers : ∀ q, q ≠ name :: parent →
      Function.update fs (name :: parent) (some .dir) q = fs q := fun q hq =>
    Function.update_of_ne hq _ _
  generalize Function.update fs (name :: parent) (some .dir) = fs₀ at hmade hself hothers
  have htop₀ : fs₀ [] = some .dir := by rw [hothers [] (by simp), htop]
  have hroot₀ : directory limits fs₀ (name :: parent) = .ok () := by
    refine directory_ok hfit.1.1 fun q hq hne => ?_
    rcases List.suffix_cons_iff.mp hq with rfl | hq
    · exact hself
    · have hlength := hq.length_le
      have hlonger : q ≠ name :: parent := fun heq => by
        rw [heq, List.length_cons] at hlength
        omega
      rw [hothers q hlonger]
      exact dir_of_directory hparent hq hne
  have hstart : Staged fs₀ (name :: parent) [] fs₀ := by
    refine ⟨fun _ _ => rfl, fun _ h => (by cases h), fun _ _ _ h => ?_, fun q hb _ => ?_⟩
    · obtain ⟨_, h, _⟩ := h
      cases h
    · rw [hothers q hb.2]
      exact hempty q hb.1
  obtain ⟨fs', hstage, hstaged⟩ := hstart.files htop₀ hroot₀
    (by
      rw [List.append_nil]
      intro a ha b hb
      exact apart_of_valid hvalid _ a (List.mem_reverse.mp ha) b (List.mem_reverse.mp hb))
    snapshot.files.keys_nodup (fun _ h => by cases h) fun e he => by
      have hblob := (OrderedMap.mem_entries_iff _).mp he
      exact ⟨hfit.2 _ _ hblob, (Snapshot.validateStructure_ok hvalid hblob).2⟩
  rw [List.append_nil] at hstaged
  refine ⟨fs', ?_, ⟨?_, ?_, ?_⟩, fun q hq => ?_⟩
  · simp only [stageInto, bind_ok, mapError_ok]
    exact ⟨fs₀, hmade, hstage⟩
  · rw [hstaged.outside _ fun hb => hb.2 rfl, hself]
  · intro path blob hblob
    exact hstaged.file (path, blob)
      (List.mem_reverse.mpr ((OrderedMap.mem_entries_iff _).mpr hblob))
  · intro q mode bytes hb hfile
    by_cases hown : ∃ e ∈ snapshot.files.entries, q = destination (name :: parent) e.1
    · obtain ⟨e, he, hq⟩ := hown
      exact ⟨e.1, e.2, (OrderedMap.mem_entries_iff _).mp he, hq⟩
    · have hne : ∀ e ∈ snapshot.files.entries.reverse, q ≠ destination (name :: parent) e.1 :=
        fun e he hq => hown ⟨e, List.mem_reverse.mp he, hq⟩
      by_cases hs : ∃ e ∈ snapshot.files.entries.reverse, q <:+ destination (name :: parent) e.1
      · rw [hstaged.dir q hb hne hs] at hfile
        cases hfile
      · rw [hstaged.none q hb fun e he hq => hs ⟨e, he, hq⟩] at hfile
        cases hfile
  · rw [hstaged.outside q fun hb => hq hb.1]
    exact hothers q fun heq => hq (heq ▸ List.suffix_refl _)

/-- Two directories of one directory have nothing in common. -/
theorem not_suffix_of_sibling {a b : String} {parent q : Path String} (hne : a ≠ b)
    (hq : a :: parent <:+ q) : ¬ b :: parent <:+ q := by
  intro hb
  have heq : a :: parent = b :: parent := by
    rcases List.suffix_or_suffix_of_suffix hq hb with h | h
    · exact h.eq_of_length rfl
    · exact (h.eq_of_length rfl).symm
  exact hne (List.cons.inj heq).1

/-- Staging succeeded: each directory holds its snapshot, nothing outside the two
was written and no file overwritten. -/
structure Faithful (directory : Path String) (grader : Option Snapshot) (snapshot : Snapshot)
    (fs fs' : Fs String) : Prop where
  source : Holds fs' ("source" :: directory) snapshot
  grader : ∀ g, grader = some g → Holds fs' ("grader" :: directory) g
  outside : ∀ q, ¬ Below directory q → fs' q = fs q
  kept : ∀ q mode bytes, fs q = some (.file mode bytes) → fs' q = fs q

/-- **Staging a clean submission succeeds exactly when every path fits.** -/
theorem staged_iff [Sha256] {manifest : Manifest} {grader : Option Snapshot} {snapshot : Snapshot}
    {fs : Fs String} {directory : Path String} (hclean : manifest.check snapshot = .ok [])
    (hgrader : ∀ g, grader = some g → g.validate = .ok ()) (htop : fs [] = some .dir)
    (hdirectory : FileSystem.directory limits fs directory = .ok ())
    (hempty : ∀ q, Below directory q → fs q = none) :
    (∃ fs', stage directory grader snapshot fs = .ok fs' ∧
        Faithful directory grader snapshot fs fs') ↔
      AllFit ("source" :: directory) snapshot ∧
        ∀ g, grader = some g → AllFit ("grader" :: directory) g := by
  have hsource := (Snapshot.validate_ok.mp (Manifest.validate_of_clean hclean)).1
  have hbelow : ∀ {name : String} {q}, name :: directory <:+ q → Below directory q := by
    intro name q hq
    refine ⟨(List.suffix_cons _ _).trans hq, fun heq => ?_⟩
    have hlength := hq.length_le
    rw [heq, List.length_cons] at hlength
    omega
  constructor
  · rintro ⟨fs', hstage, _⟩
    simp only [stage, bind_ok] at hstage
    obtain ⟨fs₁, hfirst, hsecond⟩ := hstage
    refine ⟨allFit_of_stageInto hsecond, fun g hg => ?_⟩
    rw [hg, stageGrader] at hfirst
    simp only [bind_ok] at hfirst
    obtain ⟨_, _, hinto⟩ := hfirst
    exact allFit_of_stageInto hinto
  · rintro ⟨hfit, hfits⟩
    have hfirst : ∃ fs₁, stageGrader directory grader fs = .ok fs₁ ∧
        (∀ g, grader = some g → Holds fs₁ ("grader" :: directory) g) ∧
        ∀ q, ¬ "grader" :: directory <:+ q → fs₁ q = fs q := by
      cases grader with
      | none => exact ⟨fs, rfl, fun g hg => (by cases hg), fun _ _ => rfl⟩
      | some g =>
        have hvalid := hgrader g rfl
        obtain ⟨fs₁, hinto, hholds, hrest⟩ := stageInto_spec htop hdirectory
          (fun q hq => hempty q (hbelow hq)) (Snapshot.validate_ok.mp hvalid).1 (hfits g rfl)
        refine ⟨fs₁, ?_, fun g' hg' => Option.some_inj.mp hg' ▸ hholds, hrest⟩
        simp only [stageGrader, bind_ok, mapError_ok]
        exact ⟨(), hvalid, hinto⟩
    obtain ⟨fs₁, hstage₁, hholds₁, hrest₁⟩ := hfirst
    have hshort : ∀ {name : String} {q : Path String}, q <:+ directory →
        ¬ name :: directory <:+ q := fun hq hs => by
      have hlength := (hs.trans hq).length_le
      rw [List.length_cons] at hlength
      omega
    have hdirectory₁ : FileSystem.directory limits fs₁ directory = .ok () := by
      refine directory_ok (names_of_directory hdirectory) fun q hq hne => ?_
      rw [hrest₁ q (hshort hq)]
      exact dir_of_directory hdirectory hq hne
    have htop₁ : fs₁ [] = some .dir := by
      rw [hrest₁ [] fun h => (by cases List.suffix_nil.mp h), htop]
    obtain ⟨fs', hinto, hholds, hrest⟩ := stageInto_spec htop₁ hdirectory₁
      (fun q hq => by
        rw [hrest₁ q (not_suffix_of_sibling (by decide) hq)]
        exact hempty q (hbelow hq)) hsource hfit
    refine ⟨fs', ?_, hholds, fun g hg => ?_, fun q hq => ?_, fun q mode bytes hfile => ?_⟩
    · simp only [stage, bind_ok]
      exact ⟨fs₁, hstage₁, hinto⟩
    · obtain ⟨hroot, hfiles, honly⟩ := hholds₁ g hg
      have hsame : ∀ q, "grader" :: directory <:+ q → fs' q = fs₁ q := fun q hq =>
        hrest q (not_suffix_of_sibling (by decide) hq)
      refine ⟨?_, fun path blob hblob => ?_, fun q mode bytes hb hfile => ?_⟩
      · rw [hsame _ (List.suffix_refl _), hroot]
      · obtain ⟨bytes, hbytes, hfile⟩ := hfiles path blob hblob
        exact ⟨bytes, hbytes, by rw [hsame _ (below_destination _ _).1, hfile]⟩
      · rw [hsame q hb.1] at hfile
        exact honly q mode bytes hb hfile
    · rw [hrest q fun hs => hq (hbelow hs), hrest₁ q fun hs => hq (hbelow hs)]
    · have hq : ¬ Below directory q := fun hb => by
        rw [hempty q hb] at hfile
        cases hfile
      rw [hrest q fun hs => hq (hbelow hs), hrest₁ q fun hs => hq (hbelow hs)]

end Staging

namespace Sample

open Staging

attribute [local instance] Sha256.standard

/-- An empty directory for a lease. -/
def staging : Fs String := fun q => if q = [] ∨ q = ["run"] then some .dir else none

theorem staging_empty : staging [] = some .dir ∧ directory limits staging ["run"] = .ok () ∧
    ∀ q, Below ["run"] q → staging q = none := by
  refine ⟨rfl, by decide +kernel, fun q hq => if_neg ?_⟩
  rintro (h | h)
  · rw [h] at hq
    cases List.suffix_nil.mp hq.1
  · exact hq.2 h

/-- A submission whose paths fit is staged. -/
theorem staged_submission : ∃ fs', stage ["run"] none submission staging = .ok fs' ∧
    Faithful ["run"] none submission staging fs' := by
  have hcheck : manifest.check submission = .ok [] := by decide +kernel
  obtain ⟨htop, hdirectory, hempty⟩ := staging_empty
  refine (staged_iff hcheck (fun g hg => by cases hg) htop hdirectory hempty).mpr ⟨⟨?_, ?_⟩, ?_⟩
  · decide +kernel
  · have hall : ∀ e ∈ submission.files.entries,
        limits.Fits (destination ["source", "run"] e.1) := by decide +kernel
    exact fun path blob hblob => hall (path, blob) ((OrderedMap.mem_entries_iff _).mpr hblob)
  · exact fun g hg => by cases hg

/-- 256 letters. -/
@[irreducible] def longName : List Char := List.replicate 256 'a'

@[irreducible] def longPath : String := String.ofList ('s' :: 'r' :: 'c' :: '/' :: longName)

theorem longPath_toList : longPath.toList = 's' :: 'r' :: 'c' :: '/' :: longName := by
  rw [longPath, String.toList_ofList]

theorem longName_ascii : ∀ c ∈ longName, c.utf8Size = 1 := by
  intro c hc
  rw [longName] at hc
  rw [List.eq_of_mem_replicate hc]
  decide

theorem longName_len : Text.len (String.ofList longName) = 256 := by
  rw [Text.len_ofList_of_ascii longName_ascii, longName, List.length_replicate]

theorem longPath_len : Text.len longPath = 260 := by
  have hascii : ∀ c ∈ 's' :: 'r' :: 'c' :: '/' :: longName, c.utf8Size = 1 := by
    simp only [List.forall_mem_cons]
    exact ⟨by decide, by decide, by decide, by decide, longName_ascii⟩
  rw [longPath, Text.len_ofList_of_ascii hascii, longName]
  simp only [List.length_cons, List.length_replicate]

theorem longPath_split : Text.split longPath '/' = ["src", String.ofList longName] := by
  rw [Text.split, longPath_toList]
  have hchars : ('s' :: 'r' :: 'c' :: '/' :: longName).splitOn '/' =
      ["src".toList, longName] := by decide +kernel
  rw [hchars]
  rfl

/-- The check allows the path. -/
theorem longPath_safe : safePath longPath = .ok () := by
  have hne : ∀ {l : List Char} {s : String}, l ≠ s.toList → String.ofList l ≠ s :=
    fun hl heq => hl (by rw [← heq, String.toList_ofList])
  have hpath : longPath ≠ "" := by
    rw [longPath]
    exact hne (by decide +kernel)
  have hparts : ((["src", String.ofList longName] : List String).all fun p =>
      p ≠ "" && p ≠ "." && p ≠ ".." && !Text.eqIgnoreAsciiCase p ".git") = true := by
    simp only [List.all_cons, List.all_nil, Bool.and_eq_true, decide_eq_true_eq, Bool.not_eq_true',
      Text.eqIgnoreAsciiCase, String.toList_ofList]
    refine ⟨by decide +kernel, ⟨⟨⟨hne ?_, hne ?_⟩, hne ?_⟩, ?_⟩, trivial⟩
    all_goals decide +kernel
  simp only [safePath, bind_ok, check_ok, Text.contains, longPath_split, longPath_toList,
    longPath_len, hparts, decide_eq_true hpath]
  refine ⟨(), ?_, trivial⟩
  decide +kernel
/-- A submission with a file whose name has 256 bytes. -/
def overlong : Snapshot :=
  ⟨"bbbbbbbbbbbbbbbbbbbbbbbbbbbbbbbbbbbbbbbb", .ofList [(longPath, ⟨"100644", "YQ=="⟩)]⟩

def plainManifest : Manifest := ⟨1, "aaaaaaaaaaaaaaaaaaaaaaaaaaaaaaaaaaaaaaaa", ["src/"], .empty⟩

theorem overlong_structure : overlong.validateStructure = .ok () := by
  have hparents : Text.parents longPath = ["src"] := by
    rw [Text.parents, longPath_toList]
    have hchars : Text.parentsRev ('s' :: 'r' :: 'c' :: '/' :: longName).reverse =
        ["src".toList] := by decide +kernel
    rw [hchars]
    rfl
  have hfree : overlong.files.contains "src" = false := by
    have hne : longPath ≠ "src" := fun h => by
      have hl := congrArg List.length (congrArg String.toList h)
      rw [longPath_toList] at hl
      revert hl
      decide +kernel
    change (decide (longPath = "src") || false) = false
    rw [decide_eq_false hne]
    rfl
  have hfiles : Snapshot.validateFiles overlong.files 0 [(longPath, ⟨"100644", "YQ=="⟩)] =
      .ok () := by
    simp only [Snapshot.validateFiles, bind_ok, check_ok, each_ok, hparents]
    refine ⟨(), longPath_safe, (), rfl, [97], by decide +kernel, (), by decide, (), ?_, rfl⟩
    intro parent hparent
    rw [List.mem_singleton.mp hparent, hfree]
    rfl
  simp only [Snapshot.validateStructure, bind_ok, check_ok]
  exact ⟨(), by decide +kernel, (), by decide, hfiles⟩

theorem overlong_clean : plainManifest.check overlong = .ok [] := by
  have hadditions : plainManifest.additions overlong = [] := by
    refine Manifest.additions_eq_nil.mpr fun path blob hblob => ?_
    have hentry := (OrderedMap.mem_entries_iff _).mpr hblob
    obtain ⟨rfl, rfl⟩ := Prod.mk.inj (List.mem_singleton.mp hentry)
    refine Manifest.unexpected_eq_none.mpr (Or.inl ⟨?_, rfl⟩)
    change (["src/"].any fun area => Text.startsWith longPath area) = true
    simp only [List.any_cons, List.any_nil, Text.startsWith, longPath_toList]
    decide +kernel
  simp only [Manifest.check, bind_ok, pure_ok]
  exact ⟨(), by decide +kernel, (), overlong_structure, [], rfl, hadditions⟩

/-- **A clean submission that cannot be staged.** -/
theorem staging_fails : plainManifest.check overlong = .ok [] ∧ (staging [] = some .dir ∧
    directory limits staging ["run"] = .ok () ∧ ∀ q, Below ["run"] q → staging q = none) ∧
    ¬ ∃ fs', stage ["run"] none overlong staging = .ok fs' := by
  refine ⟨overlong_clean, staging_empty, ?_⟩
  rintro ⟨fs', h⟩
  simp only [stage, bind_ok] at h
  obtain ⟨_, _, hinto⟩ := h
  have hfit := (allFit_of_stageInto hinto).2 longPath ⟨"100644", "YQ=="⟩
    ((OrderedMap.mem_entries_iff _).mp List.mem_cons_self)
  have hname := hfit.1 (String.ofList longName) (by
    rw [destination, longPath_split]
    exact List.mem_cons_self)
  change Text.len (String.ofList longName) ≤ 255 at hname
  rw [longName_len] at hname
  omega

end Sample

end Grading

import Mathlib.Algebra.GroupWithZero.Nat
import Mathlib.Data.List.Infix
import SrgGrading.Library.Fallible

/-!
# A file system

A path lists its names from the last to the first, so its directories are its
suffixes.  A name has a length; a name or a path that is too long cannot be
used.

* `createDirAll_spec`: creating a directory and those it lies in adds exactly
  what is missing, when nothing in its way is a file.
* `createNew_ok`: a new file needs its directory and no file in its place.
-/

open Fallible

namespace FileSystem

abbrev Path (ν : Type) := List ν

inductive Entry
  | dir
  | file (mode : Nat) (bytes : List UInt8)

/-- What is under each path. -/
abbrev Fs (ν : Type) := Path ν → Option Entry

inductive Errno
  | nameTooLong
  | notFound
  | notDirectory
  | alreadyExists
  deriving DecidableEq

/-- How long names and paths may be. -/
structure Limits (ν : Type) where
  length : ν → Nat
  nameMax : Nat
  pathMax : Nat

variable {ν : Type} (limits : Limits ν)

namespace Limits

/-- The length of a path, with a separator before each name. -/
def pathLength (path : Path ν) : Nat := (path.map fun name => limits.length name + 1).sum

/-- A path that can be used. -/
def Fits (path : Path ν) : Prop :=
  (∀ name ∈ path, limits.length name ≤ limits.nameMax) ∧ limits.pathLength path ≤ limits.pathMax

instance (path : Path ν) : Decidable (limits.Fits path) :=
  inferInstanceAs (Decidable (_ ∧ _))

end Limits

/-! ### System calls -/

/-- The walk to a directory. -/
def directory (fs : Fs ν) : Path ν → Except Errno Unit
  | [] => return
  | name :: parent => do
    directory fs parent
    ensure (limits.length name ≤ limits.nameMax) .nameTooLong
    match fs (name :: parent) with
    | some .dir => return
    | some (.file _ _) => throw .notDirectory
    | none => throw .notFound

/-- The walk to a path that is to be created. -/
def vacant (fs : Fs ν) : Path ν → Except Errno Unit
  | [] => throw .alreadyExists
  | name :: parent => do
    ensure (limits.pathLength (name :: parent) ≤ limits.pathMax) .nameTooLong
    directory limits fs parent
    ensure (limits.length name ≤ limits.nameMax) .nameTooLong
    ensure (fs (name :: parent)).isNone .alreadyExists

/-- Whether a path leads to a directory. -/
def isDir (fs : Fs ν) (path : Path ν) : Bool :=
  limits.pathLength path ≤ limits.pathMax && directory limits fs path = .ok ()

section Creating
variable [DecidableEq ν]

/-- `mkdir`. -/
def createDir (fs : Fs ν) (path : Path ν) : Except Errno (Fs ν) := do
  vacant limits fs path
  return Function.update fs path (some .dir)

/-- `open` with `O_CREAT` and `O_EXCL`, and a write. -/
def createNew (fs : Fs ν) (path : Path ν) (mode : Nat) (bytes : List UInt8) :
    Except Errno (Fs ν) := do
  vacant limits fs path
  return Function.update fs path (some (.file mode bytes))

/-- `create_dir_all`. -/
def createDirAll (fs : Fs ν) : Path ν → Except Errno (Fs ν)
  | [] => return fs
  | name :: parent =>
    match createDir limits fs (name :: parent) with
    | .ok fs => return fs
    | .error .notFound => do
      let fs ← createDirAll fs parent
      match createDir limits fs (name :: parent) with
      | .ok fs => return fs
      | .error e => if isDir limits fs (name :: parent) then return fs else throw e
    | .error e => if isDir limits fs (name :: parent) then return fs else throw e

end Creating

/-! ### What the calls do -/

variable {limits} {fs : Fs ν} {path : Path ν}

theorem directory_cons_ok {name : ν} {parent : Path ν} :
    directory limits fs (name :: parent) = .ok () ↔ directory limits fs parent = .ok () ∧
      limits.length name ≤ limits.nameMax ∧ fs (name :: parent) = some .dir := by
  rw [directory]
  simp only [bind_ok, ensure_ok, decide_eq_true_eq]
  constructor
  · rintro ⟨_, hparent, _, hname, h⟩
    refine ⟨hparent, hname, ?_⟩
    split at h
    · assumption
    · cases h
    · cases h
  · rintro ⟨hparent, hname, h⟩
    exact ⟨(), hparent, (), hname, by rw [h]; rfl⟩

/-- **A directory that can be reached** lies in directories. -/
theorem dir_of_directory (h : directory limits fs path = .ok ()) {q : Path ν} (hq : q <:+ path)
    (hne : q ≠ []) : fs q = some .dir := by
  induction path with
  | nil => exact absurd (List.suffix_nil.mp hq) hne
  | cons name parent ih =>
    obtain ⟨hparent, _, hdir⟩ := directory_cons_ok.mp h
    rcases List.suffix_cons_iff.mp hq with rfl | hq
    · exact hdir
    · exact ih hparent hq

theorem names_of_directory (h : directory limits fs path = .ok ()) :
    ∀ name ∈ path, limits.length name ≤ limits.nameMax := by
  induction path with
  | nil => exact fun _ h => by cases h
  | cons name parent ih =>
    obtain ⟨hparent, hname, _⟩ := directory_cons_ok.mp h
    intro n hn
    rcases List.mem_cons.mp hn with rfl | hn
    · exact hname
    · exact ih hparent n hn

theorem directory_ok (hnames : ∀ name ∈ path, limits.length name ≤ limits.nameMax)
    (h : ∀ q, q <:+ path → q ≠ [] → fs q = some .dir) : directory limits fs path = .ok () := by
  induction path with
  | nil => rfl
  | cons name parent ih =>
    refine directory_cons_ok.mpr ⟨?_, hnames name List.mem_cons_self, ?_⟩
    · exact ih (fun n hn => hnames n (List.mem_cons_of_mem _ hn)) fun q hq =>
        h q (hq.trans (List.suffix_cons _ _))
    · exact h _ (List.suffix_refl _) (List.cons_ne_nil _ _)

/-- Nothing in the way of a path is a file. -/
def Clear (fs : Fs ν) (path : Path ν) : Prop :=
  ∀ q, q <:+ path → q ≠ [] → fs q = none ∨ fs q = some .dir

theorem Clear.parent {name : ν} {parent : Path ν} (h : Clear fs (name :: parent)) :
    Clear fs parent := fun q hq => h q (hq.trans (List.suffix_cons _ _))

/-- A clear path leads to a directory, or nowhere. -/
theorem Clear.directory (h : Clear fs path)
    (hnames : ∀ name ∈ path, limits.length name ≤ limits.nameMax) :
    directory limits fs path = .ok () ∨ directory limits fs path = .error .notFound := by
  induction path with
  | nil => exact Or.inl rfl
  | cons name parent ih =>
    have hname := hnames name List.mem_cons_self
    rcases ih h.parent fun n hn => hnames n (List.mem_cons_of_mem _ hn) with hp | hp
    · rcases h _ (List.suffix_refl _) (List.cons_ne_nil _ _) with hnone | hdir
      · right
        rw [FileSystem.directory, hp, hnone]
        simp only [ensure, decide_eq_true hname]
        rfl
      · exact Or.inl (directory_cons_ok.mpr ⟨hp, hname, hdir⟩)
    · right
      rw [FileSystem.directory, hp]
      rfl

theorem vacant_cons_ok {name : ν} {parent : Path ν} :
    vacant limits fs (name :: parent) = .ok () ↔
      limits.pathLength (name :: parent) ≤ limits.pathMax ∧ directory limits fs parent = .ok () ∧
      limits.length name ≤ limits.nameMax ∧ fs (name :: parent) = none := by
  rw [vacant]
  simp only [bind_ok, ensure_ok, decide_eq_true_eq, Option.isNone_iff_eq_none]
  constructor
  · rintro ⟨_, hpath, _, hparent, _, hname, h⟩
    exact ⟨hpath, hparent, hname, h⟩
  · rintro ⟨hpath, hparent, hname, h⟩
    exact ⟨(), hpath, (), hparent, (), hname, h⟩

/-- **What can be created fits.** -/
theorem fits_of_vacant (h : vacant limits fs path = .ok ()) : limits.Fits path := by
  cases path with
  | nil => cases h
  | cons name parent =>
    obtain ⟨hpath, hparent, hname, _⟩ := vacant_cons_ok.mp h
    refine ⟨fun n hn => ?_, hpath⟩
    rcases List.mem_cons.mp hn with rfl | hn
    · exact hname
    · exact names_of_directory hparent n hn

theorem Limits.Fits.parent {name : ν} {parent : Path ν} (h : limits.Fits (name :: parent)) :
    limits.Fits parent := by
  obtain ⟨hnames, hpath⟩ := h
  refine ⟨fun n hn => hnames n (List.mem_cons_of_mem _ hn), ?_⟩
  rw [Limits.pathLength, List.map_cons, List.sum_cons] at hpath
  rw [Limits.pathLength]
  omega

variable [DecidableEq ν]

theorem createDir_ok {fs' : Fs ν} : createDir limits fs path = .ok fs' ↔
    vacant limits fs path = .ok () ∧ fs' = Function.update fs path (some .dir) := by
  simp only [createDir, bind_ok, pure_ok]
  constructor
  · rintro ⟨_, h, rfl⟩
    exact ⟨h, rfl⟩
  · rintro ⟨h, rfl⟩
    exact ⟨(), h, rfl⟩

theorem createNew_ok {fs' : Fs ν} {mode : Nat} {bytes : List UInt8} :
    createNew limits fs path mode bytes = .ok fs' ↔
      vacant limits fs path = .ok () ∧ fs' = Function.update fs path (some (.file mode bytes)) := by
  simp only [createNew, bind_ok, pure_ok]
  constructor
  · rintro ⟨_, h, rfl⟩
    exact ⟨h, rfl⟩
  · rintro ⟨h, rfl⟩
    exact ⟨(), h, rfl⟩

/-- The directory a call is to create is there, or the only one missing. -/
theorem createDir_of_directory {name : ν} {parent : Path ν} (hfits : limits.Fits (name :: parent))
    (hparent : directory limits fs parent = .ok ())
    (h : fs (name :: parent) = none ∨ fs (name :: parent) = some .dir) :
    createDir limits fs (name :: parent) =
        .ok (Function.update fs (name :: parent) (some .dir)) ∨
      createDir limits fs (name :: parent) = .error .alreadyExists ∧
        isDir limits fs (name :: parent) = true ∧
        fs = Function.update fs (name :: parent) (some .dir) := by
  have hname := hfits.1 name List.mem_cons_self
  rcases h with hnone | hdir
  · exact Or.inl (createDir_ok.mpr ⟨vacant_cons_ok.mpr ⟨hfits.2, hparent, hname, hnone⟩, rfl⟩)
  · right
    refine ⟨?_, ?_, ?_⟩
    · rw [createDir, vacant, hparent, hdir]
      simp only [ensure, decide_eq_true hname, decide_eq_true hfits.2]
      rfl
    · rw [isDir, directory_cons_ok.mpr ⟨hparent, hname, hdir⟩, decide_eq_true hfits.2]
      rfl
    · rw [← hdir, Function.update_eq_self]

/-- **Creating a directory and those it lies in.** -/
theorem createDirAll_spec (hfits : limits.Fits path) (hclear : Clear fs path)
    (hroot : fs [] = some .dir) :
    ∃ fs', createDirAll limits fs path = .ok fs' ∧
      ∀ q, fs' q = if q <:+ path then some .dir else fs q := by
  induction path with
  | nil =>
    refine ⟨fs, rfl, fun q => ?_⟩
    split
    · rename_i hq
      rw [List.suffix_nil.mp hq, hroot]
    · rfl
  | cons name parent ih =>
    have hown := hclear _ (List.suffix_refl _) (List.cons_ne_nil _ _)
    have hlonger : ∀ {q}, q <:+ parent → q ≠ name :: parent := fun hq heq => by
      have hlength := hq.length_le
      rw [heq, List.length_cons] at hlength
      omega
    -- once the directories above are there, only the last one can be missing
    have hlast : ∀ {fs₁ : Fs ν} {q}, (∀ q, fs₁ q = if q <:+ parent then some .dir else fs q) →
        Function.update fs₁ (name :: parent) (some .dir) q =
          if q <:+ name :: parent then some .dir else fs q := by
      intro fs₁ q h₁
      by_cases hq : q = name :: parent
      · rw [hq, Function.update_self, if_pos (List.suffix_refl _)]
      · rw [Function.update_of_ne hq, h₁]
        by_cases hs : q <:+ parent
        · rw [if_pos hs, if_pos (hs.trans (List.suffix_cons _ _))]
        · rw [if_neg hs, if_neg fun h => (List.suffix_cons_iff.mp h).elim hq hs]
    rcases hclear.parent.directory hfits.parent.1 with hparent | hparent
    · have hsame : ∀ q, fs q = if q <:+ parent then some .dir else fs q := by
        intro q
        by_cases hs : q <:+ parent
        · rw [if_pos hs]
          by_cases hq : q = []
          · rw [hq, hroot]
          · exact dir_of_directory hparent hs hq
        · rw [if_neg hs]
      rcases createDir_of_directory hfits hparent hown with hmade | ⟨hmade, hdir, hupdate⟩
      · refine ⟨_, ?_, fun q => hlast hsame⟩
        rw [createDirAll, hmade]
        rfl
      · refine ⟨fs, ?_, fun q => ?_⟩
        · rw [createDirAll, hmade]
          simp only [hdir, if_true]
          rfl
        · exact (congrFun hupdate q).trans (hlast hsame)
    · have hmissing : createDir limits fs (name :: parent) = .error .notFound := by
        rw [createDir, vacant, hparent]
        simp only [ensure, decide_eq_true hfits.2]
        rfl
      obtain ⟨fs₁, hall, h₁⟩ := ih hfits.parent hclear.parent
      have hparent₁ : directory limits fs₁ parent = .ok () :=
        directory_ok hfits.parent.1 fun q hq _ => by rw [h₁, if_pos hq]
      have hown₁ : fs₁ (name :: parent) = none ∨ fs₁ (name :: parent) = some .dir := by
        rw [h₁, if_neg fun h => hlonger h rfl]
        exact hown
      rcases createDir_of_directory hfits hparent₁ hown₁ with hmade | ⟨hmade, hdir, hupdate⟩
      · refine ⟨_, ?_, fun q => hlast h₁⟩
        rw [createDirAll, hmissing]
        simp only [hall, bind, Except.bind, hmade]
        rfl
      · refine ⟨fs₁, ?_, fun q => ?_⟩
        · rw [createDirAll, hmissing]
          simp only [hall, bind, Except.bind, hmade, hdir, if_true]
          rfl
        · exact (congrFun hupdate q).trans (hlast h₁)

end FileSystem

import Mathlib.Logic.Function.Basic
import Mathlib.Data.List.Basic

/-!
# A directory that may lose power

What is written to a file lasts once the file is synced, what is under a name once
the directory is.  Until then a loss of power may bring back any entry the name
has had, and leave anything in a file.

* `Lost`: what a loss of power may leave.
* `Clean`, `Firm`: whatever is under a name, now or after a loss of power, is
  a synced file with a property; and there is one.
* `clean_rename`, `firm_syncDir`, `Firm.lost`: how a file is published for good.
-/

namespace Durable

structure File where
  bytes : List UInt8
  synced : Bool

/-- What is under each name, and what was since the directory was synced. -/
structure Disk (ν : Type) where
  now : ν → Option File
  before : ν → List (Option File)

variable {ν : Type}

namespace Disk

section Changes
variable [DecidableEq ν]

/-- Another entry under a name. -/
def enter (d : Disk ν) (name : ν) (file : Option File) : Disk ν :=
  ⟨Function.update d.now name file, Function.update d.before name (d.now name :: d.before name)⟩

def create (d : Disk ν) (name : ν) : Disk ν := d.enter name (some ⟨[], false⟩)

/-- Change the file under a name, if there is one. -/
def change (d : Disk ν) (name : ν) (f : File → File) : Disk ν :=
  { d with now := Function.update d.now name ((d.now name).map f) }

def write (d : Disk ν) (name : ν) (bytes : List UInt8) : Disk ν :=
  d.change name fun _ => ⟨bytes, false⟩

def sync (d : Disk ν) (name : ν) : Disk ν := d.change name fun file => ⟨file.bytes, true⟩

def rename (d : Disk ν) (source target : ν) : Disk ν :=
  (d.enter target (d.now source)).enter source none

end Changes

def empty : Disk ν := ⟨fun _ => none, fun _ => []⟩

def syncDir (d : Disk ν) : Disk ν := ⟨d.now, fun _ => []⟩

/-- What may be under a name after a loss of power. -/
def versions (d : Disk ν) (name : ν) : List (Option File) := d.now name :: d.before name

end Disk

/-- What a loss of power leaves of an entry. -/
inductive Survives : Option File → Option File → Prop
  | none : Survives none none
  | synced (bytes : List UInt8) : Survives (some ⟨bytes, true⟩) (some ⟨bytes, true⟩)
  | torn (bytes bytes' : List UInt8) : Survives (some ⟨bytes, false⟩) (some ⟨bytes', true⟩)

/-- What a loss of power may leave of a directory. -/
def Lost (d d' : Disk ν) : Prop :=
  ∀ name, d'.before name = [] ∧ ∃ entry ∈ d.versions name, Survives entry (d'.now name)

/-- A loss of power that leaves everything as it is. -/
def Disk.settled (d : Disk ν) : Disk ν :=
  ⟨fun name => (d.now name).map fun file => ⟨file.bytes, true⟩, fun _ => []⟩

theorem lost_settled (d : Disk ν) : Lost d d.settled := by
  intro name
  refine ⟨rfl, d.now name, List.mem_cons_self, ?_⟩
  show Survives (d.now name) ((d.now name).map _)
  cases d.now name with
  | none => exact .none
  | some file =>
    obtain ⟨bytes, synced⟩ := file
    cases synced with
    | true => exact .synced bytes
    | false => exact .torn bytes bytes

/-- A loss of power that leaves something else in a file that is not synced. -/
theorem lost_torn [DecidableEq ν] {d : Disk ν} {name : ν} {bytes : List UInt8}
    (h : d.now name = some ⟨bytes, false⟩) (bytes' : List UInt8) :
    Lost d ⟨Function.update d.settled.now name (some ⟨bytes', true⟩), fun _ => []⟩ := by
  intro name'
  by_cases heq : name' = name
  · subst heq
    refine ⟨rfl, some ⟨bytes, false⟩, ?_, ?_⟩
    · rw [← h]
      exact List.mem_cons_self
    · dsimp only
      rw [Function.update_self]
      exact .torn bytes bytes'
  · dsimp only
    rw [Function.update_of_ne heq]
    exact lost_settled d name'

variable {P : List UInt8 → Prop} {d d' : Disk ν} {name other : ν}

/-- An entry that is a synced file with a property. -/
def Holds (P : List UInt8 → Prop) (entry : Option File) : Prop :=
  ∃ bytes, entry = some ⟨bytes, true⟩ ∧ P bytes

/-- Whatever is under the name, now or after a loss of power, is synced. -/
def Clean (P : List UInt8 → Prop) (d : Disk ν) (name : ν) : Prop :=
  ∀ entry ∈ d.versions name, entry = none ∨ Holds P entry

/-- Something is under the name, now and after a loss of power. -/
def Firm (P : List UInt8 → Prop) (d : Disk ν) (name : ν) : Prop :=
  ∀ entry ∈ d.versions name, Holds P entry

theorem Holds.mono {Q : List UInt8 → Prop} (h : ∀ bytes, P bytes → Q bytes) {entry : Option File}
    (hentry : Holds P entry) : Holds Q entry := by
  obtain ⟨bytes, heq, hbytes⟩ := hentry
  exact ⟨bytes, heq, h bytes hbytes⟩

theorem Clean.mono {Q : List UInt8 → Prop} (h : ∀ bytes, P bytes → Q bytes)
    (hclean : Clean P d name) : Clean Q d name :=
  fun entry he => (hclean entry he).imp_right (Holds.mono h)

theorem Firm.mono {Q : List UInt8 → Prop} (h : ∀ bytes, P bytes → Q bytes)
    (hfirm : Firm P d name) : Firm Q d name := fun entry he => (hfirm entry he).mono h

theorem clean_empty : Clean P (Disk.empty : Disk ν) name := by
  intro entry he
  rw [List.mem_singleton.mp he]
  exact Or.inl rfl

/-- What is under the name is firm or not there yet. -/
theorem Clean.holds_of_isSome (h : Clean P d name) (hsome : d.now name ≠ none) :
    Holds P (d.now name) :=
  (h _ List.mem_cons_self).resolve_left hsome

theorem Firm.holds (h : Firm P d name) : Holds P (d.now name) := h _ List.mem_cons_self

/-! ### Changes -/

section Changes
variable [DecidableEq ν]

theorem versions_enter_of_ne (h : name ≠ other) (file : Option File) :
    (d.enter other file).versions name = d.versions name := by
  simp only [Disk.versions, Disk.enter, Function.update_of_ne h]

theorem versions_change_of_ne (h : name ≠ other) (f : File → File) :
    (d.change other f).versions name = d.versions name := by
  simp only [Disk.versions, Disk.change, Function.update_of_ne h]

theorem now_enter (file : Option File) : (d.enter name file).now name = file :=
  Function.update_self _ _ _

theorem now_change (f : File → File) : (d.change name f).now name = (d.now name).map f :=
  Function.update_self _ _ _

theorem now_enter_of_ne (h : name ≠ other) (file : Option File) :
    (d.enter other file).now name = d.now name := Function.update_of_ne h _ _

theorem now_change_of_ne (h : name ≠ other) (f : File → File) :
    (d.change other f).now name = d.now name := Function.update_of_ne h _ _

theorem mem_versions_enter {file entry : Option File} :
    entry ∈ (d.enter name file).versions name ↔ entry = file ∨ entry ∈ d.versions name := by
  simp only [Disk.versions, Disk.enter, Function.update_self, List.mem_cons]

theorem mem_versions_rename {source target : ν} (hne : target ≠ source) {entry : Option File} :
    entry ∈ (d.rename source target).versions target ↔
      entry = d.now source ∨ entry ∈ d.versions target := by
  rw [Disk.rename, versions_enter_of_ne hne, mem_versions_enter]

/-- **A synced file may be put in the place of another.** -/
theorem clean_rename {source target : ν} (hne : target ≠ source) (h : Clean P d target)
    (hsource : Holds P (d.now source)) : Clean P (d.rename source target) target := by
  intro entry he
  rcases (mem_versions_rename hne).mp he with rfl | he
  · exact Or.inr hsource
  · exact h entry he

theorem firm_rename {source target : ν} (hne : target ≠ source) (h : Firm P d target)
    (hsource : Holds P (d.now source)) : Firm P (d.rename source target) target := by
  intro entry he
  rcases (mem_versions_rename hne).mp he with rfl | he
  · exact hsource
  · exact h entry he

theorem now_rename {source target : ν} (hne : target ≠ source) :
    (d.rename source target).now target = d.now source := by
  simp only [Disk.rename, Disk.enter, Function.update_of_ne hne, Function.update_self]

end Changes

/-! ### Syncing the directory -/

theorem versions_syncDir : d.syncDir.versions name = [d.now name] := rfl

theorem Clean.syncDir (h : Clean P d name) : Clean P d.syncDir name := by
  intro entry he
  rw [versions_syncDir, List.mem_singleton] at he
  rw [he]
  exact h _ List.mem_cons_self

theorem Firm.syncDir (h : Firm P d name) : Firm P d.syncDir name := by
  intro entry he
  rw [versions_syncDir, List.mem_singleton] at he
  rw [he]
  exact h.holds

/-- **A file is there for good** once its directory is synced. -/
theorem firm_syncDir (h : Clean P d name) (hsome : d.now name ≠ none) : Firm P d.syncDir name := by
  intro entry he
  rw [versions_syncDir, List.mem_singleton] at he
  rw [he]
  exact h.holds_of_isSome hsome

/-! ### Losing power -/

theorem holds_of_survives {entry entry' : Option File} (h : Survives entry entry')
    (hentry : Holds P entry) : Holds P entry' := by
  obtain ⟨bytes, heq, hbytes⟩ := hentry
  cases h with
  | none => cases heq
  | synced =>
    cases heq
    exact ⟨_, rfl, hbytes⟩
  | torn => cases heq

theorem eq_none_of_survives {entry : Option File} (h : Survives none entry) : entry = none := by
  cases h
  rfl

theorem Clean.lost (h : Clean P d name) (hlost : Lost d d') : Clean P d' name := by
  obtain ⟨hbefore, entry, hentry, hsurvives⟩ := hlost name
  intro entry' he
  rw [Disk.versions, hbefore, List.mem_singleton] at he
  rw [he]
  rcases h entry hentry with rfl | hholds
  · exact Or.inl (eq_none_of_survives hsurvives)
  · exact Or.inr (holds_of_survives hsurvives hholds)

/-- **What is firm outlasts a loss of power.** -/
theorem Firm.lost (h : Firm P d name) (hlost : Lost d d') : Firm P d' name := by
  obtain ⟨hbefore, entry, hentry, hsurvives⟩ := hlost name
  intro entry' he
  rw [Disk.versions, hbefore, List.mem_singleton] at he
  rw [he]
  exact holds_of_survives hsurvives (h entry hentry)

end Durable

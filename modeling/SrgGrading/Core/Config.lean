import Mathlib.Algebra.Group.Int.Defs
import Mathlib.Algebra.GroupWithZero.Nat
import Mathlib.Data.Int.Order.Basic
import SrgGrading.Core.Integrity

/-!
# Assignments, resources and cache seeds

The configuration an exercise revision is made of, with the limits each part is
checked against.
-/

open Fallible

namespace Grading

/-- Nanoseconds since 1970-01-01T00:00:00Z. -/
abbrev Time := Int

instance : LinearOrder Time := Int.instLinearOrder

instance : Preorder Time := Int.instLinearOrder.toPreorder

def nanosPerSecond : Int := 1000000000

/-- `DateTime<Utc>`: seconds since 1970-01-01T00:00:00Z, and nanoseconds.  In a leap
second, which comes after the last second of a minute, there are more than those of
one second. -/
structure DateTime where
  second : Int
  nanos : Nat
  bounded : nanos < 2000000000
  leap : 1000000000 ≤ nanos → second % 60 = 59
  deriving DecidableEq

namespace DateTime

instance : LT DateTime := ⟨fun a b => a.second < b.second ∨ a.second = b.second ∧ a.nanos < b.nanos⟩

theorem lt_iff {a b : DateTime} :
    a < b ↔ a.second < b.second ∨ a.second = b.second ∧ a.nanos < b.nanos := Iff.rfl

instance (a b : DateTime) : Decidable (a < b) := decidable_of_iff _ lt_iff.symm

/-- The date of its parts, if there is one. -/
def ofParts (second : Int) (nanos : Nat) : Option DateTime :=
  if h : nanos < 2000000000 ∧ (1000000000 ≤ nanos → second % 60 = 59) then
    some ⟨second, nanos, h.1, h.2⟩
  else none

/-- What is between 1970-01-01T00:00:00Z and a date; a leap second takes no time. -/
def instant (d : DateTime) : Time := d.second * nanosPerSecond + d.nanos

/-- The date of an instant, which is in no leap second. -/
def ofInstant (t : Time) : DateTime where
  second := t / nanosPerSecond
  nanos := (t % nanosPerSecond).toNat
  bounded := by
    rw [nanosPerSecond]
    omega
  leap := by
    rw [nanosPerSecond]
    omega

end DateTime

structure Resources where
  cpu : Nat
  memoryGib : Nat
  storageGib : Nat
  deriving DecidableEq

structure ScorePolicy where
  source : String
  selection : String
  deriving DecidableEq

structure Assignment where
  title : String
  opensAt : DateTime
  deadline : DateTime
  branch : String
  template : String
  templateRevision : String
  image : String
  integrityManifest : String
  publicTests : String
  executionProfile : String
  maxPoints : Int
  timeoutSeconds : Nat
  resources : Resources
  score : ScorePolicy
  deriving DecidableEq

/-! ### Names -/

def identifier (value : String) : Bool :=
  value ≠ "" && Text.len value ≤ 80 &&
    value.toList.all fun c => Text.isAsciiAlphanumeric c || c = '-' || c = '_'

def githubRepository (value : String) : Bool :=
  match Text.splitOnce value "/" with
  | none => false
  | some (owner, name) =>
    identifier owner && name ≠ "" && Text.len name ≤ 100 && name ≠ "." && name ≠ ".." &&
      name.toList.all fun c => Text.isAsciiAlphanumeric c || c = '-' || c = '_' || c = '.'

def validateImage (value : String) : Except Error Unit := do
  let (name, hash) ← fetchOne (.message "image must be digest-pinned")
    (Text.splitOnce value "@sha256:")
  check (name ≠ "" && ((Text.split name '/').all fun part => part ≠ "" && part ≠ "." && part ≠ "..")
    && Text.len name < 240
    && (name.toList.all fun c =>
      Text.isAsciiAlphanumeric c || c = '.' || c = '/' || c = ':' || c = '_' || c = '-')
    && Text.validHex hash 64) "invalid image digest"

/-- `protocol::validate_command`. -/
def validateCommand (command : List String) : Except Error Unit :=
  check (command ≠ [] && command.length ≤ 256
    && (match command with | [] => false | program :: _ => Text.startsWith program "/")
    && command.all fun s => Text.len s ≤ 65536 && !Text.contains s '\x00')
    "invalid execution command"

/-! ### Resources and assignments -/

namespace Resources

def validate (r : Resources) : Except Error Unit :=
  check ((1 ≤ r.cpu && r.cpu ≤ 64) && (1 ≤ r.memoryGib && r.memoryGib ≤ 256)
    && (1 ≤ r.storageGib && r.storageGib ≤ 512)) "resources outside platform caps"

def fits (r caps : Resources) : Bool :=
  r.cpu ≤ caps.cpu && r.memoryGib ≤ caps.memoryGib && r.storageGib ≤ caps.storageGib

end Resources

def Assignment.validate (a : Assignment) : Except Error Unit := do
  check (a.opensAt < a.deadline) "opening must precede deadline"
  check (a.title ≠ "" && Text.len a.title ≤ 200) "invalid title"
  check (identifier a.branch) "prototype requires a simple branch name"
  check (githubRepository a.template) "invalid template repository"
  check (Text.validHex a.templateRevision 40) "template must use a full lowercase commit SHA"
  validateImage a.image
  check (a.executionProfile = "registered-v1") "invalid execution profile"
  safePath a.integrityManifest
  safePath a.publicTests
  check (0 < a.maxPoints && a.maxPoints ≤ 100000) "invalid maximum points"
  check (1 ≤ a.timeoutSeconds && a.timeoutSeconds ≤ 86400) "timeout exceeds platform limit"
  a.resources.validate
  check (a.score.source = "public-tests" && a.score.selection = "latest-eligible-submission")
    "unsupported score policy"

/-! ### Cache seeds -/

inductive CacheMode
  | readOnly
  | privateCopy
  deriving DecidableEq

/-- `caching::Artifact`. -/
structure CacheArtifact where
  name : String
  path : String
  mountPath : String
  mode : CacheMode
  maxSizeGib : Nat
  deriving DecidableEq

structure Caching where
  version : Nat
  recipeDir : String
  command : List String
  timeoutSeconds : Nat
  resources : Resources
  architecture : String
  artifacts : List CacheArtifact
  deriving DecidableEq

structure Seed where
  config : Caching
  inputKey : String
  digest : String
  namespaceName : String
  sourcePvc : String
  deriving DecidableEq

namespace Caching

/-- One turn of the loop of `validate`: `a` is the artifact at index `i`. -/
def validateArtifact (c : Caching) (i : Nat) (a : CacheArtifact) : Except Error Unit := do
  check (a.name ≠ "" && Text.len a.name ≤ 40
    && a.name.toList.all fun ch => Text.isAsciiLowercase ch || Text.isAsciiDigit ch || ch = '-')
    "invalid cache artifact name"
  safePath a.path
  let leaf := (Text.stripStart a.mountPath "/cache/").getD ""
  check (leaf ≠ "" && Text.len leaf ≤ 64
    && leaf.toList.all fun ch => Text.isAsciiAlphanumeric ch || ch = '_' || ch = '-')
    "cache mounts must be /cache/<name>"
  let before := c.artifacts.take i
  check (!(before.any fun b => b.name = a.name) && !before.any fun b => b.mountPath = a.mountPath)
    "duplicate cache artifact or mount"
  check (1 ≤ a.maxSizeGib && a.maxSizeGib ≤ 512) "cache size must be 1..512 GiB"
  each (fun other => check (a.path ≠ other.path && !Text.startsWith a.path (other.path ++ "/"))
    "overlapping cache output paths") (c.artifacts.eraseIdx i)

def validate (c : Caching) : Except Error Unit := do
  check (0 < c.version) "cache version must be positive"
  safePath c.recipeDir
  validateCommand c.command
  check (1 ≤ c.timeoutSeconds && c.timeoutSeconds ≤ 86400) "cache timeout must be 1..86400 seconds"
  c.resources.validate
  check (["amd64", "arm64"].contains c.architecture) "unsupported cache architecture"
  check (c.artifacts ≠ [] && c.artifacts.length ≤ 16) "cache requires 1..16 artifacts"
  each (fun (a, i) => c.validateArtifact i a) c.artifacts.zipIdx
  check ((c.artifacts.map CacheArtifact.maxSizeGib).sum ≤ c.resources.storageGib)
    "cache exports exceed preparation storage budget"

end Caching

def Seed.validate (s : Seed) : Except Error Unit := do
  s.config.validate
  check (Text.validHex s.inputKey 64 && Text.validHex s.digest 64) "invalid cache digest"
  check (identifier s.namespaceName && identifier s.sourcePvc) "invalid cache location"

end Grading

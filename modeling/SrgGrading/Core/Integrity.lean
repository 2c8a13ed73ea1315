import SrgGrading.Library.OrderedMap
import SrgGrading.Core.Security

/-!
# Snapshots, manifests and the integrity check

A snapshot is a tree of Git blobs, a manifest the protected part of the
template it was generated from.  `Manifest.check` compares a submitted
snapshot with the manifest.
-/

open Fallible

namespace Grading

def maxSnapshotBytes : Nat := 64 * 1024 * 1024
def maxFileBytes : Nat := 8 * 1024 * 1024
def maxFiles : Nat := 10000

structure Blob where
  mode : String
  data : String
  deriving DecidableEq

structure Snapshot where
  sha : String
  files : OrderedMap String Blob
  deriving DecidableEq

structure ProtectedFile where
  mode : String
  sha256 : String
  deriving DecidableEq

structure Manifest where
  schemaVersion : Nat
  templateRevision : String
  editable : List String
  files : OrderedMap String ProtectedFile
  deriving DecidableEq

structure Finding where
  path : String
  reason : String
  deriving DecidableEq

/-! ### Paths -/

def safePath (path : String) : Except Error Unit := do
  check (path ≠ "" && Text.len path ≤ 1024
    && !(Text.contains path '\\' || Text.contains path '\x00' || Text.contains path ':')
    && !path.toList.any Text.isControl) "unsafe path"
  check ((Text.split path '/').all fun p =>
    p ≠ "" && p ≠ "." && p ≠ ".." && !Text.eqIgnoreAsciiCase p ".git") "unsafe path"

/-! ### Blobs -/

/-- The value of a character of the standard base64 alphabet. -/
def sextet (c : Char) : Option Nat :=
  if Text.isAsciiUppercase c then some (c.toNat - 0x41)
  else if Text.isAsciiLowercase c then some (c.toNat - 0x61 + 26)
  else if Text.isAsciiDigit c then some (c.toNat - 0x30 + 52)
  else if c = '+' then some 62
  else if c = '/' then some 63
  else none

/-- `STANDARD.decode`: canonical padding, no stray bits before it. -/
def decodeBase64 : List Char → Option (List UInt8)
  | [] => some []
  | [a, b, '=', '='] => do
    let x ← sextet a
    let y ← sextet b
    if y % 16 = 0 then some [UInt8.ofNat (x * 4 + y / 16)] else none
  | [a, b, c, '='] => do
    let x ← sextet a
    let y ← sextet b
    let z ← sextet c
    if z % 4 = 0 then
      some [UInt8.ofNat (x * 4 + y / 16), UInt8.ofNat (y % 16 * 16 + z / 4)]
    else none
  | a :: b :: c :: d :: rest => do
    let x ← sextet a
    let y ← sextet b
    let z ← sextet c
    let w ← sextet d
    let bytes ← decodeBase64 rest
    some (UInt8.ofNat (x * 4 + y / 16) :: UInt8.ofNat (y % 16 * 16 + z / 4)
      :: UInt8.ofNat (z % 4 * 64 + w) :: bytes)
  | _ => none

def Blob.bytes (blob : Blob) : Except Error (List UInt8) := do
  check (Text.len blob.data ≤ (maxFileBytes + 2) / 3 * 4) "file exceeds size limit"
  let data ← fetchOne .base64 (decodeBase64 blob.data.toList)
  check (data.length ≤ maxFileBytes) "file exceeds size limit"
  return data

/-! ### Snapshots -/

/-- A regular file, with or without the executable bit. -/
def regularMode (mode : String) : Bool := mode = "100644" || mode = "100755"

def gitMode (mode : String) : Bool :=
  mode = "100644" || mode = "100755" || mode = "120000" || mode = "160000"

namespace Snapshot

/-- The loop of `validate_structure`: `size` bytes were counted so far. -/
def validateFiles (files : OrderedMap String Blob) :
    Nat → List (String × Blob) → Except Error Unit
  | _, [] => return
  | size, (path, blob) :: rest => do
    safePath path
    check (gitMode blob.mode) ("unsupported Git mode: " ++ path)
    let bytes ← blob.bytes
    check (size + bytes.length ≤ maxSnapshotBytes) "snapshot exceeds size limit"
    each (fun parent => check (!files.contains parent) "file/directory collision")
      (Text.parents path)
    validateFiles files (size + bytes.length) rest

def validateStructure (snapshot : Snapshot) : Except Error Unit := do
  check (Text.validHex snapshot.sha 40) "invalid snapshot SHA"
  check (snapshot.files.size ≤ maxFiles) "too many source files"
  validateFiles snapshot.files 0 snapshot.files.entries

def validate (snapshot : Snapshot) : Except Error Unit := do
  snapshot.validateStructure
  each (fun (path, blob) => check (regularMode blob.mode)
    ("symlinks and submodules are unsupported: " ++ path)) snapshot.files.entries

end Snapshot

/-! ### Manifests -/

/-- Whether a path lies in one of the editable areas. -/
def editablePath (editable : List String) (path : String) : Bool :=
  editable.any fun area => Text.startsWith path area

namespace Manifest

def isEditable (manifest : Manifest) (path : String) : Bool :=
  editablePath manifest.editable path

def validateArea (area : String) : Except Error Unit := do
  check (Text.endsWith area '/') "editable areas must be directory prefixes"
  safePath (Text.trimEndMatches area '/')
  check (!Text.startsWith area ".github/" && !Text.startsWith area "tests/")
    "workflow and test trees cannot be editable"

def validateFile (manifest : Manifest) : String × ProtectedFile → Except Error Unit
  | (path, file) => do
    safePath path
    check (!manifest.isEditable path && Text.validHex file.sha256 64) "invalid protected file"
    check (regularMode file.mode) "invalid protected mode"

def validate (manifest : Manifest) : Except Error Unit := do
  check (manifest.schemaVersion = 1 && Text.validHex manifest.templateRevision 40)
    "invalid manifest version or revision"
  each validateArea manifest.editable
  each manifest.validateFile manifest.files.entries

variable [Sha256]

/-- The loop of `generate`: protect every file outside the editable areas. -/
def protectFiles (editable : List String) : List (String × Blob) →
    OrderedMap String ProtectedFile → Except Error (OrderedMap String ProtectedFile)
  | [], files => return files
  | (path, blob) :: rest, files =>
    if editablePath editable path then protectFiles editable rest files
    else do
      let bytes ← blob.bytes
      protectFiles editable rest (files.insert path ⟨blob.mode, digest bytes⟩)

def generate (snapshot : Snapshot) (editable : List String) : Except Error Manifest := do
  snapshot.validate
  let manifest : Manifest := ⟨1, snapshot.sha, editable, .empty⟩
  manifest.validate
  let files ← protectFiles editable snapshot.files.entries .empty
  return { manifest with files := files }

/-- What changed about a protected file. -/
def changed (expected : ProtectedFile) : Option Blob → Except Error (Option String)
  | none => return some "deleted"
  | some blob =>
    if blob.mode ≠ expected.mode then return some "mode changed"
    else do
      let bytes ← blob.bytes
      return if digest bytes ≠ expected.sha256 then some "content changed" else none

/-- The first loop of `check`: deleted and changed protected files. -/
def changes (snapshot : Snapshot) : List (String × ProtectedFile) → Except Error (List Finding)
  | [] => return []
  | (path, expected) :: rest => do
    let reason ← changed expected (snapshot.files.get? path)
    let later ← changes snapshot rest
    return (reason.map fun reason => ⟨path, reason⟩).toList ++ later

/-- What is wrong with a file of the snapshot by itself. -/
def unexpected (manifest : Manifest) (path : String) (blob : Blob) : Option String :=
  if !manifest.files.contains path && !manifest.isEditable path then some "unapproved addition"
  else if manifest.isEditable path && !regularMode blob.mode then
    some "unsupported symlink or submodule"
  else none

/-- The second loop of `check`: additions, and symlinks in editable areas. -/
def additions (manifest : Manifest) (snapshot : Snapshot) : List Finding :=
  snapshot.files.entries.filterMap fun (path, blob) =>
    (manifest.unexpected path blob).map fun reason => ⟨path, reason⟩

def check (manifest : Manifest) (snapshot : Snapshot) : Except Error (List Finding) := do
  manifest.validate
  snapshot.validateStructure
  let found ← changes snapshot manifest.files.entries
  return found ++ manifest.additions snapshot

end Manifest

end Grading

import SrgGrading.Store.Submissions

/-!
# Retained files

The files under the artifact root, each under the digest of its bytes.
`Submissions.put` is the row of the database, `Artifacts.write` the file.

* `get_write`: what was written is read again.
-/

open Fallible

namespace Grading

/-- The files under the artifact root, by name. -/
abbrev Artifacts := String → Option (List UInt8)

namespace Artifacts

variable [Sha256]

/-- The file `Artifacts::put` publishes. -/
def write (files : Artifacts) (bytes : List UInt8) : Except Error (Artifacts × String) := do
  check (bytes.length ≤ maxSnapshotBytes * 2) "artifact exceeds limit"
  let hash := digest bytes
  return (fun name => if name = hash then some bytes else files name, hash)

/-- `Artifacts::get`. -/
def get (files : Artifacts) (hash : String) : Except Error (List UInt8) := do
  check (Text.validHex hash 64) "invalid artifact digest"
  let bytes ← fetchOne (.message "No such file or directory (os error 2)") (files hash)
  check (bytes.length ≤ maxSnapshotBytes * 2) "artifact exceeds limit"
  check (digest bytes = hash) "artifact digest mismatch"
  return bytes

theorem get_ok {files : Artifacts} {hash : String} {bytes : List UInt8} :
    files.get hash = .ok bytes ↔ files hash = some bytes ∧
      bytes.length ≤ maxSnapshotBytes * 2 ∧ digest bytes = hash := by
  simp only [get, bind_ok, check_ok, fetchOne_ok, pure_ok, decide_eq_true_eq]
  constructor
  · rintro ⟨_, _, b, hb, _, hlen, _, hdigest, rfl⟩
    exact ⟨hb, hlen, hdigest⟩
  · rintro ⟨hb, hlen, rfl⟩
    exact ⟨(), validHex_digest bytes, bytes, hb, (), hlen, (), rfl, rfl⟩

theorem write_ok {files files' : Artifacts} {bytes : List UInt8} {hash : String} :
    files.write bytes = .ok (files', hash) ↔ bytes.length ≤ maxSnapshotBytes * 2 ∧
      files' = (fun name => if name = digest bytes then some bytes else files name) ∧
      hash = digest bytes := by
  simp only [write, bind_ok, check_ok, pure_ok, Prod.mk.injEq, decide_eq_true_eq]
  constructor
  · rintro ⟨_, hlen, rfl, rfl⟩
    exact ⟨hlen, rfl, rfl⟩
  · rintro ⟨hlen, rfl, rfl⟩
    exact ⟨(), hlen, rfl, rfl⟩

/-- **What was written is read again.** -/
theorem get_write {files files' : Artifacts} {bytes : List UInt8} {hash : String}
    (h : files.write bytes = .ok (files', hash)) : files'.get hash = .ok bytes := by
  obtain ⟨hlen, rfl, rfl⟩ := write_ok.mp h
  exact get_ok.mpr ⟨if_pos rfl, hlen, rfl⟩

end Artifacts

end Grading

import SrgGrading.Core.Protocol

/-!
# Approved leases

What an executor checks of a lease before it works on it: that the revision is
the one that was leased, that its image is one of the shared runners, and that
it asks for no more than the worker has.
-/

open Fallible

namespace Grading

namespace Executor

structure Registry where
  imagePrefix : String
  runnerImages : List String
  resources : Resources
  timeoutSeconds : Nat

/-- `executor::Config`, without its files and the address of the server. -/
structure Config where
  namespaceName : String
  runtimeClass : String
  sourcePvc : String
  registry : Option Registry

/-- What the names of the images of a registry start with. -/
def Registry.start (registry : Registry) : String :=
  Text.trimEndMatches registry.imagePrefix '/' ++ "/"

/-- A character of the name of a registry. -/
def registryChar (c : Char) : Bool :=
  Text.isAsciiLowercase c || Text.isAsciiDigit c || "./:_-".toList.contains c

variable [Sha256]

/-- `Config::approve`, at a time. -/
def Config.approve (config : Config) (now : Time) (lease : Lease) : Except Error Unit := do
  check (lease.schemaVersion = 1 && lease.revision.digest = lease.revisionDigest)
    "lease revision mismatch"
  lease.revision.validate
  match lease.baseline with
  | some baseline => check (baseline.deadline < now) "private grading is not open yet"
  | none => pure ()
  check (identifier config.namespaceName && identifier config.runtimeClass
    && identifier config.sourcePvc) "invalid cluster configuration"
  check (config.runtimeClass = "gvisor") "prototype requires a gvisor RuntimeClass"
  match lease.revision.grader.bind Grader.caching with
  | some seed => do
    seed.validate
    check (seed.namespaceName = config.namespaceName && seed.sourcePvc = config.sourcePvc)
      "cache is on a different staging volume"
  | none => pure ()
  let registry ← fetchOne (.message "registered exercises are disabled") config.registry
  registry.resources.validate
  check (2 < Text.len registry.start && Text.contains registry.imagePrefix '/'
    && registry.imagePrefix.toList.all registryChar) "invalid registry prefix"
  let grader ← fetchOne (.message "missing grader provenance") lease.revision.grader
  check (Text.startsWith lease.revision.assignment.image registry.start
    && Text.startsWith grader.image registry.start) "image outside approved registry namespace"
  check (registry.runnerImages.contains lease.revision.assignment.image)
    "shared runner digest is not approved"
  check (lease.revision.assignment.resources.fits registry.resources
    && lease.revision.assignment.timeoutSeconds ≤ registry.timeoutSeconds)
    "exercise exceeds worker caps"

/-- **An approved lease** is of the revision it carries, which is valid. -/
theorem Config.approve_ok {config : Config} {now : Time} {lease : Lease}
    (h : config.approve now lease = .ok ()) :
    lease.revision.digest = lease.revisionDigest ∧ lease.revision.validate = .ok () := by
  unfold Config.approve at h
  simp only [bind_ok, check_ok, Bool.and_eq_true, decide_eq_true_eq] at h
  obtain ⟨_, ⟨_, hdigest⟩, _, hvalid, _⟩ := h
  exact ⟨hdigest, hvalid⟩

end Executor

end Grading

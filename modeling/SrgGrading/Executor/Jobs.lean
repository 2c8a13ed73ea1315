import SrgGrading.Executor.Approval
import SrgGrading.Executor.Channel

/-!
# The jobs of the executor

A grading script, each command it asks for and the recipe of a cache run in jobs
of their own.  All of them start from the sandbox of a submission, which is made
from an approved lease, and change some of its fields.

* `executionJob_ok`, `controllerJob_ok`, `preparationJob_ok`: what a job is made
  of, once the lease is approved.
-/

open Fallible

namespace Grading

/-- `Uuid::simple`. -/
def Uuid.simple (id : Uuid) : String := String.ofList (Text.hex 32 id.val)

namespace Executor

/-! ### Kubernetes objects -/

structure VolumeMount where
  name : String
  mountPath : String
  subPath : Option String
  readOnly : Bool
  deriving DecidableEq

inductive VolumeSource
  | persistentVolumeClaim (claimName : String) (readOnly : Bool)
  | emptyDir (sizeLimit : String)
  deriving DecidableEq

structure Volume where
  name : String
  source : VolumeSource
  deriving DecidableEq

structure EnvVar where
  name : String
  value : String
  deriving DecidableEq

/-- CPU, memory and ephemeral storage. -/
structure Amounts where
  cpu : String
  memory : String
  ephemeralStorage : String
  deriving DecidableEq

structure SecurityContext where
  runAsNonRoot : Bool
  runAsUser : Nat
  runAsGroup : Nat
  fsGroup : Nat
  seccompProfile : String
  deriving DecidableEq

structure Container where
  name : String
  image : String
  imagePullPolicy : String
  command : List String
  workingDir : Option String
  env : List EnvVar
  allowPrivilegeEscalation : Bool
  readOnlyRootFilesystem : Bool
  drop : List String
  requests : Amounts
  limits : Amounts
  volumeMounts : List VolumeMount
  deriving DecidableEq

/-- The pod of a job, with its one container. -/
structure PodSpec where
  restartPolicy : String
  automountServiceAccountToken : Bool
  runtimeClassName : String
  enableServiceLinks : Bool
  terminationGracePeriodSeconds : Nat
  securityContext : SecurityContext
  nodeSelector : List (String × String)
  container : Container
  volumes : List Volume
  deriving DecidableEq

structure Job where
  name : String
  namespaceName : String
  labels : List (String × String)
  backoffLimit : Nat
  activeDeadlineSeconds : Nat
  ttlSecondsAfterFinished : Nat
  podLabels : List (String × String)
  pod : PodSpec
  deriving DecidableEq

/-! ### Sandboxes -/

/-- The files of `scripts` that jobs run. -/
structure Scripts where
  captureExecution : String
  copyCache : String

/-- A number of gibibytes. -/
def gi (n : Nat) : String := toString n ++ "Gi"

/-- The amounts a job of these resources asks for. -/
def Resources.amounts (r : Resources) : Amounts := ⟨toString r.cpu, gi r.memoryGib, gi r.storageGib⟩

/-- The directory of a lease on the staging volume. -/
def runPath (lease : Lease) (rest : String) : String :=
  "runs/" ++ lease.leaseToken.simple ++ "/" ++ rest

section Jobs
variable [Sha256] (scripts : Scripts)

/-- The document of `job`. -/
def sandbox (config : Config) (lease : Lease) (name testId : String) (remaining : Nat) : Job :=
  let resources := lease.revision.assignment.resources
  let labels := [("app", "grading-sandbox"), ("grading-lease", lease.leaseToken.simple)]
  { name, namespaceName := config.namespaceName, labels, backoffLimit := 0
    activeDeadlineSeconds := min (max remaining 1) lease.revision.assignment.timeoutSeconds
    ttlSecondsAfterFinished := 300, podLabels := labels
    pod := {
      restartPolicy := "Never", automountServiceAccountToken := false
      runtimeClassName := config.runtimeClass, enableServiceLinks := false
      terminationGracePeriodSeconds := 5
      securityContext := ⟨true, 10003, 10003, 10003, "RuntimeDefault"⟩
      nodeSelector := []
      container := {
        name := "submission", image := lease.revision.assignment.image
        imagePullPolicy := "IfNotPresent"
        command := ["/bin/sh", "-c",
          "cp -R /source/. /workspace/ && cd /workspace && exec \"$@\" < /input/stdin",
          "grading", "/bin/python3", "-c", scripts.captureExecution]
        workingDir := none
        env := [], allowPrivilegeEscalation := false, readOnlyRootFilesystem := true
        drop := ["ALL"], requests := Resources.amounts resources
        limits := Resources.amounts resources
        volumeMounts := [⟨"source", "/source", some (runPath lease "source"), true⟩,
          ⟨"source", "/input", some (runPath lease ("inputs/" ++ testId)), true⟩,
          ⟨"workspace", "/workspace", none, false⟩, ⟨"tmp", "/tmp", none, false⟩] }
      volumes := [⟨"source", .persistentVolumeClaim config.sourcePvc true⟩,
        ⟨"workspace", .emptyDir (gi resources.storageGib)⟩, ⟨"tmp", .emptyDir "1Gi"⟩] } }

/-- `&id[..16]`. -/
def shortId (lease : Lease) : String := String.ofList (lease.leaseToken.simple.toList.take 16)

/-- The name of a job for a test. -/
def jobName (lease : Lease) (testId : String) : String :=
  "grade-" ++ shortId lease ++ "-" ++ String.ofList (testId.toList.map Text.toAsciiLowercase)

def job (config : Config) (now : Time) (lease : Lease) (testId : String) (remaining : Nat) :
    Except Error Job := do
  config.approve now lease
  check (identifier testId) "invalid test ID"
  let name := jobName lease testId
  check (Text.len name ≤ 63 && !Text.contains name '_')
    "test IDs used in jobs must be DNS-compatible"
  return sandbox scripts config lease name testId remaining

/-! ### The script of the grader -/

/-- The pod runs as the user of the grader and may write to the staging volume. -/
def PodSpec.trusted (pod : PodSpec) : PodSpec :=
  { pod with
    securityContext := { pod.securityContext with
      runAsUser := 10004, runAsGroup := 10004, fsGroup := 10004 }
    volumes := match pod.volumes with
      | ⟨name, .persistentVolumeClaim claim _⟩ :: rest =>
        ⟨name, .persistentVolumeClaim claim false⟩ :: rest
      | volumes => volumes }

/-- What `controller_base_job` changes of the sandbox. -/
def withChecker (j : Job) (lease : Lease) (grader : Grader) : Job :=
  { j with
    name := "check-" ++ shortId lease
    pod := { j.pod with container := { j.pod.container with
      image := grader.image
      command := ["/bin/grade"]
      volumeMounts := [⟨"source", "/submission", some (runPath lease "source"), true⟩,
        ⟨"source", "/public", some (runPath lease "public"), true⟩,
        ⟨"tmp", "/tmp", none, false⟩] } } }

/-- The private checker sees immutable source and public outcomes in another pod. -/
def controllerBaseJob (config : Config) (now : Time) (lease : Lease) (remaining : Nat) :
    Except Error Job := do
  config.approve now lease
  let grader ← fetchOne (.message "missing private checker") lease.revision.grader
  let j ← job scripts config now lease "private-check" remaining
  return withChecker j lease grader

/-- The mounts of a grading script. -/
def controllerMounts (lease : Lease) (grader : Grader) : List VolumeMount :=
  [⟨"source", "/submission", some (runPath lease "source"), true⟩,
    ⟨"source", "/grading", some (runPath lease "context"), true⟩,
    ⟨"source", "/platform", some (runPath lease "platform"), true⟩,
    ⟨"source", "/control", some (runPath lease "control"), false⟩,
    ⟨"tmp", "/tmp", none, false⟩] ++
  if grader.sourceDigest.isSome then
    [⟨"source", "/grader", some (runPath lease "grader"), true⟩] else []

/-- What `controller_job` changes of the job of the checker. -/
def withController (j : Job) (lease : Lease) (grader : Grader) (command : List String) : Job :=
  let pod := j.pod.trusted
  { j with pod := { pod with container := { pod.container with
    command := ["/bin/python3", "-c", "import os,sys; os.dup2(os.open('/control/grader.stderr'," ++
      "os.O_WRONLY|os.O_CREAT|os.O_TRUNC,0o600),2); os.execv(sys.argv[1],sys.argv[1:])"] ++ command
    workingDir := if grader.sourceDigest.isSome then some "/grader" else pod.container.workingDir
    requests := ⟨"100m", "128Mi", "128Mi"⟩
    limits := ⟨"1", "512Mi", "1Gi"⟩
    volumeMounts := controllerMounts lease grader } } }

/-- The command of a lease: the private one, if there is a public run before. -/
def workflowCommand (lease : Lease) (workflow : Workflow) : Except Error (List String) :=
  if lease.baseline.isSome then
    fetchOne (.message "missing private command") workflow.privateCommand
  else return workflow.publicCommand

/-- The script of the grader asks for commands; it selects no image and mounts no secret. -/
def controllerJob (config : Config) (now : Time) (lease : Lease) (remaining : Nat) :
    Except Error Job := do
  let workflow ← fetchOne (.message "missing script workflow")
    (lease.revision.grader.bind Grader.workflow)
  let command ← workflowCommand lease workflow
  let j ← controllerBaseJob scripts config now lease remaining
  let grader ← fetchOne (.message "missing private checker") lease.revision.grader
  return withController j lease grader command

/-! ### The commands of a script -/

/-- What `execution_job` changes of the sandbox. -/
def withRequest (j : Job) (lease : Lease) (request : ExecutionRequest) (remaining : Nat) : Job :=
  let timeout := min request.timeoutSeconds (max (remaining - 5) 1)
  { j with
    name := "exec-" ++ request.id.simple
    pod := { j.pod with container := { j.pod.container with
      command := ["/bin/python3", "-c", scripts.captureExecution, "/bin/sh", "-c",
        "cp -R /source/. /workspace/ && cd /workspace && exec \"$@\" < /input/stdin",
        "grading"] ++ request.command
      env := [⟨"GRADING_EXECUTION_TIMEOUT", toString timeout⟩, ⟨"GRADING_SANDBOX_LIMITS", "1"⟩]
      volumeMounts := j.pod.container.volumeMounts.set 1 ⟨"source", "/input",
        some (runPath lease ("requests/" ++ request.id.simple)), true⟩ } } }

namespace CacheMount

/-- A text between single quotes of a shell. -/
def quoted (s : String) : String :=
  String.ofList (s.toList.flatMap fun c => if c.toNat = 39 then "'\\''".toList else [c])

/-- Where an artifact of the cache is mounted from the staging volume. -/
def path (a : CacheArtifact) : String :=
  if a.mode = .privateCopy then "/cache-seeds/" ++ a.name else a.mountPath

/-- The volume of a private copy. -/
def volume (i : Nat) : String := "cache-" ++ toString i

/-- What the loop over the artifacts adds to the mounts. -/
def mounts (seed : Seed) : CacheArtifact × Nat → List VolumeMount
  | (a, i) => ⟨"source", path a, some ("caches/" ++ seed.digest ++ "/" ++ a.name), true⟩ ::
    if a.mode = .privateCopy then [⟨volume i, a.mountPath, none, false⟩] else []

/-- What the loop adds to the volumes. -/
def volumes : CacheArtifact × Nat → List Volume
  | (a, i) => if a.mode = .privateCopy then [⟨volume i, .emptyDir (gi a.maxSizeGib)⟩] else []

/-- What the loop adds to the script. -/
def copies : CacheArtifact × Nat → String
  | (a, _) => if a.mode = .privateCopy then "/bin/python3 -c '" ++ quoted scripts.copyCache ++
      "' " ++ path a ++ " " ++ a.mountPath ++ " && " else ""

end CacheMount

/-- The artifacts of a cache are mounted and copied. -/
def withCache (j : Job) (seed : Seed) : Job :=
  let artifacts := seed.config.artifacts.zipIdx
  let script := (j.pod.container.command[5]?).getD ""
  let copies := String.join (artifacts.map (CacheMount.copies scripts))
  { j with pod := { j.pod with
    nodeSelector := [("kubernetes.io/arch", seed.config.architecture)]
    volumes := j.pod.volumes ++ artifacts.flatMap CacheMount.volumes
    container := { j.pod.container with
      volumeMounts := j.pod.container.volumeMounts ++ artifacts.flatMap (CacheMount.mounts seed)
      command := j.pod.container.command.set 5 (copies ++ script) } } }

/-- The cache of the exercise of a lease. -/
def Lease.seed (lease : Lease) : Option Seed := lease.revision.grader.bind Grader.caching

/-- The job of a command of a grading script. -/
def executionJob (config : Config) (now : Time) (lease : Lease) (request : ExecutionRequest)
    (remaining : Nat) : Except Error Job := do
  request.validate
  let j ← job scripts config now lease "script"
    (min remaining (min (request.timeoutSeconds + 5) (2 ^ 32 - 1)))
  let j := withRequest scripts j lease request remaining
  match Lease.seed lease with
  | some seed => return withCache scripts j seed
  | none => return j

/-! ### The recipe of a cache -/

/-- The directory of a preparation on the staging volume. -/
def buildPath (id : Uuid) (rest : String) : String := "cache-builds/" ++ id.simple ++ "/" ++ rest

/-- The lease the job of a recipe is made from. -/
def preparationLease (revision : Revision) (grader : Grader) (caching : Caching) (id : Uuid)
    (now : Time) : Lease :=
  let revision := { revision with
    grader := some { grader with caching := none }
    assignment := { revision.assignment with
      resources := caching.resources
      timeoutSeconds := caching.timeoutSeconds } }
  { schemaVersion := 1, taskId := id, runId := id, leaseToken := id, expiresAt := now
    sha := revision.assignment.templateRevision, revisionDigest := revision.digest
    sourceDigest := String.ofList (List.replicate 64 '0'), revision, baseline := none }

/-- What `preparation_job` changes of the sandbox. -/
def withRecipe (j : Job) (caching : Caching) (id : Uuid) : Job :=
  let pod := j.pod.trusted
  { j with pod := { pod with
    nodeSelector := [("kubernetes.io/arch", caching.architecture)]
    container := { pod.container with
      command := caching.command
      workingDir := some "/workspace"
      volumeMounts := [⟨"source", "/source", some (buildPath id "source"), true⟩,
        ⟨"source", "/recipe", some (buildPath id "recipe"), true⟩,
        ⟨"source", "/output", some (buildPath id "output"), false⟩,
        ⟨"workspace", "/workspace", none, false⟩, ⟨"tmp", "/tmp", none, false⟩] } } }

/-- It has the images, the isolation and the caps of grading. -/
def preparationJob (config : Config) (now : Time) (revision : Revision) (caching : Caching)
    (id : Uuid) : Except Error Job := do
  caching.validate
  let grader ← fetchOne (.message "missing grader") revision.grader
  let j ← job scripts config now (preparationLease revision grader caching id now) "cache"
    caching.timeoutSeconds
  return withRecipe j caching id

/-! ### What a job is made of -/

variable {scripts} {config : Config} {now : Time} {lease : Lease} {request : ExecutionRequest}
  {remaining : Nat} {j : Job}

omit [Sha256] in
theorem toList_shortId : (shortId lease).toList = (Text.hex 32 lease.leaseToken.val).take 16 := by
  rw [shortId, String.toList_ofList, Uuid.simple, String.toList_ofList]

/-- A character of the names of tests that have a job. -/
def plainChar (c : Char) : Bool := c.utf8Size = 1 && c ≠ '_'

omit [Sha256] in
theorem plainChar_iff {c : Char} : plainChar c = true ↔ c.utf8Size = 1 ∧ c ≠ '_' := by
  rw [plainChar, Bool.and_eq_true, decide_eq_true_eq, decide_eq_true_eq]

omit [Sha256] in
/-- The name of a job is that of a domain, if its test has a short one. -/
theorem jobName_dns {testId : String} (hlen : testId.toList.length ≤ 40)
    (hplain : (testId.toList.map Text.toAsciiLowercase).all plainChar = true) :
    (Text.len (jobName lease testId) ≤ 63 && !Text.contains (jobName lease testId) '_') = true := by
  have hfixed : ("grade-".toList ++ "-".toList).all plainChar = true := by decide
  rw [List.all_eq_true] at hfixed hplain
  have htext : (jobName lease testId).toList = "grade-".toList ++
      (Text.hex 32 lease.leaseToken.val).take 16 ++ "-".toList ++
      testId.toList.map Text.toAsciiLowercase := by
    rw [jobName, String.toList_append, String.toList_append, String.toList_append, toList_shortId,
      @String.toList_ofList (testId.toList.map Text.toAsciiLowercase)]
  have hchars : ∀ c ∈ (jobName lease testId).toList, c.utf8Size = 1 ∧ c ≠ '_' := by
    intro c hc
    rw [htext, List.mem_append, List.mem_append, List.mem_append] at hc
    rcases hc with ((hc | hc) | hc) | hc
    · exact plainChar_iff.mp (hfixed c (List.mem_append_left _ hc))
    · have hhex := Text.isHexDigit_hex 32 _ c (List.mem_of_mem_take hc)
      refine ⟨Text.utf8Size_of_isHexDigit hhex, ?_⟩
      rintro rfl
      exact absurd hhex (by decide)
    · exact plainChar_iff.mp (hfixed c (List.mem_append_right _ hc))
    · exact plainChar_iff.mp (hplain c hc)
  have hbytes : Text.len (jobName lease testId) = (jobName lease testId).toList.length := by
    rw [← Text.len_ofList_of_ascii fun c hc => (hchars c hc).1, String.ofList_toList]
  have hfix : "grade-".toList.length = 6 ∧ "-".toList.length = 1 := by decide
  have hcount : (jobName lease testId).toList.length ≤ 63 := by
    rw [htext, List.length_append, List.length_append, List.length_append, List.length_take,
      Text.length_hex, List.length_map, hfix.1, hfix.2]
    omega
  rw [Bool.and_eq_true, decide_eq_true_eq, hbytes, Bool.not_eq_true', Text.contains,
    List.contains_eq_mem, decide_eq_false_iff_not]
  exact ⟨hcount, fun hc => (hchars _ hc).2 rfl⟩

/-- `job` on a test with a short name. -/
theorem job_ok (testId : String) (hlen : testId.toList.length ≤ 40)
    (hplain : (testId.toList.map Text.toAsciiLowercase).all plainChar = true)
    (hid : identifier testId = true) :
    job scripts config now lease testId remaining = .ok j ↔ config.approve now lease = .ok () ∧
      sandbox scripts config lease (jobName lease testId) testId remaining = j := by
  unfold job
  simp only [bind_ok, check_ok, pure_ok]
  constructor
  · rintro ⟨_, happrove, _, _, _, _, rfl⟩
    exact ⟨happrove, rfl⟩
  · rintro ⟨happrove, rfl⟩
    exact ⟨(), happrove, (), hid, (), jobName_dns hlen hplain, rfl⟩

/-- The job of a request. -/
def studentJob (scripts : Scripts) (config : Config) (lease : Lease) (request : ExecutionRequest)
    (remaining : Nat) : Job :=
  let j := withRequest scripts (sandbox scripts config lease (jobName lease "script") "script"
    (min remaining (min (request.timeoutSeconds + 5) (2 ^ 32 - 1)))) lease request remaining
  match Lease.seed lease with
  | some seed => withCache scripts j seed
  | none => j

/-- **What the job of a request is made of.** -/
theorem executionJob_ok : executionJob scripts config now lease request remaining = .ok j ↔
    request.validate = .ok () ∧ config.approve now lease = .ok () ∧
      studentJob scripts config lease request remaining = j := by
  unfold executionJob studentJob
  simp only [bind_ok, job_ok "script" (by decide) (by decide) (by decide)]
  constructor
  · rintro ⟨_, hrequest, _, ⟨happrove, rfl⟩, hj⟩
    refine ⟨hrequest, happrove, ?_⟩
    cases hseed : Lease.seed lease with
    | some seed =>
      rw [hseed] at hj
      exact pure_ok.mp hj
    | none =>
      rw [hseed] at hj
      exact pure_ok.mp hj
  · rintro ⟨hrequest, happrove, rfl⟩
    refine ⟨(), hrequest, _, ⟨happrove, rfl⟩, ?_⟩
    cases Lease.seed lease with
    | some seed => rfl
    | none => rfl

/-- **What the job of a grading script is made of.** -/
theorem controllerJob_ok : controllerJob scripts config now lease remaining = .ok j ↔
    config.approve now lease = .ok () ∧ ∃ grader workflow command,
      lease.revision.grader = some grader ∧ grader.workflow = some workflow ∧
      workflowCommand lease workflow = .ok command ∧
      withController (withChecker (sandbox scripts config lease (jobName lease "private-check")
        "private-check" remaining) lease grader) lease grader command = j := by
  unfold controllerJob controllerBaseJob
  simp only [bind_ok, pure_ok, fetchOne_ok, Option.bind_eq_some_iff,
    job_ok "private-check" (by decide) (by decide) (by decide)]
  constructor
  · rintro ⟨workflow, ⟨grader, hgrader, hworkflow⟩, command, hcommand, _, ⟨_, happrove, _, hsame, _,
      ⟨_, rfl⟩, rfl⟩, _, hagain, rfl⟩
    rw [hgrader, Option.some_inj] at hsame hagain
    subst hsame hagain
    exact ⟨happrove, _, workflow, command, hgrader, hworkflow, hcommand, rfl⟩
  · rintro ⟨happrove, grader, workflow, command, hgrader, hworkflow, hcommand, rfl⟩
    exact ⟨workflow, ⟨grader, hgrader, hworkflow⟩, command, hcommand, _,
      ⟨(), happrove, grader, hgrader, _, ⟨happrove, rfl⟩, rfl⟩, grader, hgrader, rfl⟩

/-- **What the job of a recipe is made of.** -/
theorem preparationJob_ok {revision : Revision} {caching : Caching} {id : Uuid} :
    preparationJob scripts config now revision caching id = .ok j ↔
      caching.validate = .ok () ∧ ∃ grader, revision.grader = some grader ∧
        config.approve now (preparationLease revision grader caching id now) = .ok () ∧
        withRecipe (sandbox scripts config (preparationLease revision grader caching id now)
          (jobName (preparationLease revision grader caching id now) "cache") "cache"
          caching.timeoutSeconds) caching id = j := by
  unfold preparationJob
  simp only [bind_ok, pure_ok, fetchOne_ok,
    job_ok "cache" (by decide) (by decide) (by decide)]
  constructor
  · rintro ⟨_, hvalid, grader, hgrader, _, ⟨happrove, rfl⟩, rfl⟩
    exact ⟨hvalid, grader, hgrader, happrove, rfl⟩
  · rintro ⟨hvalid, grader, hgrader, happrove, rfl⟩
    exact ⟨(), hvalid, grader, hgrader, _, ⟨happrove, rfl⟩, rfl⟩

end Jobs

end Executor

end Grading

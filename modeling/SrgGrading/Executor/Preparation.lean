import SrgGrading.Library.RelyGuarantee
import SrgGrading.Core.Keys
import SrgGrading.Executor.Caching
import SrgGrading.Executor.Jobs

/-!
# Cache preparation

Preparing a cache runs a recipe in a job of its own and keeps what it exports
under the digest of its manifest.  A reference names the cache of a preparation's
inputs.  Any number of preparations run at a time; each may stop between any two
steps, and what it leaves in its build directory is anybody's guess.

* `Volume`: what the preparations share.
* `prepare`: the program of one of them.
* `service`: what starting, ending and killing one does to the volume.
-/

open Fallible Program

namespace Grading

namespace Caching

/-! ### Preparations -/

/-- The arguments of `prepare`, with the id and the time it draws. -/
structure Preparation where
  revision : Revision
  caching : Caching
  source : Snapshot
  recipe : Snapshot
  id : Uuid
  now : Time

namespace Preparation

/-- What the key of a preparation hashes. -/
def input (p : Preparation) : List UInt8 :=
  p.caching.keyInput p.revision.assignment.image p.source p.recipe

def key [Sha256] (p : Preparation) : Except Error String :=
  p.caching.key p.revision.assignment.image p.source p.recipe

end Preparation

/-! ### Directories -/

def notFound : Error := .message "No such file or directory (os error 2)"

namespace Node

def chmod (mode : Nat) : Node → Node
  | .dir _ mtime entries => .dir mode mtime entries
  | .file _ nlink mtime bytes => .file mode nlink mtime bytes
  | node => node

def has (name : String) : Node → Bool
  | .dir _ _ entries => entries.any fun e => e.1 = name
  | _ => false

def add (name : String) : Node → Node → Node
  | .dir mode mtime entries, child => .dir mode mtime (entries ++ [(name, child)])
  | node, _ => node

def remove (name : String) : Node → Node
  | .dir mode mtime entries => .dir mode mtime (entries.filter fun e => e.1 ≠ name)
  | node => node

def replace (name : String) : Node → Node → Node
  | .dir mode mtime entries, child =>
    .dir mode mtime (entries.map fun e => if e.1 = name then (name, child) else e)
  | node, _ => node

/-- Take the directory at a path out of a tree: the directory, and what is left.
Every component has to be a real directory. -/
def takeOut : List String → Node → Except Error (Node × Node)
  | [], _ => throw notFound
  | [name], node => do
    let child ← node.directory name
    return (child, node.remove name)
  | name :: rest, node => do
    let child ← node.directory name
    let (taken, left) ← child.takeOut rest
    return (taken, node.replace name left)

/-- Whether `rename` may put a directory in this place. -/
def vacant : Option Node → Bool
  | none => true
  | some (.dir _ _ entries) => entries.isEmpty
  | some _ => false

end Node

/-- The build directory of a preparation: what the job writes to, and `sealed`. -/
structure Build where
  output : Node
  exports : Option Node

namespace Build

def createExports (mode : Nat) (time : Time) (b : Build) : Except Error (Unit × Build) := do
  check b.exports.isNone "File exists (os error 17)"
  return ((), { b with exports := some (.dir mode time []) })

/-- A turn of the loop over the artifacts. -/
def moveArtifact (artifact : CacheArtifact) (b : Build) : Except Error (Unit × Build) := do
  let exports ← fetchOne notFound b.exports
  let (taken, output) ← b.output.takeOut (Text.split artifact.path '/')
  check (!exports.has artifact.name) "Directory not empty (os error 39)"
  return ((), ⟨output, some (exports.add artifact.name (taken.chmod 493))⟩)

/-- `manifest` of the exports, which seals them. -/
def sealExports [Sha256] (config : Caching) (key : String) (b : Build) :
    Except Error (List UInt8 × Build) := do
  let exports ← fetchOne notFound b.exports
  let bytes ← manifest exports config key
  return (bytes, { b with exports := some (sealArtifacts config exports) })

end Build

/-! ### The staging volume -/

/-- The staging volume, with `cache-refs` and `caches` in place, and the jobs of
the cluster with their `cache-key`.  `calls` are the preparations so far. -/
structure Volume where
  references : String → Option (List UInt8)
  temps : String × Uuid → Option (List UInt8)
  locks : String → Option Uuid
  caches : String → Option Node
  builds : Uuid → Option Build
  jobs : List (Uuid × String)
  calls : List Preparation

def Volume.empty : Volume := ⟨fun _ => none, fun _ => none, fun _ => none, fun _ => none,
  fun _ => none, [], []⟩

/-- The pods a call waits for. -/
inductive Selector
  | cacheKey (label : String)
  | gradingLease (id : Uuid)

inductive Request : Type → Type
  | tryLock (key : String) (id : Uuid) : Request Bool
  | readReference (key : String) : Request (Option (List UInt8))
  | readCache (name : String) : Request (Option Node)
  | createBuild (id : Uuid) : Request Unit
  | stage (id : Uuid) (name : String) (snapshot : Snapshot) : Request (Except Error Unit)
  | listJobs (label : String) : Request (List Uuid)
  | deleteJob (id : Uuid) : Request Unit
  | podsGone (selector : Selector) : Request Bool
  | createJob (id : Uuid) (label : String) : Request Unit
  | awaitJob (id : Uuid) : Request (Except Error Unit)
  | createExports (id : Uuid) : Request (Except Error Unit)
  | moveArtifact (id : Uuid) (artifact : CacheArtifact) : Request (Except Error Unit)
  | sealExports (id : Uuid) (config : Caching) (key : String) :
    Request (Except Error (List UInt8))
  | cacheExists (name : String) : Request Bool
  | moveExports (id : Uuid) (name : String) : Request (Except Error Unit)
  | chmodCache (name : String) : Request (Except Error Unit)
  | writeTemp (key : String) (id : Uuid) (bytes : List UInt8) : Request Unit
  | moveTemp (key : String) (id : Uuid) : Request (Except Error Unit)

/-- What is not decided by the volume: whether the snapshots could be staged, how
the job ended, whether its pods stopped, what the recipe had written by then, and
the mode and time of new directories. -/
structure Outside where
  staged : Except Error Unit
  outcome : Except Error Unit
  stopped : Bool
  output : Node
  mode : Nat
  time : Time

namespace Volume

/-- A change in a build directory. -/
def inBuild {α : Type} (v : Volume) (id : Uuid) (f : Build → Except Error (α × Build)) :
    Except Error α × Volume :=
  match fetchOne notFound (v.builds id) >>= f with
  | .ok (a, b) => (.ok a, { v with builds := Function.update v.builds id (some b) })
  | .error e => (.error e, v)

def createBuild (v : Volume) (id : Uuid) (time : Time) : Volume :=
  match v.builds id with
  | none => { v with builds := Function.update v.builds id (some ⟨.dir 448 time [], none⟩) }
  | some _ => v

/-- What the recipe wrote counts from when its pods are gone. -/
def settle (v : Volume) (output : Node) : Selector → Volume
  | .cacheKey _ => v
  | .gradingLease id =>
    { v with builds := Function.update v.builds id ((v.builds id).map fun b => { b with output }) }

def tryLock (v : Volume) (key : String) (id : Uuid) : Bool × Volume :=
  match v.locks key with
  | none => (true, { v with locks := Function.update v.locks key (some id) })
  | some _ => (false, v)

def moveExports (v : Volume) (id : Uuid) (name : String) : Except Error Unit × Volume :=
  match v.builds id with
  | some ⟨output, some exports⟩ =>
    if Node.vacant (v.caches name) then
      (.ok (), { v with
        builds := Function.update v.builds id (some ⟨output, none⟩)
        caches := Function.update v.caches name (some exports) })
    else (.error (.message "Directory not empty (os error 39)"), v)
  | _ => (.error notFound, v)

def chmodCache (v : Volume) (name : String) : Except Error Unit × Volume :=
  match v.caches name with
  | some root => (.ok (), { v with caches := Function.update v.caches name (some (root.chmod 365)) })
  | none => (.error notFound, v)

def moveTemp (v : Volume) (key : String) (id : Uuid) : Except Error Unit × Volume :=
  match v.temps (key, id) with
  | some bytes => (.ok (), { v with
      temps := Function.update v.temps (key, id) none
      references := Function.update v.references key (some bytes) })
  | none => (.error notFound, v)

/-- What a request yields and leaves behind. -/
def answer [Sha256] (o : Outside) {β : Type} (r : Request β) (v : Volume) : β × Volume :=
  match r with
  | .tryLock key id => v.tryLock key id
  | .readReference key => (v.references key, v)
  | .readCache name => (v.caches name, v)
  | .createBuild id => ((), v.createBuild id o.time)
  | .stage _ _ _ => (o.staged, v)
  | .listJobs label => ((v.jobs.filter fun j => j.2 = label).map Prod.fst, v)
  | .deleteJob id => ((), { v with jobs := v.jobs.filter fun j => j.1 ≠ id })
  | .podsGone selector => (o.stopped, v.settle o.output selector)
  | .createJob id label => ((), { v with jobs := v.jobs ++ [(id, label)] })
  | .awaitJob id => (if v.jobs.any fun j => j.1 = id then o.outcome else .error notFound, v)
  | .createExports id => v.inBuild id (Build.createExports o.mode o.time)
  | .moveArtifact id artifact => v.inBuild id (Build.moveArtifact artifact)
  | .sealExports id config key => v.inBuild id (Build.sealExports config key)
  | .cacheExists name => ((v.caches name).isSome, v)
  | .moveExports id name => v.moveExports id name
  | .chmodCache name => v.chmodCache name
  | .writeTemp key id bytes =>
    ((), { v with temps := Function.update v.temps (key, id) (some bytes) })
  | .moveTemp key id => v.moveTemp key id

end Volume

/-! ### The preparation -/

section Model
variable [Sha256] (scripts : Executor.Scripts) (config : Executor.Config)
  (decode : List UInt8 → Option Seed)

abbrev Prepare := Program Request Error

/-- `verify`. -/
def verify (seed : Seed) : Prepare Unit := do
  lift seed.validate
  lift (check (seed.namespaceName = config.namespaceName && seed.sourcePvc = config.sourcePvc)
    "cache is on a different staging volume")
  let data ← request (.readCache seed.digest)
  lift do
    let root ← fetchOne notFound data
    let bytes ← manifest root seed.config seed.inputKey
    check (digest bytes = seed.digest) "cache artifact digest mismatch"

/-- `stopped`. -/
def stopped (id : Uuid) (selector : Selector) : Prepare Unit := do
  request (.deleteJob id)
  let gone ← request (.podsGone selector)
  lift (check gone "cache pods did not stop; output remains quarantined")

/-- The part of `prepare` in which the recipe runs. -/
def runRecipe (p : Preparation) (label : String) : Prepare Unit := do
  request (.createBuild p.id)
  ask (.stage p.id "source" p.source)
  ask (.stage p.id "recipe" p.recipe)
  let old ← request (.listJobs label)
  Program.each (fun id => stopped id (.cacheKey label)) old
  request (.createJob p.id label)
  let outcome ← request (.awaitJob p.id)
  stopped p.id (.gradingLease p.id)
  lift outcome

/-- The part of `prepare` in which the exports are captured: their digest. -/
def capture (p : Preparation) (key : String) : Prepare String := do
  ask (.createExports p.id)
  Program.each (fun artifact => ask (.moveArtifact p.id artifact)) p.caching.artifacts
  let bytes ← ask (.sealExports p.id p.caching key)
  return digest bytes

/-- The part of `prepare` in which the exports become a cache. -/
def publish (p : Preparation) (hash : String) : Prepare Unit := do
  let there ← request (.cacheExists hash)
  Program.when (!there) (ask (.moveExports p.id hash))
  ask (.chmodCache hash)

def seedOf (p : Preparation) (key hash : String) : Seed where
  config := p.caching
  inputKey := key
  digest := hash
  namespaceName := config.namespaceName
  sourcePvc := config.sourcePvc

/-- The part of `prepare` in which the cache is referred to. -/
def refer (p : Preparation) (key : String) (seed : Seed) : Prepare Unit := do
  verify config seed
  request (.writeTemp key p.id (toVec seed.toJson))
  ask (.moveTemp key p.id)

/-- `&key[..60]`. -/
def cacheLabel (key : String) : String := String.ofList (key.toList.take 60)

def prepare (p : Preparation) : Prepare Seed := do
  let key ← lift p.key
  let _ ← lift (Executor.preparationJob scripts config p.now p.revision p.caching p.id)
  let locked ← request (.tryLock key p.id)
  lift (check locked
    "cache preparation already running; retry this command when it finishes")
  let reference ← request (.readReference key)
  match reference with
  | some bytes => do
    let seed ← lift (fetchOne .json (decode bytes))
    lift (check (seed.inputKey = key) "cache reference key mismatch")
    verify config seed
    return seed
  | none => do
    runRecipe p (cacheLabel key)
    let hash ← capture p key
    publish p hash
    refer config p key (seedOf config p key hash)
    return seedOf config p key hash

def serve {β : Type} (_ : Preparation) (r : Request β) (v : Volume) (a : β) (v' : Volume) : Prop :=
  ∃ o : Outside, v.answer o r = (a, v')

/-- A call draws an id nobody drew before; one that ends, or is stopped, gives
back its locks.  What it was about to write may be there in part, and the job it
asked for may still come to be. -/
def service : Service Request Error Seed Preparation Volume where
  body := prepare scripts config decode
  serve := serve
  enter p v v' := (∀ q ∈ v.calls, q.id ≠ p.id) ∧ v' = { v with calls := v.calls ++ [p] }
  leave p v v' := ∃ (build : Option Build) (temps : String → Option (List UInt8))
      (late : List String),
    v' = { v with
      locks := fun key => if v.locks key = some p.id then none else v.locks key
      builds := Function.update v.builds p.id build
      temps := fun e => if e.2 = p.id then temps e.1 else v.temps e
      jobs := v.jobs ++ late.map fun label => (p.id, label) }

end Model

end Caching

end Grading

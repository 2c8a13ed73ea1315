import SrgGrading.Core.Keys
import SrgGrading.Core.Snapshots
import SrgGrading.Executor.Agreement
import SrgGrading.Executor.Jobs

/-!
# Jobs are isolated

All jobs share one staging volume and the cluster.  What a job may touch there is
said by its mounts, what it may do by its security contexts.

* `Job.Confined`: the limits every job has, whatever its exercise says.
* `jobs_apart`: what a job may write, no job of another owner mounts.
* `student_jobs_isolated`: what the job of a command depends on, and that it
  writes to nothing that lasts.
-/

open Fallible

namespace Grading

/-! ### Paths that lie apart -/

namespace Text

theorem split_slash (a b : String) : split (a ++ "/" ++ b) '/' = split a '/' ++ split b '/' := by
  have h : (a ++ "/" ++ b).toList = a.toList ++ '/' :: b.toList := by
    rw [String.toList_append, String.toList_append, List.append_assoc]
    rfl
  rw [split_of_append h, String.ofList_toList]

theorem split_plain {s : String} (h : '/' ∉ s.toList) : split s '/' = [s] := by
  rw [split, List.splitOn_eq_singleton h, List.map_singleton, String.ofList_toList]

/-- `q` is `p`, or lies in it. -/
def Covers (p q : String) : Prop := split p '/' <+: split q '/'

end Text

/-- Neither path is the other one, or lies in it. -/
def PathsApart (p q : String) : Prop := ¬Text.Covers p q ∧ ¬Text.Covers q p

instance (p q : String) : Decidable (PathsApart p q) :=
  inferInstanceAs (Decidable (¬Text.split p '/' <+: Text.split q '/' ∧
    ¬Text.split q '/' <+: Text.split p '/'))

theorem not_prefix_of_getElem? {α : Type} {xs ys : List α} {i : Nat} {a b : α}
    (hx : xs[i]? = some a) (hy : ys[i]? = some b) (hne : a ≠ b) : ¬xs <+: ys := by
  rintro ⟨rest, rfl⟩
  have hlt : i < xs.length := (List.getElem?_eq_some_iff.mp hx).1
  rw [List.getElem?_append_left hlt, hx, Option.some_inj] at hy
  exact hne hy

/-- Paths that differ in a component lie apart. -/
theorem apart_of_getElem? {p q : String} {i : Nat} {a b : String}
    (hp : (Text.split p '/')[i]? = some a) (hq : (Text.split q '/')[i]? = some b) (hne : a ≠ b) :
    PathsApart p q :=
  ⟨not_prefix_of_getElem? hp hq hne, not_prefix_of_getElem? hq hp hne.symm⟩

/-- Two different paths of equally many components lie apart. -/
theorem apart_of_length {p q : String} (hne : p ≠ q)
    (hlen : (Text.split p '/').length = (Text.split q '/').length) : PathsApart p q :=
  ⟨fun h => hne (Text.split_inj (h.eq_of_length hlen)),
    fun h => hne (Text.split_inj (h.eq_of_length hlen.symm)).symm⟩

/-- The components of a path with two names under the root. -/
theorem split_two {d w : String} (hd : '/' ∉ d.toList) (hw : '/' ∉ w.toList) :
    Text.split ("/" ++ d ++ "/" ++ w) '/' = ["", d, w] := by
  have hroot : "/" ++ d = "" ++ "/" ++ d := by rw [String.empty_append]
  rw [hroot, Text.split_slash, Text.split_slash, Text.split_plain hd, Text.split_plain hw,
    Text.split_plain (by decide)]
  rfl

theorem Uuid.plain_simple (id : Uuid) : '/' ∉ id.simple.toList := by
  rw [Uuid.simple, String.toList_ofList]
  intro h
  exact absurd (Text.isHexDigit_hex 32 _ '/' h) (by decide)

theorem Uuid.simple_inj {a b : Uuid} (h : a.simple = b.simple) : a = b := by
  have hhex : Text.hex 32 a.val = Text.hex 32 b.val := String.ofList_injective h
  refine Fin.ext (Text.hex_inj ?_ ?_ hhex)
  · exact lt_of_lt_of_eq a.isLt (by norm_num)
  · exact lt_of_lt_of_eq b.isLt (by norm_num)

/-! ### Valid caches -/

namespace Caching

variable {c : Caching}

/-- What the loop of `validate` says of an artifact. -/
theorem validateArtifact_spec {i : Nat} {a : CacheArtifact} (h : c.validateArtifact i a = .ok ()) :
    '/' ∉ a.name.toList ∧ (∃ leaf, a.mountPath = "/cache/" ++ leaf ∧ '/' ∉ leaf.toList) ∧
      ∀ b ∈ c.artifacts.take i, b.name ≠ a.name ∧ b.mountPath ≠ a.mountPath := by
  unfold validateArtifact at h
  simp only [bind_ok, check_ok, Bool.and_eq_true, Bool.not_eq_true', decide_eq_true_eq,
    List.all_eq_true, List.any_eq_false] at h
  obtain ⟨_, ⟨_, hname⟩, _, _, _, ⟨⟨hne, _⟩, hleaf⟩, _, ⟨hnames, hmounts⟩, _⟩ := h
  refine ⟨fun hslash => absurd (hname '/' hslash) (by decide), ?_, fun b hb => ?_⟩
  · cases hstrip : Text.stripStart a.mountPath "/cache/" with
    | none =>
      rw [hstrip] at hne
      exact absurd rfl hne
    | some leaf =>
      rw [hstrip] at hleaf
      exact ⟨leaf, Text.stripStart_iff.mp hstrip,
        fun hslash => absurd (hleaf '/' hslash) (by decide)⟩
  · exact ⟨hnames b hb, hmounts b hb⟩

/-- **A valid cache** has plain names and mounts, each once. -/
theorem validate_apart (h : c.validate = .ok ()) :
    (∀ a ∈ c.artifacts, '/' ∉ a.name.toList ∧
      ∃ leaf, a.mountPath = "/cache/" ++ leaf ∧ '/' ∉ leaf.toList) ∧
    c.artifacts.Pairwise fun a b => a.name ≠ b.name ∧ a.mountPath ≠ b.mountPath := by
  unfold validate at h
  simp only [bind_ok, each_ok] at h
  obtain ⟨_, _, _, _, _, _, _, _, _, _, _, _, _, _, _, hall, _⟩ := h
  have hspec : ∀ (i : Nat) (hi : i < c.artifacts.length), _ := fun i hi =>
    validateArtifact_spec (hall (c.artifacts[i], i)
      (List.mk_mem_zipIdx_iff_getElem?.mpr (List.getElem?_eq_getElem hi)))
  constructor
  · intro a ha
    obtain ⟨i, hi, rfl⟩ := List.mem_iff_getElem.mp ha
    obtain ⟨hname, hmount, _⟩ := hspec i hi
    exact ⟨hname, hmount⟩
  · rw [List.pairwise_iff_getElem]
    intro i j hi hj hij
    obtain ⟨_, _, hbefore⟩ := hspec j hj
    exact hbefore _ (List.mem_take_iff_getElem.mpr ⟨i, by omega, rfl⟩)

end Caching

namespace Executor

/-! ### Approved leases -/

section Approved
variable [Sha256] {config : Config} {now : Time} {lease : Lease}

/-- What an executor has checked of an approved lease. -/
structure Approved (config : Config) (lease : Lease) (registry : Registry) : Prop where
  found : config.registry = some registry
  sandboxed : config.runtimeClass = "gvisor"
  grader : ∃ grader, lease.revision.grader = some grader ∧
    Text.startsWith grader.image registry.start = true
  image : Text.startsWith lease.revision.assignment.image registry.start = true ∧
    registry.runnerImages.contains lease.revision.assignment.image = true
  resources : lease.revision.assignment.resources.fits registry.resources = true
  timeout : 1 ≤ lease.revision.assignment.timeoutSeconds ∧
    lease.revision.assignment.timeoutSeconds ≤ registry.timeoutSeconds
  cache : ∀ seed, Lease.seed lease = some seed → seed.config.validate = .ok ()

omit [Sha256] in
/-- The timeout of a valid revision. -/
theorem timeout_of_validate {r : Revision} (h : r.validate = .ok ()) :
    1 ≤ r.assignment.timeoutSeconds := by
  unfold Revision.validate Assignment.validate at h
  simp only [bind_ok, check_ok, Bool.and_eq_true, decide_eq_true_eq] at h
  obtain ⟨_, _, _, ⟨_, _, _, _, _, _, _, _, _, _, _, _, _, _, _, _, _, _, _, _, _, htimeout, _⟩, _⟩ := h
  exact htimeout.1

/-- The deadline of a private run is all that is asked of it besides. -/
theorem approve_public (h : config.approve now lease = .ok ()) :
    config.approve now { lease with baseline := none } = .ok () := by
  unfold Config.approve at h ⊢
  obtain ⟨_, hdigest, h⟩ := bind_ok.mp h
  obtain ⟨_, hvalid, hrest⟩ := bind_ok.mp h
  refine bind_ok.mpr ⟨(), hdigest, bind_ok.mpr ⟨(), hvalid, ?_⟩⟩
  cases hbaseline : lease.baseline with
  | none =>
    rw [hbaseline] at hrest
    exact hrest
  | some baseline =>
    rw [hbaseline] at hrest
    exact (bind_ok.mp hrest).choose_spec.2

theorem approved (h : config.approve now lease = .ok ()) :
    ∃ registry, Approved config lease registry := by
  have htimeout := timeout_of_validate (Config.approve_ok h).2
  have hpublic := approve_public h
  unfold Config.approve at hpublic
  dsimp only at hpublic
  simp only [bind_ok, check_ok] at hpublic
  obtain ⟨_, _, _, _, _, _, _, hgvisor, hrest⟩ := hpublic
  have hafter : (∀ seed, Lease.seed lease = some seed → seed.validate = .ok ()) ∧
      ∃ registry, config.registry = some registry ∧ (∃ grader, lease.revision.grader = some grader ∧
        Text.startsWith grader.image registry.start = true) ∧
      Text.startsWith lease.revision.assignment.image registry.start = true ∧
      registry.runnerImages.contains lease.revision.assignment.image = true ∧
      (lease.revision.assignment.resources.fits registry.resources &&
        decide (lease.revision.assignment.timeoutSeconds ≤ registry.timeoutSeconds)) = true := by
    unfold Lease.seed
    cases hseed : lease.revision.grader.bind Grader.caching with
    | none =>
      rw [hseed] at hrest
      simp only [bind_ok, check_ok, fetchOne_ok, Bool.and_eq_true] at hrest
      obtain ⟨registry, hregistry, _, _, _, _, grader, hgrader, _, ⟨hshared, himage⟩, _, hrunner,
        hcaps⟩ := hrest
      refine ⟨fun _ h => (by cases h), registry, hregistry, ⟨grader, hgrader, himage⟩, hshared,
        hrunner, ?_⟩
      rw [Bool.and_eq_true]
      exact hcaps
    | some seed =>
      rw [hseed] at hrest
      simp only [bind_ok, check_ok, fetchOne_ok, Bool.and_eq_true] at hrest
      obtain ⟨_, hvalid, _, _, registry, hregistry, _, _, _, _, grader, hgrader, _,
        ⟨hshared, himage⟩, _, hrunner, hcaps⟩ := hrest
      refine ⟨fun _ h => (by cases h; exact hvalid), registry, hregistry, ⟨grader, hgrader, himage⟩,
        hshared, hrunner, ?_⟩
      rw [Bool.and_eq_true]
      exact hcaps
  obtain ⟨hcache, registry, hregistry, hgrader, hshared, hrunner, hcaps⟩ := hafter
  rw [Bool.and_eq_true, decide_eq_true_eq] at hcaps
  refine ⟨registry, hregistry, of_decide_eq_true hgvisor, hgrader, ⟨hshared, hrunner⟩, hcaps.1,
    ⟨htimeout, hcaps.2⟩, fun seed hseed => ?_⟩
  have hvalid := hcache seed hseed
  unfold Seed.validate at hvalid
  obtain ⟨_, hconfig, _⟩ := bind_ok.mp hvalid
  exact hconfig

end Approved

/-! ### What a job mounts -/

/-- A job mounts a path of a claim, and may write to it or not. -/
def Job.Mounts (j : Job) (path : Option String) (writable : Bool) : Prop :=
  ∃ m ∈ j.pod.container.volumeMounts, ∃ v ∈ j.pod.volumes, v.name = m.name ∧
    ∃ claim readOnly, v.source = .persistentVolumeClaim claim readOnly ∧ m.subPath = path ∧
      writable = !(readOnly || m.readOnly)

/-- Whose a job is: that of a lease, or of a preparation. -/
inductive Owner
  | run (token : Uuid)
  | build (id : Uuid)

namespace Owner

def root : Owner → String
  | .run _ => "runs"
  | .build _ => "cache-builds"

def id : Owner → Uuid
  | .run token => token
  | .build id => id

/-- The directory an owner's job writes to. -/
def output : Owner → String
  | .run _ => "control"
  | .build _ => "output"

def path (o : Owner) (rest : String) : String := o.root ++ "/" ++ o.id.simple ++ "/" ++ rest

theorem eq_of_root {o o' : Owner} (hroot : o.root = o'.root) (hid : o.id = o'.id) : o = o' := by
  have hne : "runs" ≠ "cache-builds" := by decide
  cases o with
  | run token =>
    cases o' with
    | run token' => exact congrArg run hid
    | build id' => exact absurd hroot hne
  | build id =>
    cases o' with
    | run token' => exact absurd hroot hne.symm
    | build id' => exact congrArg build hid

theorem plain_names (o : Owner) :
    '/' ∉ o.root.toList ∧ '/' ∉ o.output.toList ∧ o.root ≠ "caches" := by
  have hrun : '/' ∉ "runs".toList ∧ '/' ∉ "control".toList ∧ "runs" ≠ "caches" := by decide
  have hbuild : '/' ∉ "cache-builds".toList ∧ '/' ∉ "output".toList ∧
      "cache-builds" ≠ "caches" := by decide
  cases o with
  | run token => exact hrun
  | build id => exact hbuild

theorem split_path (o : Owner) (rest : String) :
    Text.split (o.path rest) '/' = o.root :: o.id.simple :: Text.split rest '/' := by
  rw [path, Text.split_slash, Text.split_slash, Text.split_plain o.plain_names.1,
    Text.split_plain (Uuid.plain_simple _)]
  rfl

/-- What the jobs of an owner mount: the directory they write to, or what they
only read of their own, or a cache. -/
inductive Holds (o : Owner) : String → Bool → Prop
  | output : Holds o (o.path o.output) true
  | own {path x : String} {rest : List String}
      (h : Text.split path '/' = o.root :: o.id.simple :: x :: rest) (hne : x ≠ o.output) :
      Holds o path false
  | cache {path : String} {rest : List String} (h : Text.split path '/' = "caches" :: rest) :
      Holds o path false

/-- **What an owner may write, no other owner holds.** -/
theorem Holds.apart {o o' : Owner} {p q : String} {w : Bool} (hp : Holds o p true)
    (hq : Holds o' q w) : PathsApart p q ∨ (o = o' ∧ p = q ∧ w = true) := by
  cases hp
  have hsplit : Text.split (o.path o.output) '/' = [o.root, o.id.simple, o.output] := by
    rw [split_path, Text.split_plain o.plain_names.2.1]
  have hown : ∀ x rest, Text.split q '/' = o'.root :: o'.id.simple :: x :: rest →
      (o = o' → x ≠ o.output) → PathsApart (o.path o.output) q := by
    intro x rest h hne
    by_cases hroot : o.root = o'.root
    · by_cases hid : o.id = o'.id
      · refine apart_of_getElem? (i := 2) (a := o.output) (b := x) ?_ ?_ ?_
        · rw [hsplit]
          rfl
        · rw [h]
          rfl
        · exact (hne (eq_of_root hroot hid)).symm
      · refine apart_of_getElem? (i := 1) (a := o.id.simple) (b := o'.id.simple) ?_ ?_
          fun heq => hid (Uuid.simple_inj heq)
        · rw [hsplit]
          rfl
        · rw [h]
          rfl
    · refine apart_of_getElem? (i := 0) (a := o.root) (b := o'.root) ?_ ?_ hroot
      · rw [hsplit]
        rfl
      · rw [h]
        rfl
  cases hq with
  | output =>
    by_cases heq : o = o'
    · subst heq
      exact Or.inr ⟨rfl, rfl, rfl⟩
    · refine Or.inl (hown o'.output [] ?_ fun h => absurd h heq)
      rw [split_path, Text.split_plain o'.plain_names.2.1]
  | own h hne =>
    refine Or.inl (hown _ _ h fun heq => ?_)
    rw [heq]
    exact hne
  | cache h =>
    refine Or.inl (apart_of_getElem? (i := 0) (a := o.root) (b := "caches") ?_ ?_
      o.plain_names.2.2)
    · rw [hsplit]
      rfl
    · rw [h]
      rfl

end Owner

/-! ### The claim of a job -/

section Mounts
variable {scripts : Scripts} {config : Config} {now : Time} {lease : Lease}
  {request : ExecutionRequest} {remaining : Nat} {j : Job}

/-- A pod whose one claim is the staging volume. -/
structure PodSpec.OneClaim (pod : PodSpec) (claim : String) (readOnly : Bool) : Prop where
  first : ∃ rest, pod.volumes = ⟨"source", .persistentVolumeClaim claim readOnly⟩ :: rest ∧
    ∀ v ∈ rest, ∀ claim readOnly, v.source ≠ .persistentVolumeClaim claim readOnly

theorem PodSpec.OneClaim.eq {pod : PodSpec} {claim : String} {readOnly : Bool}
    (h : pod.OneClaim claim readOnly) {v : Volume} (hv : v ∈ pod.volumes) {name : String}
    {writes : Bool} (hsource : v.source = .persistentVolumeClaim name writes) :
    v.name = "source" ∧ name = claim ∧ writes = readOnly := by
  obtain ⟨rest, hvolumes, hrest⟩ := h.first
  rw [hvolumes] at hv
  rcases List.mem_cons.mp hv with rfl | hv
  · cases hsource
    exact ⟨rfl, rfl, rfl⟩
  · exact absurd hsource (hrest v hv name writes)

/-- What a job mounts of its one claim. -/
theorem Job.Mounts.source {claim : String} {readOnly : Bool} (h : j.pod.OneClaim claim readOnly)
    {path : Option String} {w : Bool} (hm : j.Mounts path w) :
    ∃ m ∈ j.pod.container.volumeMounts, m.name = "source" ∧ m.subPath = path ∧
      w = !(readOnly || m.readOnly) := by
  obtain ⟨m, hm, v, hv, hname, name, writes, hsource, hpath, hw⟩ := hm
  obtain ⟨hvolume, _, rfl⟩ := h.eq hv hsource
  exact ⟨m, hm, hname.symm.trans hvolume, hpath, hw⟩

theorem runPath_eq (lease : Lease) (rest : String) :
    runPath lease rest = (Owner.run lease.leaseToken).path rest := by
  have hroot : "runs/" = "runs" ++ "/" := by decide
  exact congrArg (fun root => root ++ lease.leaseToken.simple ++ "/" ++ rest) hroot

theorem buildPath_eq (id : Uuid) (rest : String) : buildPath id rest = (Owner.build id).path rest := by
  have hroot : "cache-builds/" = "cache-builds" ++ "/" := by decide
  exact congrArg (fun root => root ++ id.simple ++ "/" ++ rest) hroot

/-- A directory of an owner that its jobs only read. -/
theorem Owner.Holds.named {o : Owner} {x : String} (hplain : '/' ∉ x.toList)
    (hne : x ≠ o.output) : o.Holds (o.path x) false := by
  have hsplit : Text.split (o.path x) '/' = o.root :: o.id.simple :: x :: [] := by
    rw [o.split_path, Text.split_plain hplain]
  exact .own hsplit hne

/-! ### The mounts of a command -/

/-- What the cache adds to the mounts of a job. -/
def cacheMounts (lease : Lease) : List VolumeMount :=
  match Lease.seed lease with
  | some seed => seed.config.artifacts.zipIdx.flatMap (CacheMount.mounts seed)
  | none => []

/-- What the cache adds to the volumes of a job. -/
def cacheVolumes (lease : Lease) : List Volume :=
  match Lease.seed lease with
  | some seed => seed.config.artifacts.zipIdx.flatMap CacheMount.volumes
  | none => []

/-- The mounts of every command. -/
def runMounts (lease : Lease) (request : ExecutionRequest) : List VolumeMount :=
  [⟨"source", "/source", some (runPath lease "source"), true⟩,
    ⟨"source", "/input", some (runPath lease ("requests/" ++ request.id.simple)), true⟩,
    ⟨"workspace", "/workspace", none, false⟩, ⟨"tmp", "/tmp", none, false⟩]

theorem volumeMounts_studentJob :
    (studentJob scripts config lease request remaining).pod.container.volumeMounts =
      runMounts lease request ++ cacheMounts lease := by
  unfold studentJob cacheMounts
  cases Lease.seed lease with
  | some seed => rfl
  | none => rfl

theorem volumes_studentJob : (studentJob scripts config lease request remaining).pod.volumes =
    [⟨"source", .persistentVolumeClaim config.sourcePvc true⟩,
      ⟨"workspace", .emptyDir (gi lease.revision.assignment.resources.storageGib)⟩,
      ⟨"tmp", .emptyDir "1Gi"⟩] ++ cacheVolumes lease := by
  unfold studentJob cacheVolumes
  cases Lease.seed lease with
  | some seed => rfl
  | none => rfl

theorem oneClaim_studentJob :
    (studentJob scripts config lease request remaining).pod.OneClaim config.sourcePvc true := by
  have hcache : ∀ v ∈ cacheVolumes lease, ∀ claim readOnly,
      v.source ≠ .persistentVolumeClaim claim readOnly := by
    intro v hv claim readOnly heq
    unfold cacheVolumes at hv
    split at hv
    · obtain ⟨⟨a, i⟩, _, hmem⟩ := List.mem_flatMap.mp hv
      dsimp only [CacheMount.volumes] at hmem
      split at hmem
      · rw [List.mem_singleton.mp hmem] at heq
        cases heq
      · cases hmem
    · cases hv
  refine ⟨_, volumes_studentJob, fun v hv claim readOnly heq => ?_⟩
  rcases List.mem_cons.mp hv with rfl | hv
  · cases heq
  · rcases List.mem_cons.mp hv with rfl | hv
    · cases heq
    · exact hcache v hv claim readOnly heq

/-- The volume of a private copy is not the staging volume. -/
theorem CacheMount.volume_ne (i : Nat) : CacheMount.volume i ≠ "source" := by
  intro h
  have htext := congrArg String.toList h
  rw [CacheMount.volume, String.toList_append] at htext
  have hfirst : ("cache-".toList ++ (toString i).toList).head? = some 'c' := rfl
  rw [htext] at hfirst
  exact absurd hfirst (by decide)

theorem holds_studentJob {m : VolumeMount}
    (hm : m ∈ runMounts lease request ++ cacheMounts lease) (hsource : m.name = "source") :
    ∃ path, m.subPath = some path ∧ (Owner.run lease.leaseToken).Holds path false := by
  have hnames : ("workspace" : String) ≠ "source" ∧ ("tmp" : String) ≠ "source" := by decide
  rcases List.mem_append.mp hm with hm | hm
  · rcases List.mem_cons.mp hm with rfl | hm
    · refine ⟨_, rfl, ?_⟩
      rw [runPath_eq]
      exact .named (by decide) (show ("source" : String) ≠ "control" by decide)
    · rcases List.mem_cons.mp hm with rfl | hm
      · have hrequests : "requests/" = "requests" ++ "/" := by decide
        have hsplit : Text.split (runPath lease ("requests/" ++ request.id.simple)) '/' =
            (Owner.run lease.leaseToken).root :: lease.leaseToken.simple :: "requests" ::
              [request.id.simple] := by
          rw [runPath_eq, Owner.split_path, hrequests, Text.split_slash,
            Text.split_plain (by decide), Text.split_plain (Uuid.plain_simple _)]
          rfl
        exact ⟨_, rfl, .own hsplit (show ("requests" : String) ≠ "control" by decide)⟩
      · rcases List.mem_cons.mp hm with rfl | hm
        · exact absurd hsource hnames.1
        · rw [List.mem_singleton.mp hm] at hsource
          exact absurd hsource hnames.2
  · unfold cacheMounts at hm
    split at hm
    · rename_i seed hseed
      obtain ⟨⟨a, i⟩, hai, hmem⟩ := List.mem_flatMap.mp hm
      rcases List.mem_cons.mp hmem with rfl | hmem
      · have hcaches : "caches/" = "caches" ++ "/" := by decide
        have hsplit : Text.split ("caches/" ++ seed.digest ++ "/" ++ a.name) '/' =
            "caches" :: (Text.split seed.digest '/' ++ Text.split a.name '/') := by
          rw [hcaches, Text.split_slash, Text.split_slash, Text.split_plain (by decide)]
          rfl
        exact ⟨_, rfl, .cache hsplit⟩
      · split at hmem
        · rw [List.mem_singleton.mp hmem] at hsource
          exact absurd hsource (CacheMount.volume_ne i)
        · cases hmem
    · cases hm

/-- The parts of a mount of an artifact. -/
def Parted (a : CacheArtifact) (m : VolumeMount) (d w : String) : Prop :=
  Text.split m.mountPath '/' = ["", d, w] ∧
    ((d = "cache" ∧ m.mountPath = a.mountPath) ∨ (d = "cache-seeds" ∧ w = a.name))

theorem parted_of_mounts {seed : Seed} {a : CacheArtifact} {i : Nat} {m : VolumeMount}
    (hname : '/' ∉ a.name.toList)
    (hmount : ∃ leaf, a.mountPath = "/cache/" ++ leaf ∧ '/' ∉ leaf.toList)
    (hm : m ∈ CacheMount.mounts seed (a, i)) : ∃ d w, Parted a m d w := by
  obtain ⟨leaf, hleaf, hplain⟩ := hmount
  have hcache : Text.split a.mountPath '/' = ["", "cache", leaf] := by
    have htext : "/cache/" = "/" ++ "cache" ++ "/" := by decide
    rw [hleaf, htext]
    exact split_two (by decide) hplain
  have hseeds : Text.split ("/cache-seeds/" ++ a.name) '/' = ["", "cache-seeds", a.name] := by
    have htext : "/cache-seeds/" = "/" ++ "cache-seeds" ++ "/" := by decide
    rw [htext]
    exact split_two (by decide) hname
  rcases List.mem_cons.mp hm with rfl | hm
  · unfold Parted CacheMount.path
    split
    · exact ⟨_, _, hseeds, Or.inr ⟨rfl, rfl⟩⟩
    · exact ⟨_, _, hcache, Or.inl ⟨rfl, rfl⟩⟩
  · split at hm
    · rw [List.mem_singleton.mp hm]
      exact ⟨_, _, hcache, Or.inl ⟨rfl, rfl⟩⟩
    · cases hm

/-- The mounts of two artifacts lie apart. -/
theorem Parted.apart {a b : CacheArtifact} {m n : VolumeMount} {d w e v : String}
    (hm : Parted a m d w) (hn : Parted b n e v) (hab : a.name ≠ b.name ∧ a.mountPath ≠ b.mountPath) :
    PathsApart m.mountPath n.mountPath := by
  have hdirs : ("cache" : String) ≠ "cache-seeds" := by decide
  refine apart_of_length (fun heq => ?_) (by rw [hm.1, hn.1]; rfl)
  have hparts : ["", d, w] = ["", e, v] := by rw [← hm.1, ← hn.1, heq]
  obtain ⟨_, hde, hwv, _⟩ : ("" : String) = "" ∧ d = e ∧ w = v ∧ True := by simpa using hparts
  rcases hm.2 with ⟨hd, hma⟩ | ⟨hd, hwa⟩
  · rcases hn.2 with ⟨_, hnb⟩ | ⟨he, _⟩
    · exact hab.2 (hma.symm.trans (heq.trans hnb))
    · exact hdirs (hd.symm.trans (hde.trans he))
  · rcases hn.2 with ⟨he, _⟩ | ⟨_, hvb⟩
    · exact hdirs (he.symm.trans (hde.symm.trans hd))
    · exact hab.1 (hwa.symm.trans (hwv.trans hvb))

/-- The mounts of one artifact lie apart. -/
theorem pairwise_mounts {seed : Seed} {a : CacheArtifact} {i : Nat} (hname : '/' ∉ a.name.toList)
    (hmount : ∃ leaf, a.mountPath = "/cache/" ++ leaf ∧ '/' ∉ leaf.toList) :
    (CacheMount.mounts seed (a, i)).Pairwise fun m n => PathsApart m.mountPath n.mountPath := by
  obtain ⟨leaf, hleaf, hplain⟩ := hmount
  dsimp only [CacheMount.mounts, CacheMount.path]
  split
  · rw [List.pairwise_pair, hleaf]
    have hseeds : "/cache-seeds/" = "/" ++ "cache-seeds" ++ "/" := by decide
    have hcache : "/cache/" = "/" ++ "cache" ++ "/" := by decide
    refine apart_of_getElem? (i := 1) (a := "cache-seeds") (b := "cache") ?_ ?_ (by decide)
    · rw [hseeds, split_two (by decide) hname]
      rfl
    · rw [hcache, split_two (by decide) hplain]
      rfl
  · exact List.pairwise_singleton _ _

/-- The names under the root that commands are run with. -/
theorem split_runMounts {m : VolumeMount} (hm : m ∈ runMounts lease request) :
    ∃ x, Text.split m.mountPath '/' = ["", x] ∧ x ≠ "cache" ∧ x ≠ "cache-seeds" := by
  have hnames : ∀ x ∈ ["source", "input", "workspace", "tmp"], '/' ∉ x.toList ∧
      x ≠ "cache" ∧ x ≠ "cache-seeds" := by decide
  have hsplit : ∀ x ∈ ["source", "input", "workspace", "tmp"],
      Text.split ("" ++ "/" ++ x) '/' = ["", x] ∧ x ≠ "cache" ∧ x ≠ "cache-seeds" := by
    intro x hx
    refine ⟨?_, (hnames x hx).2⟩
    rw [Text.split_slash, Text.split_plain (hnames x hx).1, Text.split_plain (by decide)]
    rfl
  rcases List.mem_cons.mp hm with rfl | hm
  · exact ⟨_, hsplit "source" (by decide)⟩
  · rcases List.mem_cons.mp hm with rfl | hm
    · exact ⟨_, hsplit "input" (by decide)⟩
    · rcases List.mem_cons.mp hm with rfl | hm
      · exact ⟨_, hsplit "workspace" (by decide)⟩
      · rw [List.mem_singleton.mp hm]
        exact ⟨_, hsplit "tmp" (by decide)⟩

/-- The mounts of a valid cache lie apart. -/
theorem pairwise_cacheMounts
    (h : ∀ seed, Lease.seed lease = some seed → seed.config.validate = .ok ()) :
    (cacheMounts lease).Pairwise (fun m n => PathsApart m.mountPath n.mountPath) ∧
      ∀ n ∈ cacheMounts lease, ∃ a d w, Parted a n d w := by
  unfold cacheMounts
  split
  · rename_i seed hseed
    obtain ⟨hparts, hpairs⟩ := Caching.validate_apart (h seed hseed)
    have hmem : ∀ e ∈ seed.config.artifacts.zipIdx, e.1 ∈ seed.config.artifacts := fun e he =>
      List.mem_of_getElem? (List.mk_mem_zipIdx_iff_getElem?.mp he)
    constructor
    · rw [List.pairwise_flatMap]
      constructor
      · intro e he
        obtain ⟨hname, hmount⟩ := hparts e.1 (hmem e he)
        exact pairwise_mounts hname hmount
      · have hindexed : seed.config.artifacts.zipIdx.Pairwise fun e f =>
            e.1.name ≠ f.1.name ∧ e.1.mountPath ≠ f.1.mountPath := by
          have hfirst : (seed.config.artifacts.zipIdx.map Prod.fst).Pairwise fun a b =>
              a.name ≠ b.name ∧ a.mountPath ≠ b.mountPath := by
            rw [List.zipIdx_map_fst]
            exact hpairs
          exact List.pairwise_map.mp hfirst
        refine hindexed.imp_of_mem fun {e f} he hf hne m hm n hn => ?_
        obtain ⟨hname, hmount⟩ := hparts e.1 (hmem e he)
        obtain ⟨hname', hmount'⟩ := hparts f.1 (hmem f hf)
        obtain ⟨d, w, hdw⟩ := parted_of_mounts hname hmount hm
        obtain ⟨d', w', hdw'⟩ := parted_of_mounts hname' hmount' hn
        exact hdw.apart hdw' hne
    · intro n hn
      obtain ⟨e, he, hmem'⟩ := List.mem_flatMap.mp hn
      obtain ⟨hname, hmount⟩ := hparts e.1 (hmem e he)
      exact ⟨e.1, parted_of_mounts hname hmount hmem'⟩
  · exact ⟨List.Pairwise.nil, fun n hn => (by cases hn)⟩

/-- **The mounts of a command lie apart.** -/
theorem pairwise_studentJob
    (h : ∀ seed, Lease.seed lease = some seed → seed.config.validate = .ok ()) :
    (runMounts lease request ++ cacheMounts lease).Pairwise
      fun m n => PathsApart m.mountPath n.mountPath := by
  have hrun : (runMounts lease request).Pairwise
      fun m n => PathsApart m.mountPath n.mountPath := by
    have hpaths : ((runMounts lease request).map VolumeMount.mountPath).Pairwise PathsApart := by
      change ["/source", "/input", "/workspace", "/tmp"].Pairwise PathsApart
      decide
    exact List.pairwise_map.mp hpaths
  obtain ⟨hcache, hparts⟩ := pairwise_cacheMounts h
  refine List.pairwise_append.mpr ⟨hrun, hcache, fun m hm n hn => ?_⟩
  obtain ⟨x, hx, hnot, hnot'⟩ := split_runMounts hm
  obtain ⟨a, d, w, hsplit, hd⟩ := hparts n hn
  refine apart_of_getElem? (i := 1) (a := x) (b := d) ?_ ?_ ?_
  · rw [hx]
    rfl
  · rw [hsplit]
    rfl
  · rcases hd with ⟨rfl, _⟩ | ⟨rfl, _⟩
    · exact hnot
    · exact hnot'

/-! ### The mounts of graders and recipes -/

theorem PodSpec.OneClaim.trusted {pod : PodSpec} {claim : String} {readOnly : Bool}
    (h : pod.OneClaim claim readOnly) : pod.trusted.OneClaim claim false := by
  obtain ⟨rest, hvolumes, hrest⟩ := h.first
  refine ⟨rest, ?_, hrest⟩
  rw [PodSpec.trusted, hvolumes]

theorem oneClaim_sandbox (name testId : String) :
    (sandbox scripts config lease name testId remaining).pod.OneClaim config.sourcePvc true := by
  refine ⟨_, rfl, fun v hv claim readOnly heq => ?_⟩
  rcases List.mem_cons.mp hv with rfl | hv
  · cases heq
  · rw [List.mem_singleton.mp hv] at heq
    cases heq

theorem oneClaim_controller {grader : Grader} {command : List String} (name testId : String) :
    (withController (withChecker (sandbox scripts config lease name testId remaining) lease grader)
      lease grader command).pod.OneClaim config.sourcePvc false := by
  have hsandbox : (sandbox scripts config lease name testId remaining).pod.OneClaim config.sourcePvc
    true := oneClaim_sandbox name testId
  exact ⟨hsandbox.trusted.first⟩

theorem oneClaim_recipe {caching : Caching} {id : Uuid} (name testId : String) :
    (withRecipe (sandbox scripts config lease name testId remaining) caching id).pod.OneClaim
      config.sourcePvc false := by
  have hsandbox : (sandbox scripts config lease name testId remaining).pod.OneClaim config.sourcePvc
    true := oneClaim_sandbox name testId
  exact ⟨hsandbox.trusted.first⟩

theorem holds_controllerMounts {grader : Grader} {m : VolumeMount}
    (hm : m ∈ controllerMounts lease grader) (hsource : m.name = "source") :
    ∃ path, m.subPath = some path ∧
      (Owner.run lease.leaseToken).Holds path !(false || m.readOnly) := by
  have hplain : ∀ x ∈ ["source", "context", "platform", "grader"], '/' ∉ x.toList ∧
      x ≠ "control" := by decide
  have hread : ∀ x ∈ ["source", "context", "platform", "grader"],
      (Owner.run lease.leaseToken).Holds (runPath lease x) false := by
    intro x hx
    rw [runPath_eq]
    exact .named (hplain x hx).1 (hplain x hx).2
  have htmp : ("tmp" : String) ≠ "source" := by decide
  rcases List.mem_append.mp hm with hm | hm
  · simp only [List.mem_cons, List.not_mem_nil, or_false] at hm
    rcases hm with rfl | rfl | rfl | rfl | rfl
    · exact ⟨_, rfl, hread "source" (by decide)⟩
    · exact ⟨_, rfl, hread "context" (by decide)⟩
    · exact ⟨_, rfl, hread "platform" (by decide)⟩
    · refine ⟨_, rfl, ?_⟩
      rw [runPath_eq]
      exact .output
    · exact absurd hsource htmp
  · split at hm
    · rw [List.mem_singleton.mp hm]
      exact ⟨_, rfl, hread "grader" (by decide)⟩
    · cases hm

theorem holds_recipeMounts {caching : Caching} {id : Uuid} {j : Job} {m : VolumeMount}
    (hm : m ∈ (withRecipe j caching id).pod.container.volumeMounts) (hsource : m.name = "source") :
    ∃ path, m.subPath = some path ∧ (Owner.build id).Holds path !(false || m.readOnly) := by
  have hplain : ∀ x ∈ ["source", "recipe"], '/' ∉ x.toList ∧ x ≠ "output" := by decide
  have hread : ∀ x ∈ ["source", "recipe"], (Owner.build id).Holds (buildPath id x) false := by
    intro x hx
    rw [buildPath_eq]
    exact .named (hplain x hx).1 (hplain x hx).2
  have hnames : ("workspace" : String) ≠ "source" ∧ ("tmp" : String) ≠ "source" := by decide
  dsimp only [withRecipe] at hm
  simp only [List.mem_cons, List.not_mem_nil, or_false] at hm
  rcases hm with rfl | rfl | rfl | rfl | rfl
  · exact ⟨_, rfl, hread "source" (by decide)⟩
  · exact ⟨_, rfl, hread "recipe" (by decide)⟩
  · refine ⟨_, rfl, ?_⟩
    rw [buildPath_eq]
    exact .output
  · exact absurd hsource hnames.1
  · exact absurd hsource hnames.2

end Mounts

/-! ### Every job -/

section Jobs
variable [Sha256] {scripts : Scripts} {config : Config} {now : Time} {lease : Lease}
  {request : ExecutionRequest} {remaining : Nat} {j : Job}

/-- The jobs an executor starts, and whose they are. -/
inductive Made (scripts : Scripts) (config : Config) : Job → Owner → Prop
  | student {now : Time} {lease : Lease} {request : ExecutionRequest} {remaining : Nat} {j : Job}
      (h : executionJob scripts config now lease request remaining = .ok j) :
      Made scripts config j (.run lease.leaseToken)
  | controller {now : Time} {lease : Lease} {remaining : Nat} {j : Job}
      (h : controllerJob scripts config now lease remaining = .ok j) :
      Made scripts config j (.run lease.leaseToken)
  | preparation {now : Time} {revision : Revision} {caching : Caching} {id : Uuid} {j : Job}
      (h : preparationJob scripts config now revision caching id = .ok j) :
      Made scripts config j (.build id)

/-- The limits every job has: it runs in the sandbox of the worker, on one of its
images and within its caps, without an account and without privileges. -/
structure Job.Confined (config : Config) (j : Job) : Prop where
  namespaceName : j.namespaceName = config.namespaceName
  runtime : j.pod.runtimeClassName = "gvisor"
  account : j.pod.automountServiceAccountToken = false ∧ j.pod.enableServiceLinks = false
  user : j.pod.securityContext.runAsNonRoot = true ∧ j.pod.securityContext.runAsUser ≠ 0 ∧
    j.pod.securityContext.seccompProfile = "RuntimeDefault"
  privileges : j.pod.container.allowPrivilegeEscalation = false ∧
    j.pod.container.readOnlyRootFilesystem = true ∧ j.pod.container.drop = ["ALL"]
  once : j.backoffLimit = 0 ∧ j.pod.restartPolicy = "Never"
  caps : ∃ registry, config.registry = some registry ∧
    Text.startsWith j.pod.container.image registry.start = true ∧
    1 ≤ j.activeDeadlineSeconds ∧ j.activeDeadlineSeconds ≤ registry.timeoutSeconds ∧
    ((∃ r : Resources, r.fits registry.resources = true ∧
      j.pod.container.limits = Resources.amounts r) ∨
      j.pod.container.limits = ⟨"1", "512Mi", "1Gi"⟩)
  claim : ∃ readOnly, j.pod.OneClaim config.sourcePvc readOnly

/-- The sandbox of an approved lease is confined. -/
theorem confined_sandbox (h : config.approve now lease = .ok ()) (name testId : String) :
    (sandbox scripts config lease name testId remaining).Confined config := by
  obtain ⟨registry, happroved⟩ := approved h
  have htimeout := happroved.timeout
  refine ⟨rfl, happroved.sandboxed, ⟨rfl, rfl⟩, ⟨rfl, by simp [sandbox], rfl⟩, ⟨rfl, rfl, rfl⟩,
    ⟨rfl, rfl⟩, ⟨registry, happroved.found, happroved.image.1, ?_, ?_,
      Or.inl ⟨_, happroved.resources, rfl⟩⟩, true, ⟨_, rfl, ?_⟩⟩
  · change 1 ≤ min (max remaining 1) lease.revision.assignment.timeoutSeconds
    omega
  · change min (max remaining 1) lease.revision.assignment.timeoutSeconds ≤ _
    omega
  · intro v hv claim readOnly heq
    rcases List.mem_cons.mp hv with rfl | hv
    · cases heq
    · rw [List.mem_singleton.mp hv] at heq
      cases heq

/-- **Every job is confined.** -/
theorem Made.confined {o : Owner} (h : Made scripts config j o) : j.Confined config := by
  cases h with
  | @student now lease request remaining _ h =>
    obtain ⟨_, happrove, rfl⟩ := executionJob_ok.mp h
    have hsandbox : (sandbox scripts config lease (jobName lease "script") "script"
      (min remaining (min (request.timeoutSeconds + 5) (2 ^ 32 - 1)))).Confined config :=
      confined_sandbox happrove _ _
    have hone : (studentJob scripts config lease request remaining).pod.OneClaim
      config.sourcePvc true := oneClaim_studentJob
    unfold studentJob at hone ⊢
    cases hseed : Lease.seed lease with
    | some seed =>
      rw [hseed] at hone
      exact { hsandbox with claim := ⟨true, hone⟩ }
    | none =>
      rw [hseed] at hone
      exact { hsandbox with claim := ⟨true, hone⟩ }
  | @controller now lease remaining _ h =>
    obtain ⟨happrove, grader, workflow, command, hgrader, _, _, rfl⟩ := controllerJob_ok.mp h
    have hsandbox : (sandbox scripts config lease (jobName lease "private-check") "private-check"
      remaining).Confined config := confined_sandbox happrove _ _
    obtain ⟨registry, happroved⟩ := approved happrove
    obtain ⟨grader', hgrader', himage⟩ := happroved.grader
    rw [hgrader, Option.some_inj] at hgrader'
    obtain ⟨registry', hregistry', _, hpos, hle, _⟩ := hsandbox.caps
    rw [happroved.found, Option.some_inj] at hregistry'
    subst hgrader' hregistry'
    exact ⟨hsandbox.namespaceName, hsandbox.runtime, hsandbox.account,
      ⟨hsandbox.user.1, by simp [withController, PodSpec.trusted], hsandbox.user.2.2⟩,
      hsandbox.privileges, hsandbox.once,
      ⟨registry, happroved.found, himage, hpos, hle, Or.inr rfl⟩, false, oneClaim_controller _ _⟩
  | @preparation now revision caching id _ h =>
    obtain ⟨_, grader, _, happrove, rfl⟩ := preparationJob_ok.mp h
    have hsandbox : (sandbox scripts config (preparationLease revision grader caching id now)
      (jobName (preparationLease revision grader caching id now) "cache") "cache"
      caching.timeoutSeconds).Confined config := confined_sandbox happrove _ _
    exact ⟨hsandbox.namespaceName, hsandbox.runtime, hsandbox.account,
      ⟨hsandbox.user.1, by simp [withRecipe, PodSpec.trusted], hsandbox.user.2.2⟩,
      hsandbox.privileges, hsandbox.once, hsandbox.caps, false, oneClaim_recipe _ _⟩

/-- What a job mounts of the staging volume is its owner's, or a cache. -/
theorem Made.holds {o : Owner} (h : Made scripts config j o) {path : Option String} {w : Bool}
    (hm : j.Mounts path w) : ∃ p, path = some p ∧ o.Holds p w := by
  cases h with
  | @student now lease request remaining _ h =>
    obtain ⟨_, _, rfl⟩ := executionJob_ok.mp h
    obtain ⟨m, hmem, hname, rfl, rfl⟩ := hm.source oneClaim_studentJob
    rw [volumeMounts_studentJob] at hmem
    exact holds_studentJob hmem hname
  | @controller now lease remaining _ h =>
    obtain ⟨_, grader, workflow, command, _, _, _, rfl⟩ := controllerJob_ok.mp h
    obtain ⟨m, hmem, hname, rfl, rfl⟩ := hm.source (oneClaim_controller _ _)
    exact holds_controllerMounts hmem hname
  | @preparation now revision caching id _ h =>
    obtain ⟨_, grader, _, _, rfl⟩ := preparationJob_ok.mp h
    obtain ⟨m, hmem, hname, rfl, rfl⟩ := hm.source (oneClaim_recipe _ _)
    exact holds_recipeMounts hmem hname

/-- **Jobs are confined, and write to nothing another owner's job mounts.** -/
theorem jobs_apart (scripts : Scripts) (config : Config) {j k : Job} {o o' : Owner}
    (hj : Made scripts config j o) (hk : Made scripts config k o') : j.Confined config ∧
    (∀ path w, j.Mounts path w → ∃ p, path = some p ∧ o.Holds p w) ∧
    ∀ p q w, j.Mounts (some p) true → k.Mounts (some q) w →
      PathsApart p q ∨ (o = o' ∧ p = q ∧ w = true) := by
  refine ⟨hj.confined, fun _ _ => hj.holds, fun p q w hp hq => ?_⟩
  obtain ⟨_, hsame, hp⟩ := hj.holds hp
  obtain ⟨_, hsame', hq⟩ := hk.holds hq
  cases hsame
  cases hsame'
  exact hp.apart hq

omit [Sha256] in
/-- The job of a command, in terms of what the lease says of it. -/
theorem studentJob_congr {lease lease' : Lease} (htoken : lease.leaseToken = lease'.leaseToken)
    (hassignment : lease.revision.assignment = lease'.revision.assignment)
    (hseed : Lease.seed lease = Lease.seed lease') :
    studentJob scripts config lease request remaining =
      studentJob scripts config lease' request remaining := by
  unfold studentJob withRequest sandbox jobName shortId runPath
  rw [htoken, hassignment, hseed]

omit [Sha256] in
theorem mounts_request (request' : ExecutionRequest) :
    (studentJob scripts config lease request' remaining).pod.container.volumeMounts =
      (studentJob scripts config lease request remaining).pod.container.volumeMounts.set 1
        ⟨"source", "/input", some (runPath lease ("requests/" ++ request'.id.simple)), true⟩ := by
  rw [volumeMounts_studentJob, volumeMounts_studentJob]
  rfl

/-- Two jobs that differ in their name, time, command and mounts only. -/
def SameSandbox (j j' : Job) : Prop :=
  j' = { j with
    name := j'.name
    activeDeadlineSeconds := j'.activeDeadlineSeconds
    pod := { j.pod with container := { j.pod.container with
      command := j'.pod.container.command
      env := j'.pod.container.env
      volumeMounts := j'.pod.container.volumeMounts } } }

omit [Sha256] in
theorem sameSandbox_request (request' : ExecutionRequest) :
    SameSandbox (studentJob scripts config lease request remaining)
      (studentJob scripts config lease request' remaining) := by
  have hrequest : ∀ limit limit' : Nat, SameSandbox
      (withRequest scripts (sandbox scripts config lease (jobName lease "script") "script" limit)
        lease request remaining)
      (withRequest scripts (sandbox scripts config lease (jobName lease "script") "script" limit')
        lease request' remaining) := fun _ _ => rfl
  have hcache : ∀ (seed : Seed) (limit limit' : Nat), SameSandbox
      (withCache scripts (withRequest scripts
        (sandbox scripts config lease (jobName lease "script") "script" limit)
        lease request remaining) seed)
      (withCache scripts (withRequest scripts
        (sandbox scripts config lease (jobName lease "script") "script" limit')
        lease request' remaining) seed) := fun _ _ _ => rfl
  unfold studentJob
  cases Lease.seed lease with
  | some seed => exact hcache seed _ _
  | none => exact hrequest _ _

omit [Sha256] in
/-- The job of another request. -/
theorem studentJob_request {request' : ExecutionRequest} {j' : Job}
    (hj : studentJob scripts config lease request remaining = j)
    (hj' : studentJob scripts config lease request' remaining = j') :
    j' = { j with
      name := "exec-" ++ request'.id.simple
      activeDeadlineSeconds := j'.activeDeadlineSeconds
      pod := { j.pod with container := { j.pod.container with
        command := j'.pod.container.command
        env := j'.pod.container.env
        volumeMounts := j.pod.container.volumeMounts.set 1 ⟨"source", "/input",
          some (runPath lease ("requests/" ++ request'.id.simple)), true⟩ } } } := by
  have hsame : SameSandbox j j' := by
    rw [← hj, ← hj']
    exact sameSandbox_request request'
  have hmounts : j'.pod.container.volumeMounts = j.pod.container.volumeMounts.set 1
      ⟨"source", "/input", some (runPath lease ("requests/" ++ request'.id.simple)), true⟩ := by
    rw [← hj, ← hj']
    exact mounts_request request'
  have hname : j'.name = "exec-" ++ request'.id.simple := by
    rw [← hj']
    unfold studentJob
    cases Lease.seed lease with
    | some seed => rfl
    | none => rfl
  rw [← hmounts, ← hname]
  exact hsame

/-- **The job of a command** depends on the lease by its token, its assignment and
its cache only. It writes to no claim, none of its mounts covers another, and
requests differ in their directory, command, time and name. -/
theorem student_jobs_isolated (scripts : Scripts) (config : Config) (now : Time) :
    (∀ lease lease' : Lease, config.approve now lease = .ok () →
      config.approve now lease' = .ok () → lease.leaseToken = lease'.leaseToken →
      lease.revision.assignment = lease'.revision.assignment →
      Lease.seed lease = Lease.seed lease' → ∀ request remaining, request.validate = .ok () →
        ∃ j, executionJob scripts config now lease request remaining = .ok j ∧
          executionJob scripts config now lease' request remaining = .ok j) ∧
    (∀ lease request remaining j,
      executionJob scripts config now lease request remaining = .ok j →
        (∀ path, ¬j.Mounts path true) ∧
        j.pod.container.volumeMounts.Pairwise fun m n => PathsApart m.mountPath n.mountPath) ∧
    ∀ lease request request' remaining j j',
      executionJob scripts config now lease request remaining = .ok j →
      executionJob scripts config now lease request' remaining = .ok j' →
      j' = { j with
        name := "exec-" ++ request'.id.simple
        activeDeadlineSeconds := j'.activeDeadlineSeconds
        pod := { j.pod with container := { j.pod.container with
          command := j'.pod.container.command
          env := j'.pod.container.env
          volumeMounts := j.pod.container.volumeMounts.set 1 ⟨"source", "/input",
            some (runPath lease ("requests/" ++ request'.id.simple)), true⟩ } } } := by
  refine ⟨?_, ?_, ?_⟩
  · intro lease lease' happrove happrove' htoken hassignment hseed request remaining hrequest
    exact ⟨_, executionJob_ok.mpr ⟨hrequest, happrove, studentJob_congr htoken hassignment hseed⟩,
      executionJob_ok.mpr ⟨hrequest, happrove', rfl⟩⟩
  · intro lease request remaining j hj
    obtain ⟨_, happrove, rfl⟩ := executionJob_ok.mp hj
    obtain ⟨registry, happroved⟩ := approved happrove
    constructor
    · intro path hm
      obtain ⟨m, _, _, _, hw⟩ := hm.source oneClaim_studentJob
      rw [Bool.true_or] at hw
      exact absurd hw (by decide)
    · rw [volumeMounts_studentJob]
      exact pairwise_studentJob happroved.cache
  · intro lease request request' remaining j j' hj hj'
    obtain ⟨_, _, hj⟩ := executionJob_ok.mp hj
    obtain ⟨_, _, hj'⟩ := executionJob_ok.mp hj'
    exact studentJob_request hj hj'

end Jobs

end Executor

/-! ### The jobs of a small exercise -/

namespace Sample

open Executor

attribute [local instance] Sha256.standard

def jobScripts : Scripts := ⟨"capture", "copy"⟩

def gradedLease : Lease := leaseOf sharedRevision openTemplate

/-- The lease of a private run, by the same token. -/
def privateLease : Lease := { gradedLease with sourceDigest := "d", baseline := some ⟨1, 0, -1⟩ }

def commandRequest : ExecutionRequest := ⟨7, ["/bin/true"], "", 30⟩

theorem approve_gradedLease : sharedConfig.approve 0 gradedLease = .ok () :=
  approve_leaseOf openTemplate sharedRevision_valid rfl rfl

theorem approve_privateLease : sharedConfig.approve 0 privateLease = .ok () := by
  have hpublic := approve_gradedLease
  unfold Config.approve at hpublic ⊢
  obtain ⟨_, hdigest, h⟩ := bind_ok.mp hpublic
  obtain ⟨_, hvalid, hrest⟩ := bind_ok.mp h
  exact bind_ok.mpr ⟨(), hdigest, bind_ok.mpr ⟨(), hvalid, bind_ok.mpr ⟨(), by decide, hrest⟩⟩⟩

/-- The job of the script of the grader. -/
def gradedScript : Job :=
  withController (withChecker (sandbox jobScripts sharedConfig gradedLease
    (jobName gradedLease "private-check") "private-check" 1) gradedLease sharedGrader) gradedLease
    sharedGrader ["/g"]

theorem command_ready : commandRequest.validate = .ok () := by decide

/-- The lease of another run of the exercise. -/
def neighbourLease : Lease := { gradedLease with runId := 4, leaseToken := 5 }

theorem approve_neighbourLease : sharedConfig.approve 0 neighbourLease = .ok () := by
  have hgraded := approve_gradedLease
  unfold Config.approve at hgraded ⊢
  exact hgraded

/-- The script of the grader in one run, and a command in another. -/
theorem made_graded : ∃ j k : Job, Made jobScripts sharedConfig j (.run 2) ∧
    Made jobScripts sharedConfig k (.run 5) ∧
    j.Mounts (some (runPath gradedLease "control")) true ∧
    k.Mounts (some (runPath neighbourLease "source")) false := by
  have hscript : controllerJob jobScripts sharedConfig 0 gradedLease 1 = .ok gradedScript :=
    controllerJob_ok.mpr ⟨approve_gradedLease, sharedGrader, ⟨["/g"], none⟩, ["/g"], rfl, rfl, rfl,
      rfl⟩
  have hcommand : executionJob jobScripts sharedConfig 0 neighbourLease commandRequest 1 =
      .ok (studentJob jobScripts sharedConfig neighbourLease commandRequest 1) :=
    executionJob_ok.mpr ⟨command_ready, approve_neighbourLease, rfl⟩
  refine ⟨_, _, .controller hscript, .student hcommand, ?_, ?_⟩
  · exact ⟨⟨"source", "/control", some (runPath gradedLease "control"), false⟩,
      .tail _ (.tail _ (.tail _ (.head _))), _, .head _, rfl, _, _, rfl, rfl, rfl⟩
  · refine ⟨⟨"source", "/source", some (runPath neighbourLease "source"), true⟩, ?_,
      ⟨"source", .persistentVolumeClaim sharedConfig.sourcePvc true⟩, ?_, rfl, _, _, rfl, rfl, rfl⟩
    · rw [volumeMounts_studentJob]
      exact .head _
    · rw [volumes_studentJob]
      exact .head _

/-- **The jobs of two runs lie apart.** -/
theorem jobs_apart_graded : ∃ j k : Job, j.Confined sharedConfig ∧ k.Confined sharedConfig ∧
    j.Mounts (some (runPath gradedLease "control")) true ∧
    k.Mounts (some (runPath neighbourLease "source")) false ∧
    PathsApart (runPath gradedLease "control") (runPath neighbourLease "source") := by
  obtain ⟨j, k, hj, hk, hcontrol, hsource⟩ := made_graded
  obtain ⟨hconfined, _, happart⟩ := jobs_apart jobScripts sharedConfig hj hk
  have hne : Owner.run 2 ≠ Owner.run 5 := fun h => absurd (Owner.run.inj h) (by decide)
  exact ⟨j, k, hconfined, (jobs_apart jobScripts sharedConfig hk hj).1, hcontrol, hsource,
    (happart _ _ _ hcontrol hsource).resolve_right fun h => hne h.1⟩

/-- The private run and the public one have the same job for the command. -/
theorem student_jobs_isolated_private : ∃ j,
    executionJob jobScripts sharedConfig 0 gradedLease commandRequest 1 = .ok j ∧
    executionJob jobScripts sharedConfig 0 privateLease commandRequest 1 = .ok j ∧
    ∀ path, ¬j.Mounts path true := by
  obtain ⟨hsame, hisolated, _⟩ := student_jobs_isolated jobScripts sharedConfig 0
  have htoken : gradedLease.leaseToken = privateLease.leaseToken := by rw [privateLease]
  have hrevision : gradedLease.revision = privateLease.revision := by rw [privateLease]
  have hassignment : gradedLease.revision.assignment = privateLease.revision.assignment := by
    rw [hrevision]
  have hseed : Lease.seed gradedLease = Lease.seed privateLease := by
    rw [Lease.seed, Lease.seed, hrevision]
  obtain ⟨j, hj, hj'⟩ := hsame gradedLease privateLease approve_gradedLease approve_privateLease
    htoken hassignment hseed commandRequest 1 command_ready
  exact ⟨j, hj, hj', (hisolated gradedLease commandRequest 1 j hj).1⟩

end Sample

end Grading

import SrgGrading.Executor.Preparation

/-!
# Prepared caches

What a preparation relies on and guarantees, its rules request by request, and
what follows for any number of preparations in any order.

* `Volume.Sound`: every reference names a seed that is ready, every cache is an
  export that was sealed.
* `prepare_does`: what a preparation does to the volume, whatever the others do.
* `prepare_safe`: references and returned seeds are ready in every run.
-/

open Fallible Program

namespace Grading

namespace Caching

/-! ### Ready seeds -/

section Safety
variable [Sha256] (config : Executor.Config) (decode : List UInt8 → Option Seed)

/-- The cache of a seed is complete and sealed, and the seed is the digest of its
manifest. -/
structure Ready (v : Volume) (key : String) (seed : Seed) : Prop where
  inputKey : seed.inputKey = key
  valid : seed.validate = .ok ()
  location : seed.namespaceName = config.namespaceName ∧ seed.sourcePvc = config.sourcePvc
  cache : ∃ root, v.caches seed.digest = some root ∧ root.sealed = root ∧
    ∃ bytes, manifest root seed.config key = .ok bytes ∧ digest bytes = seed.digest

/-- A cache is what a preparation exported, sealed but for the mode of its root. -/
def Exported (v : Volume) (name : String) (root : Node) : Prop :=
  root.sealed = root.chmod 365 ∧ ∃ p ∈ v.calls, ∃ key bytes, p.key = .ok key ∧
    manifest root p.caching key = .ok bytes ∧ digest bytes = name

structure Volume.Sound (v : Volume) : Prop where
  references : ∀ key bytes, v.references key = some bytes →
    ∃ seed, decode bytes = some seed ∧ Ready config v key seed
  caches : ∀ name root, v.caches name = some root → Exported v name root
  builds : ∀ id build, v.builds id = some build → ∃ q ∈ v.calls, q.id = id

/-- Calls are only added, and a cache that is there only changes its mode. -/
structure Grows (v v' : Volume) : Prop where
  calls : ∀ p ∈ v.calls, p ∈ v'.calls
  caches : ∀ name root, v.caches name = some root →
    ∃ root', v'.caches name = some root' ∧ (root' = root ∨ root' = root.chmod 365)

/-- What is under an id is as it was. -/
def SameUnder (id : Uuid) (v v' : Volume) : Prop :=
  v'.builds id = v.builds id ∧ ∀ key, v'.temps (key, id) = v.temps (key, id)

/-- What a preparation relies on the others to do. -/
structure Rely (p : Preparation) (v v' : Volume) : Prop where
  sound : v'.Sound config decode
  grows : Grows v v'
  own : SameUnder p.id v v'

/-- What a preparation guarantees the others. -/
structure Guar (p : Preparation) (v v' : Volume) : Prop where
  sound : v'.Sound config decode
  grows : Grows v v'
  others : ∀ id, id ≠ p.id → SameUnder id v v'

variable {config decode}

/-! ### Trees -/

omit [Sha256] in
theorem sealed_sealed (node : Node) : node.sealed.sealed = node.sealed := by
  induction node using Node.induct with
  | file mode nlink mtime bytes =>
    rw [Node.sealed, Node.sealed]
    cases executable mode <;> rfl
  | dir mode mtime entries ih =>
    rw [Node.sealed, Node.sealed, sealedEntries_eq_map, sealedEntries_eq_map, List.map_map]
    congr 1
    refine List.map_congr_left fun e he => ?_
    rw [Function.comp_apply, ih e he]
  | special => rfl
  | unnamed => rfl

omit [Sha256] in
theorem sealed_chmod {root : Node} (h : root.sealed = root.chmod 365) :
    (root.chmod 365).sealed = root.chmod 365 := by
  rw [← h]
  exact sealed_sealed root

omit [Sha256] in
theorem directory_chmod (mode : Nat) (root : Node) (name : String) :
    (root.chmod mode).directory name = root.directory name := by
  cases root <;> rfl

/-- The manifest does not tell the mode of the root. -/
theorem manifest_chmod (mode : Nat) (root : Node) (caching : Caching) (key : String) :
    manifest (root.chmod mode) caching key = manifest root caching key := by
  have hscan : ∀ artifacts entries, scanArtifacts (root.chmod mode) artifacts entries =
      scanArtifacts root artifacts entries := by
    intro artifacts
    induction artifacts with
    | nil => exact fun _ => rfl
    | cons artifact rest ih =>
      intro entries
      rw [scanArtifacts, scanArtifacts, directory_chmod]
      congr 1
      funext node
      congr 1
      funext s
      exact ih s.entries
  rw [manifest, manifest, hscan]

omit [Sha256] in
theorem artifacts_ne_nil {caching : Caching} (h : caching.validate = .ok ()) :
    caching.artifacts ≠ [] := by
  simp only [Caching.validate, bind_ok, check_ok, Bool.and_eq_true, decide_eq_true_eq] at h
  obtain ⟨_, _, _, _, _, _, _, _, _, _, _, _, _, ⟨hne, _⟩, _⟩ := h
  exact hne

theorem Preparation.valid {p : Preparation} {key : String} (h : p.key = .ok key) :
    p.caching.validate = .ok () := by
  rw [Preparation.key, Caching.key] at h
  exact (bind_ok.mp h).choose_spec.1

/-- A cache is not empty. -/
theorem Exported.not_vacant {v : Volume} {name : String} {root : Node}
    (h : Exported v name root) : Node.vacant (some root) = false := by
  obtain ⟨_, p, _, key, bytes, hkey, hmanifest, _⟩ := h
  obtain ⟨entries, hscan, _⟩ := manifest_ok.mp hmanifest
  have hne := artifacts_ne_nil (Preparation.valid hkey)
  cases hlist : p.caching.artifacts with
  | nil => exact absurd hlist hne
  | cons artifact rest =>
    rw [hlist] at hscan
    simp only [scanArtifacts, bind_ok] at hscan
    obtain ⟨node, hnode, _⟩ := hscan
    cases root with
    | dir mode mtime entries =>
      cases entries with
      | nil => cases hnode
      | cons e rest => rfl
    | _ => rfl



/-! ### What lasts -/

omit [Sha256] in
theorem Grows.refl (v : Volume) : Grows v v :=
  ⟨fun _ h => h, fun _ root h => ⟨root, h, Or.inl rfl⟩⟩

omit [Sha256] in
theorem SameUnder.refl (id : Uuid) (v : Volume) : SameUnder id v v := ⟨rfl, fun _ => rfl⟩

/-- A fact about the caches only. -/
def Lasting (config : Executor.Config) (decode : List UInt8 → Option Seed)
    (F : Volume → Prop) : Prop :=
  ∀ v v', v.Sound config decode → Grows v v' → F v → F v'

/-- A fact about the caches and what is under an id. -/
def LastingUnder (config : Executor.Config) (decode : List UInt8 → Option Seed) (id : Uuid)
    (F : Volume → Prop) : Prop :=
  ∀ v v', v.Sound config decode → Grows v v' → SameUnder id v v' → F v → F v'

theorem Lasting.under {F : Volume → Prop} (h : Lasting config decode F) (id : Uuid) :
    LastingUnder config decode id F := fun v v' hs hg _ hF => h v v' hs hg hF

theorem Lasting.and {F G : Volume → Prop} (hF : Lasting config decode F)
    (hG : Lasting config decode G) : Lasting config decode fun v => F v ∧ G v :=
  fun v v' hs hg h => ⟨hF v v' hs hg h.1, hG v v' hs hg h.2⟩

theorem lasting_true : Lasting config decode fun _ => True := fun _ _ _ _ _ => trivial

/-- The cache is there, sealed with its root. -/
def Shut (name : String) (v : Volume) : Prop :=
  ∃ root, v.caches name = some root ∧ root.sealed = root

theorem Shut.lasting (name : String) : Lasting config decode (Shut name) := by
  rintro v v' hs hg ⟨root, hroot, hshut⟩
  obtain ⟨root', hroot', heq | heq⟩ := hg.caches name root hroot
  · exact ⟨root', hroot', by rw [heq, hshut]⟩
  · refine ⟨root', hroot', ?_⟩
    rw [heq]
    exact sealed_chmod (hs.caches name root hroot).1

/-- What `verify` finds. -/
structure Verified (config : Executor.Config) (seed : Seed) (v : Volume) : Prop where
  valid : seed.validate = .ok ()
  location : seed.namespaceName = config.namespaceName ∧ seed.sourcePvc = config.sourcePvc
  cache : ∃ root, v.caches seed.digest = some root ∧
    ∃ bytes, manifest root seed.config seed.inputKey = .ok bytes ∧ digest bytes = seed.digest

theorem Verified.lasting (seed : Seed) : Lasting config decode (Verified config seed) := by
  rintro v v' hs hg ⟨hvalid, hlocation, root, hroot, bytes, hbytes, hdigest⟩
  obtain ⟨root', hroot', heq⟩ := hg.caches seed.digest root hroot
  refine ⟨hvalid, hlocation, root', hroot', bytes, ?_, hdigest⟩
  rcases heq with heq | heq
  · rw [heq, hbytes]
  · rw [heq, manifest_chmod, hbytes]

theorem Ready.lasting (key : String) (seed : Seed) :
    Lasting config decode fun v => Ready config v key seed := by
  rintro v v' hs hg ⟨hkey, hvalid, hlocation, root, hroot, hshut, bytes, hbytes, hdigest⟩
  refine ⟨hkey, hvalid, hlocation, root, ?_, hshut, bytes, hbytes, hdigest⟩
  obtain ⟨root', hroot', heq | heq⟩ := hg.caches seed.digest root hroot
  · rw [hroot', heq]
  · rw [hroot', heq, ← (hs.caches seed.digest root hroot).1, hshut]

/-- A seed that was verified is ready once its cache is shut. -/
theorem Verified.ready {v : Volume} {seed : Seed} (h : Verified config seed v)
    (hshut : Shut seed.digest v) : Ready config v seed.inputKey seed := by
  obtain ⟨hvalid, hlocation, root, hroot, hcache⟩ := h
  obtain ⟨root', hroot', hsealed⟩ := hshut
  rw [hroot, Option.some_inj] at hroot'
  exact ⟨rfl, hvalid, hlocation, root, hroot, hroot' ▸ hsealed, hcache⟩

theorem Exported.mono {v v' : Volume} {name : String} {root : Node} (h : Exported v name root)
    (hcalls : ∀ p ∈ v.calls, p ∈ v'.calls) : Exported v' name root := by
  obtain ⟨hsealed, p, hp, hrest⟩ := h
  exact ⟨hsealed, p, hcalls p hp, hrest⟩

/-! ### Requests under an id -/

/-- A request that changes no more than what is under an id, the jobs and the locks. -/
def Request.Own (id : Uuid) : {β : Type} → Request β → Prop
  | _, .createBuild i => i = id
  | _, .podsGone (.gradingLease i) => i = id
  | _, .createExports i => i = id
  | _, .moveArtifact i _ => i = id
  | _, .sealExports i _ _ => i = id
  | _, .writeTemp _ i _ => i = id
  | _, .moveExports _ _ => False
  | _, .chmodCache _ => False
  | _, .moveTemp _ _ => False
  | _, _ => True

/-- A step that changes no more than what is under an id, the jobs and the locks. -/
structure Private (id : Uuid) (v v' : Volume) : Prop where
  references : v'.references = v.references
  caches : v'.caches = v.caches
  calls : v'.calls = v.calls
  others : ∀ i, i ≠ id → SameUnder i v v'

omit [Sha256] in
theorem Private.refl (id : Uuid) (v : Volume) : Private id v v :=
  ⟨rfl, rfl, rfl, fun i _ => SameUnder.refl i v⟩

omit [Sha256] in
theorem Private.updateBuilds (id : Uuid) (v : Volume) (b : Option Build) :
    Private id v { v with builds := Function.update v.builds id b } :=
  ⟨rfl, rfl, rfl, fun _ hi => ⟨Function.update_of_ne hi _ _, fun _ => rfl⟩⟩

omit [Sha256] in
theorem Private.inBuild {α : Type} (id : Uuid) (v : Volume)
    (f : Build → Except Error (α × Build)) : Private id v (v.inBuild id f).2 := by
  rw [Volume.inBuild]
  split
  · exact Private.updateBuilds id v _
  · exact Private.refl id v

omit [Sha256] in
theorem Private.grows {id : Uuid} {v v' : Volume} (h : Private id v v') : Grows v v' := by
  refine ⟨fun p hp => ?_, fun name root hroot => ⟨root, ?_, Or.inl rfl⟩⟩
  · rw [h.calls]
    exact hp
  · rw [h.caches]
    exact hroot

/-- What a step keeps that grows the volume and refers to nothing but what is ready. -/
theorem Volume.Sound.mono {v v' : Volume} (hs : v.Sound config decode) (hg : Grows v v')
    (hreferences : ∀ key bytes, v'.references key = some bytes → v.references key = some bytes ∨
      ∃ seed, decode bytes = some seed ∧ Ready config v' key seed)
    (hcaches : ∀ name root, v'.caches name = some root → v.caches name = some root ∨
      Exported v' name root)
    (hbuilds : ∀ id build, v'.builds id = some build → v.builds id = some build ∨
      ∃ q ∈ v'.calls, q.id = id) : v'.Sound config decode := by
  refine ⟨fun key bytes hkey => ?_, fun name root hroot => ?_, fun id build hbuild => ?_⟩
  · rcases hreferences key bytes hkey with hold | hnew
    · obtain ⟨seed, hdecode, hready⟩ := hs.references key bytes hold
      exact ⟨seed, hdecode, Ready.lasting key seed v v' hs hg hready⟩
    · exact hnew
  · rcases hcaches name root hroot with hold | hnew
    · exact (hs.caches name root hold).mono hg.calls
    · exact hnew
  · rcases hbuilds id build hbuild with hold | hnew
    · obtain ⟨q, hq, hid⟩ := hs.builds id build hold
      exact ⟨q, hg.calls q hq, hid⟩
    · exact hnew

theorem Private.guar {p : Preparation} {v v' : Volume} (h : Private p.id v v')
    (hs : v.Sound config decode) (hp : ∃ q ∈ v.calls, q.id = p.id) : Guar config decode p v v' := by
  refine ⟨hs.mono h.grows (fun key bytes hkey => Or.inl ?_) (fun name root hroot => Or.inl ?_)
    (fun id build hbuild => ?_), h.grows, h.others⟩
  · rw [← h.references]
    exact hkey
  · rw [← h.caches]
    exact hroot
  · rw [h.calls]
    by_cases hid : id = p.id
    · exact Or.inr (hid ▸ hp)
    · exact Or.inl ((h.others id hid).1 ▸ hbuild)

theorem private_of_own {id : Uuid} {β : Type} {r : Request β} (hr : r.Own id) (o : Outside)
    (v : Volume) : Private id v (v.answer o r).2 := by
  cases r with
  | createBuild i =>
    cases hr
    change Private id v (v.createBuild id o.time)
    rw [Volume.createBuild]
    split
    · exact Private.updateBuilds id v _
    · exact Private.refl id v
  | podsGone selector =>
    cases selector with
    | cacheKey label => exact Private.refl id v
    | gradingLease i =>
      cases hr
      exact Private.updateBuilds id v _
  | createExports i =>
    cases hr
    exact Private.inBuild id v _
  | moveArtifact i artifact =>
    cases hr
    exact Private.inBuild id v _
  | sealExports i caching key =>
    cases hr
    exact Private.inBuild id v _
  | writeTemp key i bytes =>
    cases hr
    refine ⟨rfl, rfl, rfl, fun i hi => ⟨rfl, fun k => Function.update_of_ne (fun heq => ?_) _ _⟩⟩
    exact hi (Prod.mk.inj heq).2
  | tryLock key i =>
    change Private id v (v.tryLock key i).2
    rw [Volume.tryLock]
    split
    · exact ⟨rfl, rfl, rfl, fun i _ => SameUnder.refl i v⟩
    · exact Private.refl id v
  | moveExports i name => cases hr
  | chmodCache name => cases hr
  | moveTemp key i => cases hr
  | createJob i label => exact ⟨rfl, rfl, rfl, fun i _ => SameUnder.refl i v⟩
  | deleteJob i => exact ⟨rfl, rfl, rfl, fun i _ => SameUnder.refl i v⟩
  | _ => exact Private.refl id v

/-! ### The rules of a preparation -/

/-- Where a preparation stands. -/
def Here (config : Executor.Config) (decode : List UInt8 → Option Seed) (p : Preparation)
    (F : Volume → Prop) (v : Volume) : Prop :=
  v.Sound config decode ∧ p ∈ v.calls ∧ F v

/-- The triples of the requests of a preparation. -/
abbrev Does (config : Executor.Config) (decode : List UInt8 → Option Seed) (p : Preparation)
    {α : Type} (F : Volume → Prop) (program : Prepare α) (G : α → Volume → Prop) : Prop :=
  Triple (serve p) (Rely config decode p) (Guar config decode p)
    (Here config decode p F) program fun a => Here config decode p (G a)

variable {p : Preparation} {F : Volume → Prop}

theorem stable_here (hF : LastingUnder config decode p.id F) :
    Stable (Rely config decode p) (Here config decode p F) :=
  fun _ _ hrely h => ⟨hrely.sound, hrely.grows.calls p h.2.1,
    hF _ _ h.1 hrely.grows hrely.own h.2.2⟩

theorem request_does {β : Type} {r : Request β} {G : β → Volume → Prop}
    (hG : ∀ a, LastingUnder config decode p.id (G a))
    (h : ∀ o v, v.Sound config decode → p ∈ v.calls → F v →
      Guar config decode p v (v.answer o r).2 ∧ G (v.answer o r).1 (v.answer o r).2) :
    Does config decode p F (request r) G := by
  refine Triple.request (fun a => stable_here (hG a)) fun v a v' hv ⟨o, hr⟩ => ?_
  obtain ⟨hs, hp, hF⟩ := hv
  obtain ⟨hguar, hGa⟩ := h o v hs hp hF
  rw [hr] at hguar hGa
  exact ⟨hguar, hguar.sound, hguar.grows.calls p hp, hGa⟩

/-- What lasts is kept by the requests under one's own id. -/
theorem own_does {β : Type} {r : Request β} (hr : r.Own p.id) (hF : Lasting config decode F) :
    Does config decode p F (request r) fun _ => F := by
  refine request_does (fun _ => hF.under p.id) fun o v hs hp hFv => ?_
  have hprivate := private_of_own hr o v
  exact ⟨hprivate.guar hs ⟨p, hp, rfl⟩, hF _ _ hs hprivate.grows hFv⟩

theorem lift_does {α β : Type} {x : Except Error α} {f : α → Prepare β} {G : β → Volume → Prop}
    (h : ∀ a, x = .ok a → Does config decode p F (f a) G) :
    Does config decode p F (lift x >>= f) G :=
  Triple.bind_lift h

/-- A request that may be refused. -/
theorem ask_does {α : Type} {r : Request (Except Error α)} {G : α → Volume → Prop}
    (hG : ∀ a, LastingUnder config decode p.id (G a))
    (h : ∀ o v, v.Sound config decode → p ∈ v.calls → F v →
      Guar config decode p v (v.answer o r).2 ∧
        ∀ a, (v.answer o r).1 = .ok a → G a (v.answer o r).2) :
    Does config decode p F (ask r) G := by
  refine Triple.ask (fun a => stable_here (hG a)) fun v x v' hv ⟨o, hr⟩ => ?_
  obtain ⟨hs, hp, hF⟩ := hv
  obtain ⟨hguar, hGa⟩ := h o v hs hp hF
  rw [hr] at hguar hGa
  exact ⟨hguar, fun a ha => ⟨hguar.sound, hguar.grows.calls p hp, hGa a ha⟩⟩

theorem ask_own_does {α : Type} {r : Request (Except Error α)} (hr : r.Own p.id)
    (hF : Lasting config decode F) : Does config decode p F (ask r) fun _ => F := by
  refine ask_does (fun _ => hF.under p.id) fun o v hs hp hFv => ?_
  have hprivate := private_of_own hr o v
  exact ⟨hprivate.guar hs ⟨p, hp, rfl⟩, fun _ _ => hF _ _ hs hprivate.grows hFv⟩

/-! ### Verifying and running -/

omit [Sha256] in
theorem chmod_chmod (a b : Nat) (node : Node) : (node.chmod a).chmod b = node.chmod b := by
  cases node <;> rfl

/-- What was read under a name is still there, up to its mode. -/
def Found (name : String) (data : Option Node) (v : Volume) : Prop :=
  ∀ root, data = some root →
    ∃ root', v.caches name = some root' ∧ (root' = root ∨ root' = root.chmod 365)

theorem Found.lasting (name : String) (data : Option Node) :
    Lasting config decode (Found name data) := by
  intro v v' _ hg h root hdata
  obtain ⟨root₁, hroot₁, heq₁⟩ := h root hdata
  obtain ⟨root₂, hroot₂, heq₂⟩ := hg.caches name root₁ hroot₁
  refine ⟨root₂, hroot₂, ?_⟩
  rcases heq₁ with rfl | rfl
  · exact heq₂
  · rw [chmod_chmod, or_self] at heq₂
    exact Or.inr heq₂

theorem verify_does (hF : Lasting config decode F) (seed : Seed) :
    Does config decode p F (verify config seed) fun _ v => F v ∧ Verified config seed v := by
  refine lift_does fun _ hvalid => lift_does fun _ hlocation => ?_
  rw [check_ok, Bool.and_eq_true, decide_eq_true_eq, decide_eq_true_eq] at hlocation
  refine Triple.bind (request_does (G := fun data v => F v ∧ Found seed.digest data v) ?_ ?_)
    fun data => ?_
  · exact fun data => (hF.and (Found.lasting seed.digest data)).under p.id
  · intro o v hs hp hFv
    have hread : (v.answer o (.readCache seed.digest)) = (v.caches seed.digest, v) := rfl
    rw [hread]
    exact ⟨(Private.refl p.id v).guar hs ⟨p, hp, rfl⟩, hFv, fun root hroot => ⟨root, hroot, Or.inl rfl⟩⟩
  · refine Triple.lift.mono (fun _ h => h) fun _ v hv => ?_
    obtain ⟨⟨hs, hp, hFv, hfound⟩, hok⟩ := hv
    simp only [bind_ok, fetchOne_ok, check_ok, decide_eq_true_eq] at hok
    obtain ⟨root, hdata, bytes, hbytes, hdigest⟩ := hok
    obtain ⟨root', hroot', heq⟩ := hfound root hdata
    refine ⟨hs, hp, hFv, hvalid, hlocation, root', hroot', bytes, ?_, hdigest⟩
    rcases heq with rfl | rfl
    · exact hbytes
    · rw [manifest_chmod, hbytes]

theorem stopped_does (hF : Lasting config decode F) (id : Uuid) {selector : Selector}
    (hselector : (Request.podsGone selector).Own p.id) :
    Does config decode p F (stopped id selector) fun _ => F :=
  Triple.bind (own_does trivial hF) fun _ => Triple.bind (own_does hselector hF) fun _ =>
    Triple.lift.mono (fun _ h => h) fun _ _ h => h.1

theorem runRecipe_does (hF : Lasting config decode F) (label : String) :
    Does config decode p F (runRecipe p label) fun _ => F := by
  refine Triple.bind (own_does rfl hF) fun _ => ?_
  refine Triple.bind (ask_own_does trivial hF) fun _ => ?_
  refine Triple.bind (ask_own_does trivial hF) fun _ => ?_
  refine Triple.bind (own_does trivial hF) fun old => ?_
  have hkey : (Request.podsGone (.cacheKey label)).Own p.id := trivial
  refine Triple.bind (Triple.each (I := fun _ => Here config decode p F)
    (fun id _ => stopped_does hF id hkey) old) fun _ => ?_
  refine Triple.bind (own_does trivial hF) fun _ => ?_
  refine Triple.bind (own_does trivial hF) fun outcome => ?_
  refine Triple.bind (stopped_does hF p.id rfl) fun _ => ?_
  exact Triple.lift.mono (fun _ h => h) fun _ _ h => h.1

/-! ### Capturing -/

/-- A directory of artifacts. -/
def Contained (caching : Caching) (exports : Node) : Prop :=
  ∃ mode mtime entries, exports = .dir mode mtime entries ∧
    ∀ e ∈ entries, (caching.artifacts.any fun a => a.name = e.1) = true

omit [Sha256] in
theorem Contained.add {caching : Caching} {exports child : Node} {artifact : CacheArtifact}
    (h : Contained caching exports) (hmem : artifact ∈ caching.artifacts) :
    Contained caching (exports.add artifact.name child) := by
  obtain ⟨mode, mtime, entries, rfl, hall⟩ := h
  refine ⟨mode, mtime, entries ++ [(artifact.name, child)], rfl, fun e he => ?_⟩
  rcases List.mem_append.mp he with he | he
  · exact hall e he
  · rw [List.mem_singleton.mp he, List.any_eq_true]
    exact ⟨artifact, hmem, decide_eq_true rfl⟩

omit [Sha256] in
/-- Sealing a directory of artifacts leaves out the mode of the root only. -/
theorem Contained.sealed {caching : Caching} {exports : Node} (h : Contained caching exports) :
    (sealArtifacts caching exports).sealed = (sealArtifacts caching exports).chmod 365 := by
  obtain ⟨mode, mtime, entries, rfl, hall⟩ := h
  have hentries : (entries.map fun e => if (caching.artifacts.any fun a => a.name = e.1) = true
      then (e.1, e.2.sealed) else e) = entries.map fun e => (e.1, e.2.sealed) :=
    List.map_congr_left fun e he => if_pos (hall e he)
  rw [sealArtifacts, hentries, Node.sealed, Node.chmod, sealedEntries_eq_map, List.map_map]
  congr 1
  exact List.map_congr_left fun e _ => congrArg (Prod.mk e.1) (sealed_sealed e.2)

omit [Sha256] in
theorem inBuild_ok {α : Type} {v : Volume} {id : Uuid} {f : Build → Except Error (α × Build)}
    {a : α} (h : (v.inBuild id f).1 = .ok a) : ∃ b b', v.builds id = some b ∧ f b = .ok (a, b') ∧
      (v.inBuild id f).2.builds id = some b' := by
  rw [Volume.inBuild] at h ⊢
  cases hx : fetchOne notFound (v.builds id) >>= f with
  | error e =>
    rw [hx] at h
    cases h
  | ok r =>
    obtain ⟨a', b'⟩ := r
    rw [hx] at h
    cases h
    obtain ⟨b, hb, hf⟩ := bind_ok.mp hx
    exact ⟨b, b', fetchOne_ok.mp hb, hf, Function.update_self _ _ _⟩

/-- A request in the build directory of a preparation. -/
theorem inBuild_does {α : Type} {r : Request (Except Error α)} {f : Outside → Build → Except Error (α × Build)}
    {I : Build → Prop} {J : α → Build → Prop}
    (hr : ∀ (o : Outside) (v : Volume), v.answer o r = v.inBuild p.id (f o))
    (h : ∀ o b a b', I b → f o b = .ok (a, b') → J a b') :
    Does config decode p (fun v => ∃ b, v.builds p.id = some b ∧ I b) (ask r)
      fun a v => ∃ b, v.builds p.id = some b ∧ J a b := by
  refine ask_does (fun a v v' _ _ hsame hb => ?_) fun o v hs hp hF => ?_
  · rw [hsame.1]
    exact hb
  · rw [hr]
    refine ⟨(Private.inBuild p.id v (f o)).guar hs ⟨p, hp, rfl⟩, fun a ha => ?_⟩
    obtain ⟨b, b', hb, hf, hb'⟩ := inBuild_ok ha
    obtain ⟨b₀, hb₀, hI⟩ := hF
    rw [hb, Option.some_inj] at hb₀
    exact ⟨b', hb', h o b a b' (hb₀ ▸ hI) hf⟩

/-- What the exports of a preparation are before they become a cache. -/
structure Sealed (caching : Caching) (key hash : String) (b : Build) : Prop where
  exports : ∃ root, b.exports = some root ∧ root.sealed = root.chmod 365 ∧
    ∃ bytes, manifest root caching key = .ok bytes ∧ digest bytes = hash

/-- The exports of a preparation, and what they are. -/
def Captured (p : Preparation) (key hash : String) (v : Volume) : Prop :=
  ∃ b, v.builds p.id = some b ∧ Sealed p.caching key hash b

theorem Captured.lasting (key hash : String) :
    LastingUnder config decode p.id (Captured p key hash) := by
  intro v v' _ _ hsame h
  rw [Captured, hsame.1]
  exact h

/-- The artifacts that were moved, when `rest` is left to do. -/
def Collected (p : Preparation) (rest : List CacheArtifact) (v : Volume) : Prop :=
  ∃ b, v.builds p.id = some b ∧ (∃ exports, b.exports = some exports ∧ Contained p.caching exports) ∧
    rest ⊆ p.caching.artifacts

theorem moveArtifact_does (artifact : CacheArtifact) (rest : List CacheArtifact) :
    Does config decode p (Collected p (artifact :: rest)) (ask (.moveArtifact p.id artifact))
      fun _ => Collected p rest := by
  refine inBuild_does (f := fun _ => Build.moveArtifact artifact) (fun _ _ => rfl) ?_
  rintro _ b _ b' ⟨⟨exports, hexports, hcontained⟩, hsub⟩ hmove
  simp only [Build.moveArtifact, bind_ok, fetchOne_ok, pure_ok, Prod.mk.injEq] at hmove
  obtain ⟨exports', hexports', ⟨taken, output⟩, _, _, _, _, rfl⟩ := hmove
  rw [hexports, Option.some_inj] at hexports'
  subst hexports'
  rw [List.cons_subset] at hsub
  exact ⟨⟨_, rfl, hcontained.add hsub.1⟩, hsub.2⟩

theorem capture_does (key : String) :
    Does config decode p (fun _ => True) (capture p key) fun hash => Captured p key hash := by
  have hcreate : Does config decode p (fun _ => True) (ask (.createExports p.id))
      fun _ => Collected p p.caching.artifacts := by
    refine ask_does (fun _ v v' _ _ hsame h => ?_) fun o v hs hp _ => ?_
    · rw [Collected, hsame.1]
      exact h
    · refine ⟨(Private.inBuild p.id v _).guar hs ⟨p, hp, rfl⟩, fun a ha => ?_⟩
      obtain ⟨b, b', _, hf, hb'⟩ := inBuild_ok ha
      simp only [Build.createExports, bind_ok, pure_ok, Prod.mk.injEq] at hf
      obtain ⟨_, _, _, rfl⟩ := hf
      have hnone : ∀ e ∈ ([] : List (String × Node)),
          (p.caching.artifacts.any fun a => a.name = e.1) = true :=
        fun _ he => absurd he List.not_mem_nil
      exact ⟨_, hb', ⟨_, rfl, o.mode, o.time, [], rfl, hnone⟩, List.Subset.refl _⟩
  have hseal : Does config decode p (Collected p []) (ask (.sealExports p.id p.caching key))
      fun bytes => Captured p key (digest bytes) := by
    refine inBuild_does (f := fun _ => Build.sealExports p.caching key) (fun _ _ => rfl) ?_
    rintro _ b bytes b' ⟨⟨exports, hexports, hcontained⟩, _⟩ hf
    simp only [Build.sealExports, bind_ok, fetchOne_ok, pure_ok, Prod.mk.injEq] at hf
    obtain ⟨exports', hexports', bytes', hbytes, rfl, rfl⟩ := hf
    rw [hexports, Option.some_inj] at hexports'
    subst hexports'
    exact ⟨_, rfl, hcontained.sealed, bytes', manifest_seal hbytes, rfl⟩
  refine hcreate.bind fun _ => ?_
  refine Triple.bind (Triple.each (I := fun rest => Here config decode p (Collected p rest))
    (fun artifact rest => moveArtifact_does artifact rest) p.caching.artifacts) fun _ => ?_
  exact hseal.bind fun bytes => Triple.pure fun _ h => h

/-! ### Publishing -/

/-- There is a cache of this name. -/
def There (name : String) (v : Volume) : Prop := ∃ root, v.caches name = some root

theorem There.lasting (name : String) : Lasting config decode (There name) := by
  rintro v v' _ hg ⟨root, hroot⟩
  obtain ⟨root', hroot', _⟩ := hg.caches name root hroot
  exact ⟨root', hroot'⟩

theorem moveExports_does {key hash : String} (hkey : p.key = .ok key) :
    Does config decode p (Captured p key hash) (ask (.moveExports p.id hash))
      fun _ => There hash := by
  refine ask_does (fun _ => (There.lasting hash).under p.id) fun o v hs hp hF => ?_
  obtain ⟨⟨output, exports⟩, hb, root, hexports, hsealed, hmanifest⟩ := hF
  subst hexports
  have hanswer : v.answer o (.moveExports p.id hash) = v.moveExports p.id hash := rfl
  rw [hanswer, Volume.moveExports, hb]
  simp only
  split
  · next hvacant =>
    have hnone : v.caches hash = none := by
      cases hc : v.caches hash with
      | none => rfl
      | some old =>
        rw [hc, (hs.caches hash old hc).not_vacant] at hvacant
        cases hvacant
    have hgrows : Grows v { v with
        builds := Function.update v.builds p.id (some ⟨output, none⟩)
        caches := Function.update v.caches hash (some root) } := by
      refine ⟨fun _ h => h, fun name old hold => ⟨old, ?_, Or.inl rfl⟩⟩
      refine (Function.update_of_ne (fun heq => ?_) _ _).trans hold
      rw [heq, hnone] at hold
      cases hold
    refine ⟨⟨hs.mono hgrows (fun _ _ h => Or.inl h) (fun name old hold => ?_)
      fun id build hold => ?_, hgrows, fun i hi => ⟨Function.update_of_ne hi _ _, fun _ => rfl⟩⟩,
      fun _ _ => ⟨root, Function.update_self _ _ _⟩⟩
    · by_cases hname : name = hash
      · subst hname
        refine Or.inr ?_
        have hold' : some root = some old := (Function.update_self name _ _).symm.trans hold
        cases hold'
        obtain ⟨bytes, hbytes, hdigest⟩ := hmanifest
        exact ⟨hsealed, p, hp, key, bytes, hkey, hbytes, hdigest⟩
      · exact Or.inl ((Function.update_of_ne hname _ _).symm.trans hold)
    · by_cases hid : id = p.id
      · exact Or.inr ⟨p, hp, hid.symm⟩
      · exact Or.inl ((Function.update_of_ne hid _ _).symm.trans hold)
  · exact ⟨(Private.refl p.id v).guar hs ⟨p, hp, rfl⟩, fun _ h => by cases h⟩

theorem chmodCache_does (name : String) :
    Does config decode p (There name) (ask (.chmodCache name)) fun _ => Shut name := by
  refine ask_does (fun _ => (Shut.lasting name).under p.id) fun o v hs hp hF => ?_
  obtain ⟨root, hroot⟩ := hF
  have hanswer : v.answer o (.chmodCache name) = v.chmodCache name := rfl
  rw [hanswer, Volume.chmodCache, hroot]
  have hexported := hs.caches name root hroot
  have hgrows : Grows v { v with
      caches := Function.update v.caches name (some (root.chmod 365)) } := by
    refine ⟨fun _ h => h, fun other old hold => ?_⟩
    by_cases hname : other = name
    · subst hname
      rw [hroot, Option.some_inj] at hold
      exact ⟨_, Function.update_self _ _ _, Or.inr (by rw [hold])⟩
    · exact ⟨old, (Function.update_of_ne hname _ _).trans hold, Or.inl rfl⟩
  refine ⟨⟨hs.mono hgrows (fun _ _ h => Or.inl h) (fun other old hold => ?_)
    (fun _ _ h => Or.inl h), hgrows, fun i _ => ⟨rfl, fun _ => rfl⟩⟩,
    fun _ _ => ⟨_, Function.update_self _ _ _, sealed_chmod hexported.1⟩⟩
  by_cases hname : other = name
  · subst hname
    have hold' : some (root.chmod 365) = some old := (Function.update_self other _ _).symm.trans hold
    cases hold'
    obtain ⟨hsealed, q, hq, key, bytes, hkey, hbytes, hdigest⟩ := hexported
    refine Or.inr ⟨?_, q, hq, key, bytes, hkey, ?_, hdigest⟩
    · rw [chmod_chmod]
      exact sealed_chmod hsealed
    · rw [manifest_chmod, hbytes]
  · exact Or.inl ((Function.update_of_ne hname _ _).symm.trans hold)

/-- A cache of this name is there, or the exports still are. -/
theorem publish_does {key hash : String} (hkey : p.key = .ok key) :
    Does config decode p (Captured p key hash) (publish p hash) fun _ => Shut hash := by
  refine Triple.bind (request_does
    (G := fun there v => Captured p key hash v ∧ (there = true → There hash v)) ?_ ?_) fun there => ?_
  · intro there v v' hs hg hsame h
    exact ⟨Captured.lasting key hash v v' hs hg hsame h.1,
      fun hthere => There.lasting hash v v' hs hg (h.2 hthere)⟩
  · intro o v hs hp hF
    have hanswer : v.answer o (.cacheExists hash) = ((v.caches hash).isSome, v) := rfl
    rw [hanswer]
    exact ⟨(Private.refl p.id v).guar hs ⟨p, hp, rfl⟩, hF, fun h => Option.isSome_iff_exists.mp h⟩
  · refine Triple.bind (R := fun _ => Here config decode p (There hash)) ?_
      fun _ => chmodCache_does hash
    refine Triple.when (fun _ => ?_) fun hthere v hv => ⟨hv.1, hv.2.1, hv.2.2.2 ?_⟩
    · exact (moveExports_does hkey).mono (fun v hv => ⟨hv.1, hv.2.1, hv.2.2.1⟩) fun _ _ h => h
    · rwa [Bool.not_eq_false'] at hthere

/-! ### Referring -/

/-- The reader of references reads what was written. -/
def Reads (decode : List UInt8 → Option Seed) : Prop :=
  ∀ seed : Seed, seed.validate = .ok () → decode (toVec seed.toJson) = some seed

theorem refer_does (hreads : Reads decode) (key : String) (seed : Seed) (hkey : seed.inputKey = key) :
    Does config decode p (Shut seed.digest) (refer config p key seed)
      fun _ v => Ready config v key seed := by
  refine Triple.bind (verify_does (Shut.lasting seed.digest) seed) fun _ => ?_
  refine Triple.bind (request_does (G := fun _ v => Ready config v key seed ∧
    v.temps (key, p.id) = some (toVec seed.toJson)) ?_ ?_) fun _ => ?_
  · intro _ v v' hs hg hsame h
    refine ⟨Ready.lasting key seed v v' hs hg h.1, ?_⟩
    rw [hsame.2]
    exact h.2
  · rintro o v hs hp ⟨hshut, hverified⟩
    have hown : (Request.writeTemp key p.id (toVec seed.toJson)).Own p.id := rfl
    have hprivate := private_of_own hown o v
    refine ⟨hprivate.guar hs ⟨p, hp, rfl⟩, ?_, Function.update_self _ _ _⟩
    exact Ready.lasting key seed v _ hs hprivate.grows (hkey ▸ hverified.ready hshut)
  · refine ask_does (fun _ => (Ready.lasting key seed).under p.id) fun o v hs _ hF => ?_
    obtain ⟨hready, htemp⟩ := hF
    have hanswer : v.answer o (.moveTemp key p.id) = v.moveTemp key p.id := rfl
    rw [hanswer, Volume.moveTemp, htemp]
    have hgrows : Grows v { v with
        temps := Function.update v.temps (key, p.id) none
        references := Function.update v.references key (some (toVec seed.toJson)) } :=
      ⟨fun _ h => h, fun _ root h => ⟨root, h, Or.inl rfl⟩⟩
    refine ⟨⟨hs.mono hgrows (fun k bytes hold => ?_) (fun _ _ h => Or.inl h)
      (fun _ _ h => Or.inl h), hgrows,
      fun i hi => ⟨rfl, fun k => Function.update_of_ne (fun heq => hi (Prod.mk.inj heq).2) _ _⟩⟩,
      fun _ _ => Ready.lasting key seed v _ hs hgrows hready⟩
    by_cases hk : k = key
    · subst hk
      have hold' : some (toVec seed.toJson) = some bytes :=
        (Function.update_self k _ _).symm.trans hold
      cases hold'
      exact Or.inr ⟨seed, hreads seed hready.valid, Ready.lasting k seed v _ hs hgrows hready⟩
    · exact Or.inl ((Function.update_of_ne hk _ _).symm.trans hold)

/-! ### A preparation -/

variable {scripts : Executor.Scripts}

/-- **What a preparation does**, whatever the others do meanwhile: the seed it
returns is ready. -/
theorem prepare_does (hreads : Reads decode) (p : Preparation) :
    Does config decode p (fun _ => True) (prepare scripts config decode p)
      fun seed v => ∃ key, p.key = .ok key ∧ Ready config v key seed := by
  refine lift_does fun key hkey => lift_does fun _ _ => ?_
  refine Triple.bind (own_does trivial lasting_true) fun locked => lift_does fun _ _ => ?_
  refine Triple.bind (request_does
    (G := fun data v => ∀ bytes, data = some bytes → ∃ seed, decode bytes = some seed ∧
      Ready config v key seed) ?_ ?_) fun reference => ?_
  · intro data v v' hs hg _ h bytes hdata
    obtain ⟨seed, hdecode, hready⟩ := h bytes hdata
    exact ⟨seed, hdecode, Ready.lasting key seed v v' hs hg hready⟩
  · exact fun o v hs hp _ => ⟨(Private.refl p.id v).guar hs ⟨p, hp, rfl⟩, hs.references key⟩
  · cases reference with
    | some bytes =>
      refine lift_does fun seed hdecode => lift_does fun _ _ => ?_
      rw [fetchOne_ok] at hdecode
      have hready : Lasting config decode fun v => Ready config v key seed := Ready.lasting key seed
      refine Triple.mono (fun v hv => ?_) (fun _ _ h => h)
        ((verify_does hready seed).bind fun _ => Triple.pure fun v hv => ?_)
      · obtain ⟨hs, hp, hall⟩ := hv
        obtain ⟨seed', hdecode', hready⟩ := hall bytes rfl
        rw [hdecode, Option.some_inj] at hdecode'
        exact ⟨hs, hp, hdecode' ▸ hready⟩
      · exact ⟨hv.1, hv.2.1, key, hkey, hv.2.2.1⟩
    | none =>
      refine Triple.mono (fun v hv => ⟨hv.1, hv.2.1, trivial⟩) (fun _ _ h => h)
        ((runRecipe_does lasting_true (cacheLabel key)).bind fun _ => ?_)
      refine (capture_does key).bind fun hash => ?_
      refine (publish_does hkey).bind fun _ => ?_
      refine (refer_does hreads key (seedOf config p key hash) rfl).bind fun _ => ?_
      exact Triple.pure fun v hv => ⟨hv.1, hv.2.1, key, hkey, hv.2.2⟩

/-! ### Every run -/

/-- What preparations rely on and guarantee. -/
def discipline (scripts : Executor.Scripts) (config : Executor.Config)
    (decode : List UInt8 → Option Seed) :
    Pool.Discipline (service scripts config decode) Uuid where
  name := Preparation.id
  inv v := v.Sound config decode
  begun id v := ∃ q ∈ v.calls, q.id = id
  rely := Rely config decode
  guar := Guar config decode
  inv_guar _ h := h.sound
  begun_guar := by
    rintro c i v v' ⟨q, hq, hid⟩ h
    exact ⟨q, h.grows.calls q hq, hid⟩
  rely_of_guar := fun hne _ h => ⟨h.sound, h.grows, h.others _ hne.symm⟩
  enter := by
    rintro c v v' hs ⟨hfresh, rfl⟩
    have hgrows : Grows v { v with calls := v.calls ++ [c] } :=
      ⟨fun q hq => List.mem_append_left _ hq, fun _ root h => ⟨root, h, Or.inl rfl⟩⟩
    refine ⟨fun h => hfresh _ h.choose_spec.1 h.choose_spec.2,
      ⟨c, List.mem_append_right _ (List.mem_singleton_self c), rfl⟩, ?_, hgrows,
      fun _ _ => ⟨rfl, fun _ => rfl⟩⟩
    exact hs.mono hgrows (fun _ _ h => Or.inl h) (fun _ _ h => Or.inl h) fun _ _ h => Or.inl h
  leave := by
    rintro c v v' hs hbegun ⟨build, temps, late, rfl⟩
    refine Private.guar ⟨rfl, rfl, rfl, fun i hi => ⟨Function.update_of_ne hi _ _, fun key => ?_⟩⟩
      hs hbegun
    exact if_neg hi

/-- Where a preparation starts. -/
theorem here_of_enter {p : Preparation} {v v' : Volume} (hs : v.Sound config decode)
    (h : (service scripts config decode).enter p v v') :
    Here config decode p (fun _ => True) v' := by
  have hguar := ((discipline scripts config decode).enter hs h).2.2
  obtain ⟨_, rfl⟩ := h
  exact ⟨hguar.sound, List.mem_append_right _ (List.mem_singleton_self p), trivial⟩

/-- What holds of every run, and what it keeps. -/
theorem run_sound (hreads : Reads decode)
    {σ : Pool Request Error Seed Preparation Volume}
    {taken : List (Pool Request Error Seed Preparation Volume × Pool.Event Error Seed Preparation)}
    (hrun : Transition.Run (Pool.Step (service scripts config decode)) ⟨.empty, []⟩ taken σ) :
    σ.world.Sound config decode ∧ ∀ e ∈ taken,
      (∀ p seed, e.2 = .finish p (.ok seed) → Here config decode p
        (fun v => ∃ key, p.key = .ok key ∧ Ready config v key seed) e.1.world) ∧
      ∀ F, Lasting config decode F → e.1.world.Sound config decode ∧ F e.1.world → F σ.world := by
  have hempty : (discipline scripts config decode).inv Volume.empty :=
    ⟨fun _ _ h => (by cases h), fun _ _ h => (by cases h), fun _ _ h => (by cases h)⟩
  obtain ⟨hsound, hall⟩ := (discipline scripts config decode).returns
    (fun p => stable_here (lasting_true.under p.id)) (fun _ _ _ hs h => here_of_enter hs h)
    (prepare_does hreads) hempty rfl hrun
  refine ⟨hsound.inv, fun e he => ⟨(hall e he).1, fun F hF h => ?_⟩⟩
  refine ((hall e he).2 (fun v => v.Sound config decode ∧ F v) ?_ h).2
  exact fun _ v v' hv hguar h => ⟨hguar.sound, hF v v' hv hguar.grows h.2⟩

/-- **Caches are ready whenever they are referred to.**  In every run of any number
of preparations, each of which may be killed between any two steps, every reference
is to a cache that is complete and sealed, and so is every seed a preparation
returns, from then on. -/
theorem prepare_safe (hreads : Reads decode)
    {σ : Pool Request Error Seed Preparation Volume}
    {taken : List (Pool Request Error Seed Preparation Volume × Pool.Event Error Seed Preparation)}
    (hrun : Transition.Run (Pool.Step (service scripts config decode)) ⟨.empty, []⟩ taken σ) :
    (∀ key bytes, σ.world.references key = some bytes →
      ∃ seed, decode bytes = some seed ∧ Ready config σ.world key seed) ∧
    ∀ e ∈ taken, ∀ p seed, e.2 = .finish p (.ok seed) →
      ∃ key, p.key = .ok key ∧ Ready config e.1.world key seed ∧ Ready config σ.world key seed := by
  obtain ⟨hsound, hall⟩ := run_sound hreads hrun
  refine ⟨hsound.references, fun e he p seed heq => ?_⟩
  obtain ⟨hfinish, hlast⟩ := hall e he
  obtain ⟨hs, _, key, hkey, hready⟩ := hfinish p seed heq
  exact ⟨key, hkey, hready, hlast _ (Ready.lasting key seed) ⟨hs, hready⟩⟩

end Safety

end Caching

end Grading

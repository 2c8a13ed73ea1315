import SrgGrading.Executor.Prepared
import SrgGrading.Executor.Isolation

/-!
# Recovering a preparation

A preparation that was killed, or whose job failed, leaves its build directory
and perhaps a cache nothing refers to.  Neither keeps a later preparation of the
same inputs from ending well, nor does what a cache of these inputs there is.

* `capture_alone`, `publish_alone`, `refer_alone`: the parts of a preparation
  that nobody interferes with.
* `prepare_recovers`: after any run, a preparation of any inputs.
-/

open Fallible Program

namespace Grading

namespace Caching

section Alone
variable [Sha256] (o : Outside)

/-- A part of a preparation that nobody interferes with. -/
abbrev Alone {α : Type} (program : Prepare α) (v : Volume) (a : α) (v' : Volume) : Prop :=
  Yields (fun r w => Volume.answer o r w) program v a v'

/-- The snapshots could be staged, the job succeeded and its pods are gone. -/
structure Outside.Good (o : Outside) : Prop where
  staged : o.staged = .ok ()
  outcome : o.outcome = .ok ()
  stopped : o.stopped = true

/-- The loop over the artifacts. -/
def Build.collect : List CacheArtifact → Build → Except Error Build
  | [], b => return b
  | artifact :: rest, b => do
    let ((), b) ← b.moveArtifact artifact
    collect rest b

/-- No path is too long for the stack of a scan, of which each component takes 64 KiB.
A scan goes as deep as 32 components, and a stack of 2 MiB does not. -/
def Shallow (root : Node) (caching : Caching) : Prop :=
  ∀ entries, scanArtifacts root caching.artifacts [] = .ok entries →
    ∀ e ∈ entries, (Text.split e.path '/').length ≤ 31

/-- What the recipe wrote holds the artifacts of a preparation, whose manifest is this. -/
def Outside.Exports (o : Outside) (caching : Caching) (key : String) (bytes : List UInt8) : Prop :=
  ∃ b root, Build.collect caching.artifacts ⟨o.output, some (.dir o.mode o.time [])⟩ = .ok b ∧
    b.exports = some root ∧ manifest root caching key = .ok bytes ∧ Shallow root caching

/-- A tree of the same manifest has the same paths. -/
theorem Shallow.of_manifest {root root' : Node} {caching : Caching} {key : String}
    {bytes : List UInt8} (h : Shallow root caching) (hroot : manifest root caching key = .ok bytes)
    (hroot' : manifest root' caching key = .ok bytes) : Shallow root' caching := by
  obtain ⟨l, hl, hbytes⟩ := manifest_ok.mp hroot
  obtain ⟨l', hl', hbytes'⟩ := manifest_ok.mp hroot'
  intro entries hentries
  rw [hl', Except.ok.injEq] at hentries
  rw [← hentries, toVec_entries_inj (hbytes'.trans hbytes.symm)]
  exact h l hl

variable {o}

/-- A volume with another build directory. -/
def Volume.withBuild (v : Volume) (id : Uuid) (b : Build) : Volume :=
  { v with builds := Function.update v.builds id (some b) }

omit [Sha256] in
@[simp] theorem builds_withBuild (v : Volume) (id : Uuid) (b : Build) :
    (v.withBuild id b).builds id = some b := Function.update_self _ _ _

omit [Sha256] in
@[simp] theorem withBuild_withBuild (v : Volume) (id : Uuid) (b b' : Build) :
    (v.withBuild id b).withBuild id b' = v.withBuild id b' :=
  congrArg (fun builds => { v with builds }) (Function.update_idem _ _ _)

omit [Sha256] in
theorem withBuild_self {v : Volume} {id : Uuid} {b : Build} (hb : v.builds id = some b) :
    v.withBuild id b = v := by
  rw [Volume.withBuild, ← hb, Function.update_eq_self]

theorem stopped_alone (ho : o.Good) (id : Uuid) (selector : Selector) (v : Volume) :
    Alone o (stopped id selector) v ()
      ({ v with jobs := v.jobs.filter fun j => j.1 ≠ id }.settle o.output selector) := by
  have hdelete : Alone o (request (.deleteJob id)) v ()
      { v with jobs := v.jobs.filter fun j => j.1 ≠ id } := Yields.of_eq rfl
  have hgone : ∀ w : Volume, Alone o (request (.podsGone selector)) w true
      (w.settle o.output selector) := fun w => Yields.of_eq (by rw [← ho.stopped]; rfl)
  exact hdelete.bind ((hgone _).bind (Yields.lift rfl _))

theorem stoppedOwn_alone (ho : o.Good) (id : Uuid) {v : Volume} {b : Build}
    (hb : v.builds id = some b) : Alone o (stopped id (.gradingLease id)) v ()
      ({ v with jobs := v.jobs.filter fun j => j.1 ≠ id }.withBuild id
        { b with output := o.output }) := by
  have hsettle : ∀ w : Volume, w.builds id = some b →
      w.settle o.output (.gradingLease id) = w.withBuild id { b with output := o.output } := by
    intro w hw
    rw [Volume.settle, hw, Option.map_some, Volume.withBuild]
  have hstopped := stopped_alone ho id (.gradingLease id) v
  rwa [hsettle { v with jobs := v.jobs.filter fun j => j.1 ≠ id } hb] at hstopped

theorem stoppedAll_alone (ho : o.Good) (label : String) (ids : List Uuid) :
    ∀ v : Volume, ∃ jobs, Alone o (Program.each (fun id => stopped id (.cacheKey label)) ids) v ()
      { v with jobs } := by
  induction ids with
  | nil => exact fun v => ⟨v.jobs, rfl⟩
  | cons id rest ih =>
    intro v
    obtain ⟨jobs, hrest⟩ := ih { v with jobs := v.jobs.filter fun j => j.1 ≠ id }
    exact ⟨jobs, (stopped_alone ho id (.cacheKey label) v).bind hrest⟩

/-- The recipe runs, whatever jobs there are. -/
theorem runRecipe_alone (ho : o.Good) {p : Preparation} {v : Volume} (label : String)
    (hnew : v.builds p.id = none) : ∃ jobs, Alone o (runRecipe p label) v ()
      ({ v with jobs }.withBuild p.id ⟨o.output, none⟩) := by
  have hcreate : Alone o (request (.createBuild p.id)) v ()
      (v.withBuild p.id ⟨.dir 448 o.time [], none⟩) := by
    refine Yields.of_eq ?_
    change ((), v.createBuild p.id o.time) = _
    rw [Volume.createBuild, hnew]
    rfl
  have hstage : ∀ name snapshot (w : Volume), Alone o (ask (.stage p.id name snapshot)) w () w :=
    fun name snapshot w => Yields.ask (by rw [← ho.staged]; rfl)
  have hawait : ∀ (w : Volume), (p.id, label) ∈ w.jobs →
      Alone o (request (.awaitJob p.id)) w (.ok ()) w := by
    intro w hw
    refine Yields.of_eq (Prod.ext ?_ rfl)
    have hany : w.jobs.any (fun j => j.1 = p.id) = true :=
      List.any_eq_true.mpr ⟨(p.id, label), hw, decide_eq_true rfl⟩
    exact (if_pos hany).trans ho.outcome
  obtain ⟨jobs, hstopped⟩ := stoppedAll_alone ho label
    ((v.jobs.filter fun j => j.2 = label).map Prod.fst)
    (v.withBuild p.id ⟨.dir 448 o.time [], none⟩)
  have hcreateJob : Alone o (request (.createJob p.id label))
      { v.withBuild p.id ⟨.dir 448 o.time [], none⟩ with jobs } () _ := Yields.of_eq rfl
  have hlast := stoppedOwn_alone ho p.id
    (v := { v.withBuild p.id ⟨.dir 448 o.time [], none⟩ with jobs := jobs ++ [(p.id, label)] })
    (builds_withBuild v p.id ⟨.dir 448 o.time [], none⟩)
  refine ⟨(jobs ++ [(p.id, label)]).filter fun j => j.1 ≠ p.id, ?_⟩
  refine hcreate.bind ((hstage _ _ _).bind ((hstage _ _ _).bind ?_))
  refine (Yields.of_eq rfl).bind (hstopped.bind (hcreateJob.bind ?_))
  refine (hawait _ (List.mem_append_right _ (List.mem_singleton_self _))).bind ?_
  have hsame := withBuild_withBuild
    { v with jobs := (jobs ++ [(p.id, label)]).filter fun j => j.1 ≠ p.id } p.id
    ⟨.dir 448 o.time [], none⟩ ⟨o.output, none⟩
  rw [← hsame]
  exact hlast.bind (Yields.lift rfl _)

/-! ### Capturing -/

theorem inBuild_alone {α : Type} {r : Request (Except Error α)} {id : Uuid}
    {f : Build → Except Error (α × Build)} {v : Volume} {b b' : Build} {a : α}
    (hr : v.answer o r = v.inBuild id f) (hb : v.builds id = some b) (hf : f b = .ok (a, b')) :
    Alone o (ask r) v a (v.withBuild id b') := by
  refine Yields.ask ?_
  have hfetch : (fetchOne notFound (v.builds id) >>= f) = .ok (a, b') :=
    bind_ok.mpr ⟨b, fetchOne_ok.mpr hb, hf⟩
  rw [hr, Volume.inBuild, hfetch]
  rfl

theorem collect_alone {p : Preparation} (artifacts : List CacheArtifact) :
    ∀ {v : Volume} {b b' : Build}, v.builds p.id = some b → Build.collect artifacts b = .ok b' →
    Alone o (Program.each (fun artifact => ask (.moveArtifact p.id artifact)) artifacts) v ()
      (v.withBuild p.id b') := by
  induction artifacts with
  | nil =>
    intro v b b' hb hcollect
    rw [Build.collect, pure_ok] at hcollect
    rw [← hcollect, withBuild_self hb]
    exact Yields.pure () v
  | cons artifact rest ih =>
    intro v b b' hb hcollect
    rw [Build.collect] at hcollect
    obtain ⟨⟨u, b₁⟩, hmove, hrest⟩ := bind_ok.mp hcollect
    have hturn : Alone o (ask (.moveArtifact p.id artifact)) v () (v.withBuild p.id b₁) :=
      inBuild_alone rfl hb hmove
    have hafter := ih (builds_withBuild v p.id b₁) hrest
    rw [withBuild_withBuild] at hafter
    exact hturn.bind hafter

/-- What the recipe wrote is captured under the digest of its manifest. -/
theorem capture_alone {p : Preparation} {key : String} {bytes : List UInt8} {v : Volume}
    (hb : v.builds p.id = some ⟨o.output, none⟩) (hexports : o.Exports p.caching key bytes) :
    ∃ output root, manifest root p.caching key = .ok bytes ∧ Shallow root p.caching ∧
      Alone o (capture p key) v (digest bytes) (v.withBuild p.id ⟨output, some root⟩) := by
  obtain ⟨b, root, hcollect, hroot, hmanifest, hshallow⟩ := hexports
  have hsealed := manifest_seal hmanifest
  have hcreate : Alone o (ask (.createExports p.id)) v ()
      (v.withBuild p.id ⟨o.output, some (.dir o.mode o.time [])⟩) := inBuild_alone rfl hb rfl
  have hmoves := collect_alone (o := o) p.caching.artifacts
    (builds_withBuild v p.id ⟨o.output, some (.dir o.mode o.time [])⟩) hcollect
  rw [withBuild_withBuild] at hmoves
  have hsealing : Build.sealExports p.caching key b =
      .ok (bytes, ⟨b.output, some (sealArtifacts p.caching root)⟩) :=
    bind_ok.mpr ⟨root, fetchOne_ok.mpr hroot, bind_ok.mpr ⟨bytes, hmanifest, rfl⟩⟩
  have hseal : Alone o (ask (.sealExports p.id p.caching key)) (v.withBuild p.id b) bytes _ :=
    inBuild_alone rfl (builds_withBuild v p.id b) hsealing
  rw [withBuild_withBuild] at hseal
  refine ⟨b.output, sealArtifacts p.caching root, hsealed, hshallow.of_manifest hmanifest hsealed, ?_⟩
  exact hcreate.bind (hmoves.bind (hseal.bind (Yields.pure _ _)))

/-! ### Publishing -/

variable {config : Executor.Config} {decode : List UInt8 → Option Seed}

theorem chmodCache_alone (name : String) {v : Volume} {root : Node}
    (hroot : v.caches name = some root) : ∃ v', Alone o (ask (.chmodCache name)) v () v' ∧
      v'.references = v.references ∧ v'.caches name = some (root.chmod 365) := by
  refine ⟨{ v with caches := Function.update v.caches name (some (root.chmod 365)) },
    Yields.ask ?_, rfl, Function.update_self _ _ _⟩
  change v.chmodCache name = _
  rw [Volume.chmodCache, hroot]

/-- A cache of the name is left as it is. -/
theorem publish_alone (hash : String) {p : Preparation} {key : String} {bytes : List UInt8} {v : Volume}
    {output root : Node} (hb : v.builds p.id = some ⟨output, some root⟩)
    (hmanifest : manifest root p.caching key = .ok bytes)
    (hcached : ∀ old, v.caches hash = some old → manifest old p.caching key = .ok bytes) :
    ∃ v' root', Alone o (publish p hash) v () v' ∧ v'.references = v.references ∧
      v'.caches hash = some root' ∧ manifest root' p.caching key = .ok bytes := by
  have hexists : ∀ b, (v.caches hash).isSome = b →
      Alone o (request (.cacheExists hash)) v b v :=
    fun b hb => Yields.of_eq (Prod.ext hb rfl)
  cases hcache : v.caches hash with
  | some old =>
    have hskip : Alone o (Program.when (!true) (ask (.moveExports p.id hash))) v () v :=
      Yields.pure () v
    obtain ⟨v', hchmod, hreferences, hroot⟩ := chmodCache_alone (o := o) hash hcache
    refine ⟨v', old.chmod 365, (hexists true ?_).bind (hskip.bind hchmod), hreferences, hroot, ?_⟩
    · rw [hcache]
      rfl
    · rw [manifest_chmod, hcached old hcache]
  | none =>
    let v₁ : Volume := { v with
      builds := Function.update v.builds p.id (some ⟨output, none⟩)
      caches := Function.update v.caches hash (some root) }
    have hmove : Alone o (ask (.moveExports p.id hash)) v () v₁ := by
      refine Yields.ask ?_
      change v.moveExports p.id hash = _
      rw [Volume.moveExports, hb, hcache]
      rfl
    have hturn : Alone o (Program.when (!false) (ask (.moveExports p.id hash))) v () v₁ :=
      hmove
    have hroot : v₁.caches hash = some root := Function.update_self _ _ _
    obtain ⟨v', hchmod, hreferences, hroot'⟩ := chmodCache_alone (o := o) hash hroot
    refine ⟨v', root.chmod 365, (hexists false ?_).bind (hturn.bind hchmod), hreferences, hroot', ?_⟩
    · rw [hcache]
      rfl
    · rw [manifest_chmod, hmanifest]

/-! ### Referring -/

theorem verify_alone {seed : Seed} {v : Volume} (h : Verified config seed v) :
    Alone o (verify config seed) v () v := by
  obtain ⟨hvalid, hlocation, root, hroot, bytes, hbytes, hdigest⟩ := h
  have hsame : check (decide (seed.namespaceName = config.namespaceName) &&
      decide (seed.sourcePvc = config.sourcePvc)) "cache is on a different staging volume" =
      .ok () := by
    rw [check_ok, Bool.and_eq_true, decide_eq_true_eq, decide_eq_true_eq]
    exact hlocation
  refine (Yields.lift hvalid v).bind ((Yields.lift hsame v).bind ?_)
  · have hread : Alone o (request (.readCache seed.digest)) v (some root) v :=
      Yields.of_eq (Prod.ext hroot rfl)
    refine hread.bind (Yields.lift ?_ v)
    simp only [bind_ok, fetchOne_ok, check_ok, decide_eq_true_eq]
    exact ⟨root, rfl, bytes, hbytes, hdigest⟩

theorem refer_alone (p : Preparation) (key : String) {seed : Seed} {v : Volume}
    (h : Verified config seed v) : ∃ v', Alone o (refer config p key seed) v () v' ∧
      v'.references key = some (toVec seed.toJson) ∧ v'.caches = v.caches := by
  let v₁ : Volume := { v with
    temps := Function.update v.temps (key, p.id) (some (toVec seed.toJson)) }
  have hwrite : Alone o (request (.writeTemp key p.id (toVec seed.toJson))) v () v₁ :=
    Yields.of_eq rfl
  have hmove : Alone o (ask (.moveTemp key p.id)) v₁ () { v₁ with
      temps := Function.update v₁.temps (key, p.id) none
      references := Function.update v₁.references key (some (toVec seed.toJson)) } := by
    refine Yields.ask ?_
    have htemp : v₁.temps (key, p.id) = some (toVec seed.toJson) := Function.update_self _ _ _
    change v₁.moveTemp key p.id = _
    rw [Volume.moveTemp, htemp]
  exact ⟨_, (verify_alone h).bind (hwrite.bind hmove), Function.update_self _ _ _, rfl⟩

/-! ### A preparation that nobody interferes with -/

/-- What preparations have hashed, with one of these inputs and this manifest. -/
def Volume.Hashed (v : Volume) (p : Preparation) (bytes x : List UInt8) : Prop :=
  x = bytes ∨ (∃ q ∈ p :: v.calls, x = q.input) ∨
    ∃ name root q key, v.caches name = some root ∧ q ∈ v.calls ∧
      manifest root q.caching key = .ok x

/-- A cache under the digest of a manifest has that manifest. -/
theorem Exported.manifest {v : Volume} {root own : Node} {p : Preparation} {key : String}
    {bytes : List UInt8} (h : Exported v (digest bytes) root)
    (hroot : v.caches (digest bytes) = some root) (hkey : p.key = .ok key)
    (hown : manifest own p.caching key = .ok bytes) (hcf : CollisionFree (v.Hashed p bytes)) :
    manifest root p.caching key = .ok bytes := by
  obtain ⟨_, q, hq, key', bytes', hkey', hmanifest, hdigest⟩ := h
  have hbytes : bytes' = bytes :=
    hcf.eq (Or.inr (Or.inr ⟨_, root, q, key', hroot, hq, hmanifest⟩)) (Or.inl rfl) hdigest
  subst hbytes
  obtain ⟨entries, _, hvec⟩ := manifest_ok.mp hmanifest
  obtain ⟨entries', _, hvec'⟩ := manifest_ok.mp hown
  have hjson := toVec_inj (hvec.trans hvec'.symm)
  simp only [ExportManifest.toJson, member, Json.obj.injEq, List.cons.injEq, Prod.mk.injEq,
    true_and] at hjson
  have hsame : key' = key := stringJson_inj hjson.1
  subst hsame
  have hinput : q.input = p.input := by
    refine hcf.eq (Or.inr (Or.inl ⟨q, List.mem_cons_of_mem _ hq, rfl⟩))
      (Or.inr (Or.inl ⟨p, List.mem_cons_self, rfl⟩)) ?_
    exact (key_ok hkey').2.symm.trans (key_ok hkey).2
  rw [← (keyInput_inj hinput).2.1]
  exact hmanifest

variable {scripts : Executor.Scripts}

theorem tryLock_alone {key : String} {id : Uuid} {v : Volume} (hfree : v.locks key = none) :
    Alone o (request (.tryLock key id)) v true
      { v with locks := Function.update v.locks key (some id) } := by
  refine Yields.of_eq ?_
  change v.tryLock key id = _
  rw [Volume.tryLock, hfree]

/-- The cache that was referred to is used again. -/
theorem reuse_alone {p : Preparation} {key : String} {j : Executor.Job} {v : Volume}
    {bytes : List UInt8} {seed : Seed} (hkey : p.key = .ok key)
    (hjob : Executor.preparationJob scripts config p.now p.revision p.caching p.id = .ok j)
    (hfree : v.locks key = none) (hreference : v.references key = some bytes)
    (hdecode : decode bytes = some seed) (hready : Ready config v key seed) :
    Alone o (prepare scripts config decode p) v seed
      { v with locks := Function.update v.locks key (some p.id) } := by
  let v₁ : Volume := { v with locks := Function.update v.locks key (some p.id) }
  have hlock : Alone o (request (.tryLock key p.id)) v true v₁ := tryLock_alone hfree
  have hread : Alone o (request (.readReference key)) v₁ (some bytes) v₁ :=
    Yields.of_eq (Prod.ext hreference rfl)
  obtain ⟨hinput, hvalid, hlocation, root, hroot, _, bytes', hbytes, hdigest⟩ := hready
  have hverified : Verified config seed v₁ :=
    ⟨hvalid, hlocation, root, hroot, bytes', hinput ▸ hbytes, hdigest⟩
  have hsame : check (decide (seed.inputKey = key)) "cache reference key mismatch" = .ok () := by
    rw [check_ok, decide_eq_true_eq]
    exact hinput
  refine (Yields.lift hkey v).bind ((Yields.lift hjob v).bind (hlock.bind ?_))
  refine (Yields.lift rfl v₁).bind (hread.bind ?_)
  refine (Yields.lift (fetchOne_ok.mpr hdecode) v₁).bind ((Yields.lift hsame v₁).bind ?_)
  exact (verify_alone hverified).bind (Yields.pure seed v₁)

theorem location_of_job {p : Preparation} {j : Executor.Job}
    (hjob : Executor.preparationJob scripts config p.now p.revision p.caching p.id = .ok j) :
    (identifier config.namespaceName && identifier config.sourcePvc) = true := by
  obtain ⟨_, _, _, happrove, _⟩ := Executor.preparationJob_ok.mp hjob
  unfold Executor.Config.approve at happrove
  obtain ⟨_, _, h⟩ := bind_ok.mp happrove
  obtain ⟨_, _, h⟩ := bind_ok.mp h
  obtain ⟨_, hlocation, _⟩ := bind_ok.mp h
  rw [check_ok, Bool.and_eq_true, Bool.and_eq_true] at hlocation
  rw [Bool.and_eq_true]
  exact ⟨hlocation.1.1, hlocation.2⟩

/-- Without a reference the recipe runs. -/
theorem fresh_alone {p : Preparation} {key : String} {j : Executor.Job} {v : Volume}
    {bytes : List UInt8} (hkey : p.key = .ok key)
    (hjob : Executor.preparationJob scripts config p.now p.revision p.caching p.id = .ok j)
    (hfree : v.locks key = none) (hreference : v.references key = none)
    (hnew : v.builds p.id = none) (ho : o.Good) (hexports : o.Exports p.caching key bytes)
    (hcached : ∀ old, v.caches (digest bytes) = some old →
      manifest old p.caching key = .ok bytes) :
    ∃ v', Alone o (prepare scripts config decode p) v (seedOf config p key (digest bytes)) v' ∧
      v'.references key = some (toVec (seedOf config p key (digest bytes)).toJson) ∧
      ∀ root, v'.caches (digest bytes) = some root → Shallow root p.caching := by
  let v₁ : Volume := { v with locks := Function.update v.locks key (some p.id) }
  have hlock : Alone o (request (.tryLock key p.id)) v true v₁ := tryLock_alone hfree
  have hread : Alone o (request (.readReference key)) v₁ none v₁ :=
    Yields.of_eq (Prod.ext hreference rfl)
  obtain ⟨jobs, hrecipe⟩ := runRecipe_alone (v := v₁) ho (cacheLabel key) hnew
  obtain ⟨output, root, hmanifest, hshallow, hcapture⟩ := capture_alone
    (v := { v₁ with jobs }.withBuild p.id ⟨o.output, none⟩) (builds_withBuild _ _ _) hexports
  rw [withBuild_withBuild] at hcapture
  obtain ⟨v₂, root', hpublish, _, hroot', hmanifest'⟩ := publish_alone (digest bytes)
    (v := { v₁ with jobs }.withBuild p.id ⟨output, some root⟩) (builds_withBuild _ _ _)
    hmanifest hcached
  have hvalid : (seedOf config p key (digest bytes)).validate = .ok () := by
    refine bind_ok.mpr ⟨(), Preparation.valid hkey, bind_ok.mpr ⟨(), ?_, ?_⟩⟩
    · have hhex : Text.validHex key 64 = true := (key_ok hkey).2 ▸ validHex_digest _
      rw [check_ok, Bool.and_eq_true]
      exact ⟨hhex, validHex_digest bytes⟩
    · rw [check_ok]
      exact location_of_job hjob
  have hverified : Verified config (seedOf config p key (digest bytes)) v₂ :=
    ⟨hvalid, ⟨rfl, rfl⟩, root', hroot', bytes, hmanifest', rfl⟩
  obtain ⟨v₃, hrefer, href, hcaches⟩ := refer_alone (o := o) p key hverified
  refine ⟨v₃, ?_, href, fun r hr => ?_⟩
  swap
  · rw [hcaches, hroot', Option.some_inj] at hr
    rw [← hr]
    exact hshallow.of_manifest hmanifest hmanifest'
  refine (Yields.lift hkey v).bind ((Yields.lift hjob v).bind (hlock.bind ?_))
  refine (Yields.lift rfl v₁).bind (hread.bind ?_)
  exact hrecipe.bind (hcapture.bind (hpublish.bind (hrefer.bind (Yields.pure _ _))))

/-- **A preparation recovers.**  After any run in which preparations were killed or
failed at any point, a preparation whose lock nobody holds and that nobody interferes
with returns a seed that is ready and referred to.  It makes no job where there was
a reference; otherwise it needs its recipe to succeed, and where a cache of the same
digest is left over, that the digests do not collide.  The caches it scans have no
path that is too long for the stack, and neither has the one it leaves. -/
theorem prepare_recovers (hreads : Reads decode)
    {σ : Pool Request Error Seed Preparation Volume}
    {taken : List (Pool Request Error Seed Preparation Volume × Pool.Event Error Seed Preparation)}
    (hrun : Transition.Run (Pool.Step (service scripts config decode)) ⟨.empty, []⟩ taken σ)
    {p : Preparation} {key : String} {j : Executor.Job}
    (hnew : ∀ q ∈ σ.world.calls, q.id ≠ p.id) (hfree : σ.world.locks key = none)
    (hkey : p.key = .ok key)
    (hjob : Executor.preparationJob scripts config p.now p.revision p.caching p.id = .ok j)
    (hreuse : ∀ bytes seed root, σ.world.references key = some bytes → decode bytes = some seed →
      σ.world.caches seed.digest = some root → Shallow root seed.config)
    (hrecipe : σ.world.references key = none → o.Good ∧ ∃ bytes, o.Exports p.caching key bytes ∧
      (σ.world.caches (digest bytes) ≠ none → CollisionFree (σ.world.Hashed p bytes))) :
    ∃ seed v', Alone o (prepare scripts config decode p)
        { σ.world with calls := σ.world.calls ++ [p] } seed v' ∧
      Ready config v' key seed ∧
      (∀ root, v'.caches seed.digest = some root → Shallow root seed.config) ∧
      (∃ bytes, v'.references key = some bytes ∧ decode bytes = some seed) ∧
      (σ.world.references key ≠ none → v'.jobs = σ.world.jobs) := by
  have hs := (run_sound hreads hrun).1
  have henter : (service scripts config decode).enter p σ.world
      { σ.world with calls := σ.world.calls ++ [p] } := ⟨hnew, rfl⟩
  have hhere := here_of_enter hs henter
  have hready : ∀ {seed v'}, Alone o (prepare scripts config decode p)
      { σ.world with calls := σ.world.calls ++ [p] } seed v' → Ready config v' key seed := by
    intro seed v' halone
    obtain ⟨_, _, key', hkey', hready⟩ :=
      (prepare_does hreads p).yields (fun _ _ => ⟨o, rfl⟩) hhere halone
    rw [hkey, Except.ok.injEq] at hkey'
    exact hkey' ▸ hready
  cases hreference : σ.world.references key with
  | some bytes =>
    obtain ⟨seed, hdecode, hthere⟩ := hhere.1.references key bytes hreference
    have halone := reuse_alone (o := o) (v := { σ.world with calls := σ.world.calls ++ [p] }) hkey
      hjob hfree hreference hdecode hthere
    exact ⟨seed, _, halone, hready halone, fun root => hreuse bytes seed root hreference hdecode,
      ⟨bytes, hreference, hdecode⟩, fun _ => rfl⟩
  | none =>
    obtain ⟨ho, bytes, hexports, hcf⟩ := hrecipe hreference
    have hbuilds : σ.world.builds p.id = none := by
      rw [Option.eq_none_iff_forall_not_mem]
      intro b hb
      obtain ⟨q, hq, hid⟩ := hs.builds p.id b hb
      exact hnew q hq hid
    have hcached : ∀ old, σ.world.caches (digest bytes) = some old →
        manifest old p.caching key = .ok bytes := by
      intro old hold
      obtain ⟨_, own, _, _, hown, _⟩ := hexports
      refine (hs.caches _ old hold).manifest hold hkey hown (hcf ?_)
      rw [hold]
      exact Option.some_ne_none old
    obtain ⟨v', halone, href, hshallow⟩ : ∃ v', Alone o (prepare scripts config decode p)
        { σ.world with calls := σ.world.calls ++ [p] } (seedOf config p key (digest bytes)) v' ∧
        v'.references key = some (toVec (seedOf config p key (digest bytes)).toJson) ∧
        ∀ root, v'.caches (digest bytes) = some root → Shallow root p.caching :=
      fresh_alone hkey hjob hfree hreference hbuilds ho hexports hcached
    have hthere := hready halone
    exact ⟨_, v', halone, hthere, hshallow, ⟨_, href, hreads _ hthere.valid⟩,
      fun h => absurd rfl h⟩

end Alone

end Caching

namespace Sample

open Caching

attribute [local instance] Sha256.standard

def compilerCache : Caching := { caching with resources := ⟨1, 1, 1⟩, timeoutSeconds := 1 }

/-- A preparation of the compiler cache for the shared runner. -/
def compiled : Preparation where
  revision := sharedRevision
  caching := compilerCache
  source := ⟨String.ofList (List.replicate 40 'a'), .empty⟩
  recipe := ⟨String.ofList (List.replicate 40 '0'), .empty⟩
  id := 7
  now := 0

/-- A recipe that leaves an empty directory. -/
def leftEmpty : Outside where
  staged := .ok ()
  outcome := .ok ()
  stopped := true
  output := .dir 448 0 [("export", .dir 493 0 [])]
  mode := 493
  time := 0

open Classical in
/-- The reader that reads what was written. -/
noncomputable def readSeed (bytes : List UInt8) : Option Seed :=
  if h : ∃ seed : Seed, toVec seed.toJson = bytes then some h.choose else none

theorem readSeed_reads : Reads readSeed := by
  intro seed _
  have hwritten : ∃ seed' : Seed, toVec seed'.toJson = toVec seed.toJson := ⟨seed, rfl⟩
  rw [readSeed, dif_pos hwritten]
  exact congrArg some (Seed.toJson_inj (toVec_inj hwritten.choose_spec))

theorem compiled_key : ∃ key, compiled.key = .ok key := by
  have hok : compiled.key.isOk = true := by decide +kernel
  cases hkey : compiled.key with
  | ok key => exact ⟨key, rfl⟩
  | error e =>
    rw [hkey] at hok
    cases hok

theorem compiled_job : ∃ j, Executor.preparationJob jobScripts sharedConfig compiled.now
    compiled.revision compiled.caching compiled.id = .ok j := by
  have hvalid : compilerCache.validate = .ok () := by decide +kernel
  have happrove : sharedConfig.approve 0
      (Executor.preparationLease sharedRevision sharedGrader compilerCache 7 0) = .ok () := by
    have hgraded := approve_gradedLease
    unfold Executor.Config.approve at hgraded ⊢
    exact hgraded
  exact ⟨_, Executor.preparationJob_ok.mpr ⟨hvalid, sharedGrader, rfl, happrove, rfl⟩⟩

theorem leftEmpty_exports (key : String) : ∃ bytes, leftEmpty.Exports compilerCache key bytes := by
  have hscan : scanArtifacts (.dir 493 0 [("compiler", .dir 493 0 [])]) compilerCache.artifacts [] =
      .ok [⟨"compiler", 0, true, ""⟩] := by decide
  refine ⟨_, _, .dir 493 0 [("compiler", .dir 493 0 [])], rfl, rfl,
    manifest_ok.mpr ⟨_, hscan, rfl⟩, fun entries hentries e he => ?_⟩
  rw [hscan, Except.ok.injEq] at hentries
  rw [← hentries] at he
  rw [List.mem_singleton.mp he]
  decide

/-- **The first preparation ends well**, and what it returns is referred to. -/
theorem prepare_recovers_compiled : ∃ key seed v', compiled.key = .ok key ∧
    Alone leftEmpty (prepare jobScripts sharedConfig readSeed compiled)
      { Volume.empty with calls := [compiled] } seed v' ∧ Ready sharedConfig v' key seed := by
  obtain ⟨key, hkey⟩ := compiled_key
  obtain ⟨j, hjob⟩ := compiled_job
  obtain ⟨bytes, hexports⟩ := leftEmpty_exports key
  have hrun : Transition.Run (Pool.Step (service jobScripts sharedConfig readSeed)) ⟨.empty, []⟩ []
      ⟨.empty, []⟩ := .nil
  obtain ⟨seed, v', halone, hready, _⟩ := prepare_recovers (o := leftEmpty) readSeed_reads hrun
    (fun _ hq => absurd hq List.not_mem_nil) rfl hkey hjob (fun _ _ _ h => by cases h)
    fun _ => ⟨⟨rfl, rfl, rfl⟩, bytes, hexports, fun h => absurd rfl h⟩
  exact ⟨key, seed, v', hkey, halone, hready⟩

/-- A run in which a seed is returned. -/
theorem prepare_safe_compiled : ∃ (σ : Pool Caching.Request Error Seed Preparation Volume) (key : String)
    (seed : Seed), compiled.key = .ok key ∧ Ready sharedConfig σ.world key seed := by
  obtain ⟨key, hkey⟩ := compiled_key
  obtain ⟨j, hjob⟩ := compiled_job
  obtain ⟨bytes, hexports⟩ := leftEmpty_exports key
  obtain ⟨v', halone, _⟩ : ∃ v', Alone leftEmpty (prepare jobScripts sharedConfig readSeed compiled)
      { Volume.empty with calls := [compiled] } (seedOf sharedConfig compiled key (digest bytes)) v' ∧
      v'.references key = some _ ∧ _ :=
    fresh_alone hkey hjob rfl rfl rfl ⟨rfl, rfl, rfl⟩ hexports fun _ h => by cases h
  have henter : (service jobScripts sharedConfig readSeed).enter compiled .empty
      { Volume.empty with calls := [compiled] } := ⟨fun _ hq => absurd hq List.not_mem_nil, rfl⟩
  have hserve : ∀ {β : Type} (r : Caching.Request β) (v : Volume),
      serve compiled r v (v.answer leftEmpty r).1 (v.answer leftEmpty r).2 :=
    fun _ _ => ⟨leftEmpty, rfl⟩
  have hends := halone.ends hserve
  obtain ⟨taken, s, hrun⟩ := Pool.run_of_ends (service jobScripts sharedConfig readSeed) hends
    ⟨none, fun _ => none, [], rfl⟩ henter
  obtain ⟨_, hfinish⟩ := prepare_safe readSeed_reads hrun
  obtain ⟨key', hkey', _, hready⟩ := hfinish _ (List.mem_append_right _ (List.mem_singleton_self _))
    compiled _ rfl
  exact ⟨_, key', _, hkey', hready⟩

end Sample

end Grading

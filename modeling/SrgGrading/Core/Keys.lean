import SrgGrading.Core.Base64
import SrgGrading.Core.Revisions

/-!
# Cache keys

A cache is kept under the hash of what its preparation reads: the image, the
configuration, the source and the part of the grader beneath the recipe
directory.

* `Snapshot.toJson_inj`: a snapshot is determined by its JSON.
* `Snapshot.eq_of_files`: a validated snapshot is determined by its commit and
  its paths, modes and decoded bytes.
* `Caching.get?_beneath`: the files of a recipe.
* `Caching.key_exact`: **keys are equal exactly where the inputs are**, and the
  rest of the grader has no influence.
-/

open Fallible

namespace Grading

/-! ### Snapshots -/

def Blob.toJson (b : Blob) : Json :=
  .obj [member "mode" (stringJson b.mode), member "data" (stringJson b.data)]

theorem Blob.toJson_inj {a b : Blob} (h : a.toJson = b.toJson) : a = b := by
  simp only [Blob.toJson, member, Json.obj.injEq, List.cons.injEq, Prod.mk.injEq, true_and,
    and_true] at h
  cases a
  cases b
  simp only [Blob.mk.injEq]
  exact ⟨stringJson_inj h.1, stringJson_inj h.2⟩

namespace Snapshot

def toJson (s : Snapshot) : Json :=
  .obj [member "sha" (stringJson s.sha),
    member "files" (.obj (s.files.entries.map fun e => member e.1 e.2.toJson))]

theorem toJson_inj {a b : Snapshot} (h : a.toJson = b.toJson) : a = b := by
  simp only [toJson, member, Json.obj.injEq, List.cons.injEq, Prod.mk.injEq, true_and,
    and_true] at h
  obtain ⟨hsha, hfiles⟩ := h
  have hentry : Function.Injective (fun e : String × Blob => (e.1.toList, e.2.toJson)) := by
    intro e e' he
    rw [Prod.mk.injEq] at he
    exact Prod.ext (String.toList_inj.mp he.1) (Blob.toJson_inj he.2)
  cases a
  cases b
  simp only [Snapshot.mk.injEq]
  exact ⟨stringJson_inj hsha, OrderedMap.ext (List.map_injective_iff.mpr hentry hfiles)⟩

/-- The snapshot has a file of this path, mode and decoded bytes. -/
def HasFile (s : Snapshot) (path mode : String) (bytes : List UInt8) : Prop :=
  ∃ blob, s.files.get? path = some blob ∧ blob.mode = mode ∧
    decodeBase64 blob.data.toList = some bytes

theorem validateFiles_bytes {files : OrderedMap String Blob} {l : List (String × Blob)} :
    ∀ {size : Nat}, validateFiles files size l = .ok () →
    ∀ e ∈ l, ∃ bytes, decodeBase64 e.2.data.toList = some bytes := by
  induction l with
  | nil =>
    intro size _ e he
    cases he
  | cons x l ih =>
    intro size h e he
    simp only [validateFiles, bind_ok, Blob.bytes_ok] at h
    obtain ⟨_, _, _, _, bytes, ⟨hbytes, _⟩, _, _, _, _, hrest⟩ := h
    rcases List.mem_cons.mp he with rfl | he
    · exact ⟨bytes, hbytes⟩
    · exact ih hrest e he

/-- Every file of a validated snapshot has bytes. -/
theorem hasFile_of_get? {s : Snapshot} (h : s.validate = .ok ()) {path : String} {blob : Blob}
    (hblob : s.files.get? path = some blob) : ∃ bytes, s.HasFile path blob.mode bytes := by
  simp only [validate, validateStructure, bind_ok] at h
  obtain ⟨_, ⟨_, _, _, _, hfiles⟩, _⟩ := h
  obtain ⟨bytes, hbytes⟩ := validateFiles_bytes hfiles _ (s.files.mem_entries_iff.mpr hblob)
  exact ⟨bytes, blob, hblob, rfl, hbytes⟩

/-- **A validated snapshot is determined by its commit and its files.** -/
theorem eq_of_files {a b : Snapshot} (ha : a.validate = .ok ()) (hb : b.validate = .ok ())
    (hsha : a.sha = b.sha)
    (hfiles : ∀ path mode bytes, a.HasFile path mode bytes ↔ b.HasFile path mode bytes) :
    a = b := by
  have hget : ∀ {s t : Snapshot}, s.validate = .ok () →
      (∀ path mode bytes, s.HasFile path mode bytes → t.HasFile path mode bytes) →
      ∀ {path blob}, s.files.get? path = some blob → t.files.get? path = some blob := by
    intro s t hs himp path blob hblob
    obtain ⟨bytes, hfile⟩ := hasFile_of_get? hs hblob
    obtain ⟨blob', hblob', hmode, hdata⟩ := himp _ _ _ hfile
    obtain ⟨blob'', hsame, _, hdata''⟩ := hfile
    rw [hblob, Option.some_inj] at hsame
    subst hsame
    have hdata := String.toList_inj.mp (decodeBase64_inj hdata hdata'')
    rw [hblob']
    cases blob'
    cases blob
    exact congrArg some (Blob.mk.injEq .. ▸ ⟨hmode, hdata⟩)
  have hmaps : a.files = b.files := by
    apply OrderedMap.ext_get?
    intro path
    apply Option.ext
    intro blob
    exact ⟨hget ha fun p m x => (hfiles p m x).mp, hget hb fun p m x => (hfiles p m x).mpr⟩
  cases a
  cases b
  simp only [Snapshot.mk.injEq]
  exact ⟨hsha, hmaps⟩

end Snapshot

/-! ### Recipes -/

theorem Text.stripStart_iff {s start p : String} :
    Text.stripStart s start = some p ↔ s = start ++ p := by
  rw [Text.stripStart, Option.ite_none_right_eq_some, Text.startsWith, List.isPrefixOf_iff_prefix,
    Option.some_inj]
  constructor
  · rintro ⟨⟨rest, hrest⟩, rfl⟩
    apply String.toList_inj.mp
    rw [← hrest, List.drop_left, String.toList_append, String.toList_ofList, hrest]
  · rintro rfl
    rw [String.toList_append, List.drop_left, String.ofList_toList]
    exact ⟨List.prefix_append _ _, rfl⟩

namespace Caching

/-- The files whose path begins with `start`, without it. -/
def beneath (files : OrderedMap String Blob) (start : String) : OrderedMap String Blob :=
  .ofList (files.entries.filterMap fun (path, blob) =>
    (Text.stripStart path start).map fun p => (p, blob))

/-- `Caching::recipe`.  The commit of the grader is left out. -/
def recipe (config : Caching) (grader : Snapshot) : Except Error Snapshot := do
  config.validate
  let recipe : Snapshot :=
    ⟨String.ofList (List.replicate 40 '0'), beneath grader.files (config.recipeDir ++ "/")⟩
  recipe.validate
  check (recipe.files.entries ≠ []) "cache recipe directory is empty or missing"
  return recipe

/-- **The files of a recipe** are those beneath its directory. -/
theorem get?_beneath (files : OrderedMap String Blob) (start p : String) :
    (beneath files start).get? p = files.get? (start ++ p) := by
  have hkeys : (files.entries.filterMap fun e => (Text.stripStart e.1 start).map fun p =>
      (p, e.2)).map Prod.fst = files.keys.filterMap fun path => Text.stripStart path start := by
    rw [OrderedMap.keys, List.map_filterMap, List.filterMap_map]
    refine List.filterMap_congr fun e _ => ?_
    rw [Function.comp_apply, Option.map_map]
    exact congrFun Option.map_id _
  have hnodup : ((files.entries.filterMap fun e => (Text.stripStart e.1 start).map fun p =>
      (p, e.2)).map Prod.fst).Nodup := by
    rw [hkeys]
    refine files.keys_nodup.filterMap fun x y p hx hy => ?_
    rw [Text.stripStart_iff.mp hx, Text.stripStart_iff.mp hy]
  apply Option.ext
  intro blob
  rw [beneath, OrderedMap.get?_ofList hnodup, ← OrderedMap.mem_entries_iff, List.mem_filterMap]
  constructor
  · rintro ⟨⟨path, blob'⟩, hmem, hsome⟩
    obtain ⟨q, hq, heq⟩ := Option.map_eq_some_iff.mp hsome
    rw [Prod.mk.injEq] at heq
    obtain ⟨rfl, rfl⟩ := heq
    rw [← Text.stripStart_iff.mp hq]
    exact hmem
  · intro hmem
    refine ⟨(start ++ p, blob), hmem, ?_⟩
    rw [Text.stripStart_iff.mpr rfl]
    rfl

theorem recipe_ok {config : Caching} {grader recipe : Snapshot}
    (h : config.recipe grader = .ok recipe) : recipe.validate = .ok () ∧
      recipe.sha = String.ofList (List.replicate 40 '0') ∧
      recipe.files = beneath grader.files (config.recipeDir ++ "/") := by
  simp only [Caching.recipe, bind_ok, pure_ok] at h
  obtain ⟨_, _, _, hvalid, _, _, rfl⟩ := h
  exact ⟨hvalid, rfl, rfl⟩

theorem recipe_congr {config : Caching} {grader grader' : Snapshot}
    (h : ∀ p, grader.files.get? (config.recipeDir ++ "/" ++ p) =
      grader'.files.get? (config.recipeDir ++ "/" ++ p)) :
    config.recipe grader = config.recipe grader' := by
  have hfiles : beneath grader.files (config.recipeDir ++ "/") =
      beneath grader'.files (config.recipeDir ++ "/") := by
    apply OrderedMap.ext_get?
    intro p
    rw [get?_beneath, get?_beneath, h]
  rw [Caching.recipe, Caching.recipe, hfiles]

/-! ### Keys -/

/-- What `Caching::key` hashes. -/
def keyInput (config : Caching) (image : String) (source recipe : Snapshot) : List UInt8 :=
  toVec (.arr [stringJson "cache-preparation-v1", stringJson image, config.toJson,
    source.toJson, recipe.toJson])

/-- `Caching::key`. -/
def key [Sha256] (config : Caching) (image : String) (source recipe : Snapshot) : Except Error String := do
  config.validate
  source.validate
  recipe.validate
  validateImage image
  return digest (config.keyInput image source recipe)

theorem keyInput_inj {c c' : Caching} {image image' : String} {source source' recipe recipe' : Snapshot}
    (h : c.keyInput image source recipe = c'.keyInput image' source' recipe') :
    image = image' ∧ c = c' ∧ source = source' ∧ recipe = recipe' := by
  have hjson := toVec_inj h
  simp only [Json.arr.injEq, List.cons.injEq, true_and, and_true] at hjson
  obtain ⟨himage, hconfig, hsource, hrecipe⟩ := hjson
  exact ⟨stringJson_inj himage, Caching.toJson_inj hconfig, Snapshot.toJson_inj hsource,
    Snapshot.toJson_inj hrecipe⟩

theorem key_ok [Sha256] {config : Caching} {image : String} {source recipe : Snapshot} {k : String}
    (h : config.key image source recipe = .ok k) :
    source.validate = .ok () ∧ k = digest (config.keyInput image source recipe) := by
  simp only [key, bind_ok, pure_ok] at h
  obtain ⟨_, _, _, hsource, _, _, _, _, rfl⟩ := h
  exact ⟨hsource, rfl⟩

/-- What a preparation is about. -/
structure Inputs where
  image : String
  config : Caching
  source : Snapshot
  grader : Snapshot

namespace Inputs

/-- The key of a preparation, its recipe cut out of the grader. -/
def key [Sha256] (i : Inputs) : Except Error String := do
  let recipe ← i.config.recipe i.grader
  i.config.key i.image i.source recipe

/-- What is hashed for the key. -/
def Hashed (i : Inputs) (bytes : List UInt8) : Prop :=
  ∃ recipe, i.config.recipe i.grader = .ok recipe ∧
    i.config.keyInput i.image i.source recipe = bytes

/-- The grader has a file of this path beneath the recipe directory. -/
def HasRecipe (i : Inputs) (path mode : String) (bytes : List UInt8) : Prop :=
  i.grader.HasFile (i.config.recipeDir ++ "/" ++ path) mode bytes

theorem Hashed.unique {i : Inputs} {x y : List UInt8} (hx : i.Hashed x) (hy : i.Hashed y) :
    x = y := by
  obtain ⟨r, hr, rfl⟩ := hx
  obtain ⟨q, hq, rfl⟩ := hy
  rw [hr, Except.ok.injEq] at hq
  rw [hq]

/-- The key is the digest of what is hashed. -/
theorem Hashed.key [Sha256] {i : Inputs} {bytes : List UInt8} (h : i.Hashed bytes) {k : String}
    (hk : i.key = .ok k) : k = digest bytes := by
  obtain ⟨r, hr, rfl⟩ := h
  simp only [Inputs.key, bind_ok] at hk
  obtain ⟨q, hq, hk⟩ := hk
  rw [hr, Except.ok.injEq] at hq
  rw [hq]
  simp only [Caching.key, bind_ok, pure_ok] at hk
  obtain ⟨_, _, _, _, _, _, _, _, rfl⟩ := hk
  rfl

theorem hasFile_recipe {i : Inputs} {recipe : Snapshot} (h : i.config.recipe i.grader = .ok recipe)
    (path mode : String) (bytes : List UInt8) :
    recipe.HasFile path mode bytes ↔ i.HasRecipe path mode bytes := by
  rw [HasRecipe, Snapshot.HasFile, Snapshot.HasFile, (recipe_ok h).2.2, get?_beneath]

/-- The inputs of two preparations are the same. -/
structure Same (i j : Inputs) : Prop where
  image : i.image = j.image
  config : i.config = j.config
  sha : i.source.sha = j.source.sha
  source : ∀ path mode bytes, i.source.HasFile path mode bytes ↔ j.source.HasFile path mode bytes
  recipe : ∀ path mode bytes, i.HasRecipe path mode bytes ↔ j.HasRecipe path mode bytes

end Inputs

/-- **Keys are equal exactly where the inputs are**, and neither the commit of the
grader nor its other files have influence. -/
theorem key_exact [Sha256] {i j : Inputs} {k l : String} (hi : i.key = .ok k) (hj : j.key = .ok l)
    (hcf : CollisionFree fun bytes => i.Hashed bytes ∨ j.Hashed bytes) :
    (k = l ↔ i.Same j) ∧
    ∀ grader : Snapshot, (∀ path, grader.files.get? (i.config.recipeDir ++ "/" ++ path) =
        i.grader.files.get? (i.config.recipeDir ++ "/" ++ path)) →
      { i with grader }.key = .ok k := by
  simp only [Inputs.key, bind_ok] at hi hj
  obtain ⟨r, hr, hk⟩ := hi
  obtain ⟨q, hq, hl⟩ := hj
  have hgrader : ∀ grader : Snapshot,
      (∀ path, grader.files.get? (i.config.recipeDir ++ "/" ++ path) =
        i.grader.files.get? (i.config.recipeDir ++ "/" ++ path)) →
      { i with grader }.key = .ok k := by
    intro grader hsame
    simp only [Inputs.key, bind_ok]
    exact ⟨r, (recipe_congr hsame).trans hr, hk⟩
  obtain ⟨hvalid, rfl⟩ := key_ok hk
  obtain ⟨hvalid', rfl⟩ := key_ok hl
  refine ⟨⟨fun heq => ?_, fun h => ?_⟩, hgrader⟩
  · have hinput := hcf.eq (.inl ⟨r, hr, rfl⟩) (.inr ⟨q, hq, rfl⟩) heq
    obtain ⟨himage, hconfig, hsource, rfl⟩ := keyInput_inj hinput
    refine ⟨himage, hconfig, by rw [hsource], fun _ _ _ => by rw [hsource], fun p m x => ?_⟩
    rw [← Inputs.hasFile_recipe hr, ← Inputs.hasFile_recipe hq]
  · have hsource := Snapshot.eq_of_files hvalid hvalid' h.sha h.source
    have hrecipe : r = q := by
      refine Snapshot.eq_of_files (recipe_ok hr).1 (recipe_ok hq).1
        ((recipe_ok hr).2.1.trans (recipe_ok hq).2.1.symm) fun p m x => ?_
      rw [Inputs.hasFile_recipe hr, Inputs.hasFile_recipe hq]
      exact h.recipe p m x
    rw [h.image, h.config, hsource, hrecipe]

end Caching

namespace Sample

attribute [local instance] Sha256.standard

/-- A preparation on a source of one file, with a grader of this commit and with this
private file. -/
def prepared (program : String) (commit : Char) (hidden : String) : Caching.Inputs where
  image := "runner@sha256:" ++ String.ofList (List.replicate 64 'a')
  config :=
    { version := 1, recipeDir := "cache", command := ["/bin/sh"], timeoutSeconds := 60,
      resources := ⟨1, 1, 2⟩, architecture := "amd64",
      artifacts := [⟨"compiler", "ccache", "/cache/compiler", .readOnly, 1⟩] }
  source := ⟨String.ofList (List.replicate 40 'a'), .ofList [("main.c", ⟨"100644", program⟩)]⟩
  grader := ⟨String.ofList (List.replicate 40 commit), .ofList [
    ("cache/prepare.sh", ⟨"100755", "ZWNobw=="⟩), ("private.py", ⟨"100644", hidden⟩)]⟩

/-- **Another program has another key**, and another commit of the grader with another
private file the same. -/
theorem key_exact_private : ∃ k l, (prepared "aW50" 'b' "c2VjcmV0").key = .ok k ∧
    (prepared "Y2hhcg==" 'b' "c2VjcmV0").key = .ok l ∧
    ¬ (prepared "aW50" 'b' "c2VjcmV0").Same (prepared "Y2hhcg==" 'b' "c2VjcmV0") ∧
    (prepared "aW50" 'c' "b3RoZXI=").key = .ok k := by
  generalize hi : prepared "aW50" 'b' "c2VjcmV0" = i
  generalize hj : prepared "Y2hhcg==" 'b' "c2VjcmV0" = j
  have hok : i.key.isOk = true ∧ j.key.isOk = true ∧ i.key.toOption ≠ j.key.toOption := by
    rw [← hi, ← hj]
    decide +kernel
  have hvalue : ∀ {x : Except Error String}, x.isOk = true → ∃ k, x = .ok k := by
    intro x hx
    cases x with
    | ok k => exact ⟨k, rfl⟩
    | error e => cases hx
  obtain ⟨k, hk⟩ := hvalue hok.1
  obtain ⟨l, hl⟩ := hvalue hok.2.1
  have hne : k ≠ l := by
    rintro rfl
    exact hok.2.2 (by rw [hk, hl])
  have hcf : CollisionFree fun bytes => i.Hashed bytes ∨ j.Hashed bytes := by
    intro x y hx hy hsum
    have hdigest : digest x = digest y := by
      rw [digest, digest, hsum]
    rcases hx with hx | hx
    · rcases hy with hy | hy
      · exact hx.unique hy
      · exact absurd ((hx.key hk).trans (hdigest.trans (hy.key hl).symm)) hne
    · rcases hy with hy | hy
      · exact absurd ((hy.key hk).trans (hdigest.symm.trans (hx.key hl).symm)) hne
      · exact hx.unique hy
  obtain ⟨hexact, hgrader⟩ := Caching.key_exact hk hl hcf
  refine ⟨k, l, hk, hl, fun hsame => hne (hexact.mpr hsame), ?_⟩
  subst hi
  refine hgrader (prepared "aW50" 'c' "b3RoZXI=").grader fun path => ?_
  have hapart : "cache" ++ "/" ++ path ≠ "private.py" := by
    intro h
    have hlist := congrArg String.toList h
    rw [String.toList_append, String.toList_append] at hlist
    exact absurd (List.cons.inj hlist).1 (by decide)
  have hfiles : ∀ commit hidden blob, (prepared "aW50" commit hidden).grader.files.get?
      ("cache" ++ "/" ++ path) = some blob ↔
        "cache" ++ "/" ++ path = "cache/prepare.sh" ∧ blob = ⟨"100755", "ZWNobw=="⟩ := by
    intro commit hidden blob
    have hkeys : ([("cache/prepare.sh", (⟨"100755", "ZWNobw=="⟩ : Blob)),
        ("private.py", ⟨"100644", hidden⟩)].map Prod.fst).Nodup := of_decide_eq_true rfl
    rw [prepared, OrderedMap.get?_ofList hkeys, List.mem_cons, List.mem_singleton, Prod.mk.injEq,
      Prod.mk.injEq, or_iff_left fun h => hapart h.1]
  exact Option.ext fun blob => (hfiles _ _ blob).trans (hfiles _ _ blob).symm

end Sample

end Grading

import SrgGrading.Library.Tree
import SrgGrading.Core.Protocol

/-!
# The manifest of a cache

The export directories of a cache preparation, and the manifest a seed is known
by.  The scan reads a directory in whatever order the file system yields its
entries and visits them by name; it records of each what kind it is, its content
and whether anybody may execute it.

* `scan_spec`: what a scan that succeeds appends to the manifest.
* `manifest_eq_iff`: two exports have the same manifest exactly when they hold
  the same.
* `manifest_seal`: sealing an export does not change its manifest.
-/

open Fallible

namespace Grading

namespace Caching

/-! ### The file system -/

/-- What is under a name on the staging volume; directory entries come in the
order the file system yields them. -/
inductive Node
  | file (mode nlink : Nat) (mtime : Time) (bytes : List UInt8)
  | dir (mode : Nat) (mtime : Time) (entries : List (String × Node))
  /-- A symlink, a socket or a device. -/
  | special
  /-- Anything whose name is not UTF-8, which its key only stands for. -/
  | unnamed

/-- The permission bits `0o111`. -/
def executable (mode : Nat) : Bool := mode &&& 73 ≠ 0

/-! ### Entries of the manifest -/

/-- `caching::Entry`. -/
structure Entry where
  path : String
  bytes : Nat
  executable : Bool
  hash : String
  deriving DecidableEq

def Entry.toJson (e : Entry) : Json :=
  .obj [member "path" (stringJson e.path), member "bytes" (natJson e.bytes),
    member "executable" (.bool e.executable), member "hash" (stringJson e.hash)]

/-- `caching::Manifest`. -/
structure ExportManifest where
  inputKey : String
  entries : List Entry

def ExportManifest.toJson (m : ExportManifest) : Json :=
  .obj [member "input_key" (stringJson m.inputKey), member "entries" (.arr (m.entries.map Entry.toJson))]

/-! ### Scanning -/

def maxEntries : Nat := 100000

/-- What a scan has found so far. -/
structure Scan where
  entries : List Entry
  total : Nat

/-- The checks on the path of an entry. -/
def enter (path : String) (s : Scan) : Except Error Unit := do
  check (s.entries.length < maxEntries) "too many cache entries"
  safePath path
  check ((Text.split path '/').length ≤ 32) "cache directory nesting exceeds limit"

/-- The entries of a directory, one after the other. -/
def visit : List (String × (String → Scan → Except Error Scan)) → String → Scan →
    Except Error Scan
  | [], _, s => return s
  | (name, scan) :: rest, path, s => do
    let s ← scan (path ++ "/" ++ name) s
    visit rest path s

section Manifest
variable [Sha256]

mutual

/-- `scan`, without what `seal` adds to it.  Its recursion is taken to fit on the
stack, where each component of a path takes 64 KiB. -/
def Node.scan (limit : Nat) : Node → String → Scan → Except Error Scan
  | .unnamed => fun _ s => do
    check (s.entries.length < maxEntries) "too many cache entries"
    check false "non-UTF8 cache path"
    return s
  | .special => fun path s => do
    enter path s
    check false "cache exports must be regular files without hard links"
    return s
  | .file mode nlink _ bytes => fun path s => do
    enter path s
    check (nlink = 1) "cache exports must be regular files without hard links"
    check (s.total + bytes.length < 2 ^ 64) "cache size overflow"
    check (s.total + bytes.length ≤ limit) "cache export exceeds size limit"
    return ⟨s.entries ++ [⟨path, bytes.length, executable mode, digest bytes⟩],
      s.total + bytes.length⟩
  | .dir _ _ entries => fun path s => do
    enter path s
    check (entries.length ≤ maxEntries) "too many cache entries"
    visit ((scans limit entries).insertionSort (NamedTree.Before _)) path
      ⟨s.entries ++ [⟨path, 0, true, ""⟩], s.total⟩

def scans (limit : Nat) :
    List (String × Node) → List (String × (String → Scan → Except Error Scan))
  | [] => []
  | (name, node) :: rest => (name, node.scan limit) :: scans limit rest

end

/-- The directory under a name. -/
def Node.directory (name : String) : Node → Except Error Node
  | .dir _ _ entries => do
    let entry ← fetchOne (.message "No such file or directory (os error 2)")
      (entries.find? fun e => e.1 = name)
    match entry.2 with
    | .dir mode mtime entries => return .dir mode mtime entries
    | _ => throw (.message "cache path is not a real directory")
  | _ => throw (.message "cache path is not a real directory")

/-- The loop of `manifest` over the artifacts. -/
def scanArtifacts (root : Node) : List CacheArtifact → List Entry → Except Error (List Entry)
  | [], entries => return entries
  | artifact :: rest, entries => do
    let node ← root.directory artifact.name
    let s ← node.scan (artifact.maxSizeGib * 2 ^ 30) artifact.name ⟨entries, 0⟩
    scanArtifacts root rest s.entries

def manifest (root : Node) (config : Caching) (key : String) : Except Error (List UInt8) := do
  let entries ← scanArtifacts root config.artifacts []
  return toVec (ExportManifest.toJson ⟨key, entries⟩)

end Manifest

/-! ### Sealing -/

mutual

/-- What `seal` leaves of a tree. -/
def Node.sealed : Node → Node
  | .file mode nlink mtime bytes =>
    .file (if executable mode then 365 else 292) nlink mtime bytes
  | .dir _ mtime entries => .dir 365 mtime (sealedEntries entries)
  | .special => .special
  | .unnamed => .unnamed

def sealedEntries : List (String × Node) → List (String × Node)
  | [] => []
  | (name, node) :: rest => (name, node.sealed) :: sealedEntries rest

end

/-- The export directory after its artifacts are sealed. -/
def sealArtifacts (config : Caching) : Node → Node
  | .dir mode mtime entries => .dir mode mtime (entries.map fun e =>
      if config.artifacts.any fun a => a.name = e.1 then (e.1, e.2.sealed) else e)
  | node => node

/-! ### What a tree holds -/

/-- What the manifest tells of a path. -/
inductive Content
  | dir
  | file (bytes : List UInt8) (executable : Bool)
  | other

mutual

/-- A tree without times, links and the order of its directories. -/
def Node.contents : Node → NamedTree String Content
  | .file mode _ _ bytes => .node (.file bytes (executable mode)) []
  | .dir _ _ entries => .node .dir (contentsOf entries)
  | .special => .node .other []
  | .unnamed => .node .other []

def contentsOf : List (String × Node) → List (String × NamedTree String Content)
  | [] => []
  | (name, node) :: rest => (name, node.contents) :: contentsOf rest

end

/-- Induction with a hypothesis for each entry of a directory. -/
theorem Node.induct {motive : Node → Prop}
    (file : ∀ mode nlink mtime bytes, motive (.file mode nlink mtime bytes))
    (dir : ∀ mode mtime entries, (∀ e ∈ entries, motive e.2) → motive (.dir mode mtime entries))
    (special : motive .special) (unnamed : motive .unnamed) : ∀ node, motive node
  | .file mode nlink mtime bytes => file mode nlink mtime bytes
  | .dir mode mtime entries =>
    dir mode mtime entries fun e _ => Node.induct file dir special unnamed e.2
  | .special => special
  | .unnamed => unnamed
termination_by node => sizeOf node
decreasing_by
  have hlt := List.sizeOf_lt_of_mem ‹e ∈ entries›
  obtain ⟨name, node⟩ := e
  simp only [Prod.mk.sizeOf_spec, Node.dir.sizeOf_spec] at hlt ⊢
  omega

theorem contentsOf_eq_map (entries : List (String × Node)) :
    contentsOf entries = entries.map fun e => (e.1, e.2.contents) := by
  induction entries with
  | nil => rfl
  | cons e rest ih => rw [contentsOf, ih, List.map_cons]

/-- A path below another. -/
def join (path : String) (names : List String) : String :=
  names.foldl (fun path name => path ++ "/" ++ name) path

/-- The entry of a path below `path`. -/
def entryOf [Sha256] (path : String) (e : List String × Content) : Entry :=
  match e.2 with
  | .dir => ⟨join path e.1, 0, true, ""⟩
  | .file bytes executable => ⟨join path e.1, bytes.length, executable, digest bytes⟩
  | .other => ⟨join path e.1, 0, false, ""⟩

/-! ### What a scan finds -/

section Spec
variable [Sha256]

theorem scans_eq_map (limit : Nat) (entries : List (String × Node)) :
    scans limit entries = entries.map fun e => (e.1, e.2.scan limit) := by
  induction entries with
  | nil => rfl
  | cons e rest ih => rw [scans, ih, List.map_cons]

omit [Sha256] in
/-- Sorting by name commutes with what is done under the names. -/
theorem sort_map {α β : Type} (f : α → β) (entries : List (String × α)) :
    (entries.map fun e => (e.1, f e.2)).insertionSort (NamedTree.Before β) =
      (entries.insertionSort (NamedTree.Before α)).map fun e => (e.1, f e.2) :=
  (List.map_insertionSort (NamedTree.Before α) (NamedTree.Before β) (fun e => (e.1, f e.2)) entries
    fun _ _ _ _ => Iff.rfl).symm

omit [Sha256] in
/-- The listing of a directory. -/
theorem listing_dir (mode : Nat) (mtime : Time) (entries : List (String × Node)) :
    (Node.dir mode mtime entries).contents.listing = ([], .dir) ::
      (entries.insertionSort (NamedTree.Before Node)).flatMap fun e =>
        NamedTree.push e.1 e.2.contents.listing := by
  rw [Node.contents, NamedTree.listing, NamedTree.listings_eq_map, contentsOf_eq_map, List.map_map]
  have hsort := sort_map (fun node : Node => node.contents.listing) entries
  rw [show ((fun c : String × NamedTree String Content => (c.1, c.2.listing)) ∘
    fun e : String × Node => (e.1, e.2.contents)) =
      fun e => (e.1, e.2.contents.listing) from rfl, hsort, List.flatMap_map]

theorem entryOf_push (path name : String) (l : List (List String × Content)) :
    (NamedTree.push name l).map (entryOf path) = l.map (entryOf (path ++ "/" ++ name)) := by
  rw [NamedTree.push, List.map_map]
  rfl

/-- What visiting the entries of a directory appends, when scanning each of them
appends its listing. -/
theorem visit_spec {limit : Nat} {path : String} :
    ∀ {entries : List (String × Node)} {s s' : Scan},
    (∀ e ∈ entries, ∀ path s s', e.2.scan limit path s = .ok s' →
      s'.entries = s.entries ++ e.2.contents.listing.map (entryOf path) ∧
        ∀ c ∈ e.2.contents.listing, c.2 ≠ .other) →
    visit (entries.map fun e => (e.1, e.2.scan limit)) path s = .ok s' →
    s'.entries = s.entries ++
        (entries.flatMap fun e => NamedTree.push e.1 e.2.contents.listing).map (entryOf path) ∧
      ∀ c ∈ entries.flatMap fun e => NamedTree.push e.1 e.2.contents.listing, c.2 ≠ .other := by
  intro entries
  induction entries with
  | nil =>
    intro s s' _ h
    rw [List.map_nil, visit, pure_ok] at h
    rw [h]
    exact ⟨(List.append_nil _).symm, fun c hc => by cases hc⟩
  | cons e rest ih =>
    intro s s' hall h
    rw [List.map_cons, visit, bind_ok] at h
    obtain ⟨s₁, h₁, h₂⟩ := h
    obtain ⟨hfirst, hplain⟩ := hall e List.mem_cons_self _ _ _ h₁
    obtain ⟨hrest, hplains⟩ := ih (fun f hf => hall f (List.mem_cons_of_mem _ hf)) h₂
    constructor
    · rw [hrest, hfirst, List.flatMap_cons, List.map_append, entryOf_push, List.append_assoc]
    · intro c hc
      rw [List.flatMap_cons, List.mem_append] at hc
      rcases hc with hc | hc
      · obtain ⟨d, hd, rfl⟩ := List.mem_map.mp hc
        exact hplain d hd
      · exact hplains c hc

/-- **A scan that succeeds appends the listing of the tree**, and met nothing but
directories and files. -/
theorem scan_spec {limit : Nat} {node : Node} : ∀ {path : String} {s s' : Scan},
    node.scan limit path s = .ok s' →
    s'.entries = s.entries ++ node.contents.listing.map (entryOf path) ∧
      ∀ c ∈ node.contents.listing, c.2 ≠ .other := by
  induction node using Node.induct with
  | file mode nlink mtime bytes =>
    intro path s s' h
    simp only [Node.scan, bind_ok, pure_ok] at h
    obtain ⟨_, _, _, _, _, _, _, _, rfl⟩ := h
    refine ⟨rfl, fun c hc => ?_⟩
    rw [Node.contents, NamedTree.listing, NamedTree.listings] at hc
    rw [List.mem_singleton.mp hc]
    simp
  | dir mode mtime entries ih =>
    intro path s s' h
    simp only [Node.scan, bind_ok, scans_eq_map, sort_map] at h
    obtain ⟨_, _, _, _, h⟩ := h
    obtain ⟨hentries, hplain⟩ := visit_spec (fun e he path s s' hs =>
      ih e ((List.mem_insertionSort _).mp he) hs) h
    rw [listing_dir]
    constructor
    · rw [hentries, List.map_cons, List.append_assoc]
      rfl
    · intro c hc
      rcases List.mem_cons.mp hc with h | h
      · rw [h]
        simp
      · exact hplain c h
  | special =>
    intro path s s' h
    simp only [Node.scan, bind_ok, check_ok] at h
    obtain ⟨_, _, _, hno, _⟩ := h
    cases hno
  | unnamed =>
    intro path s s' h
    simp only [Node.scan, bind_ok, check_ok] at h
    obtain ⟨_, _, _, hno, _⟩ := h
    cases hno

end Spec

/-! ### Paths -/

/-- The text of names below a path. -/
def below (names : List String) : List Char := names.flatMap fun name => '/' :: name.toList

theorem below_nil_or_slash (names : List String) :
    below names = [] ∨ ∃ t, below names = '/' :: t := by
  cases names with
  | nil => exact Or.inl rfl
  | cons name rest => exact Or.inr ⟨_, rfl⟩

theorem join_toList (path : String) (names : List String) :
    (join path names).toList = path.toList ++ below names := by
  induction names generalizing path with
  | nil => exact (List.append_nil _).symm
  | cons name rest ih =>
    have hslash : "/".toList = ['/'] := rfl
    have hstep : join path (name :: rest) = join (path ++ "/" ++ name) rest := rfl
    rw [hstep, ih, String.toList_append, String.toList_append, hslash, below, below,
      List.flatMap_cons]
    simp only [List.append_assoc, List.cons_append, List.nil_append]

theorem below_inj {p q : List String} (hp : ∀ name ∈ p, '/' ∉ name.toList)
    (hq : ∀ name ∈ q, '/' ∉ name.toList) (h : below p = below q) : p = q := by
  induction p generalizing q with
  | nil =>
    cases q with
    | nil => rfl
    | cons name rest => cases h
  | cons m p ih =>
    cases q with
    | nil => cases h
    | cons n q =>
      have hcons : ∀ (name : String) (rest : List String),
          below (name :: rest) = '/' :: (name.toList ++ below rest) := fun _ _ => rfl
      rw [hcons, hcons, List.cons.injEq] at h
      obtain ⟨hmn, hrest⟩ := Text.cut_inj (hp m List.mem_cons_self) (hq n List.mem_cons_self)
        (below_nil_or_slash p) (below_nil_or_slash q) h.2
      rw [String.toList_inj.mp hmn, ih (fun name hm => hp name (List.mem_cons_of_mem _ hm))
        (fun name hm => hq name (List.mem_cons_of_mem _ hm)) hrest]

/-- **A path tells its names.** -/
theorem join_inj {a b : String} {p q : List String} (ha : '/' ∉ a.toList) (hb : '/' ∉ b.toList)
    (hp : ∀ name ∈ p, '/' ∉ name.toList) (hq : ∀ name ∈ q, '/' ∉ name.toList)
    (h : join a p = join b q) : a = b ∧ p = q := by
  have hlist : a.toList ++ below p = b.toList ++ below q := by
    rw [← join_toList, ← join_toList, h]
  obtain ⟨hab, hbelow⟩ := Text.cut_inj ha hb (below_nil_or_slash p) (below_nil_or_slash q) hlist
  exact ⟨String.toList_inj.mp hab, below_inj hp hq hbelow⟩

/-! ### Trees of a file system -/

/-- The names in a directory are distinct and without `'/'`, as in any file
system. -/
inductive Node.WellNamed : Node → Prop
  | file (mode nlink : Nat) (mtime : Time) (bytes : List UInt8) :
      WellNamed (.file mode nlink mtime bytes)
  | dir {mode : Nat} {mtime : Time} {entries : List (String × Node)}
      (names : (entries.map Prod.fst).Nodup) (plain : ∀ e ∈ entries, '/' ∉ e.1.toList)
      (below : ∀ e ∈ entries, WellNamed e.2) : WellNamed (.dir mode mtime entries)
  | special : WellNamed .special
  | unnamed : WellNamed .unnamed

theorem Node.WellNamed.distinct {node : Node} (h : node.WellNamed) : node.contents.Distinct := by
  have hleaf : ∀ c : Content, (NamedTree.node c [] : NamedTree String Content).Distinct := fun _ =>
    .node List.nodup_nil fun _ hc => by cases hc
  induction node using Node.induct with
  | file => exact hleaf _
  | dir mode mtime entries ih =>
    cases h with
    | dir names plain below =>
      rw [Node.contents, contentsOf_eq_map]
      refine .node ?_ fun c hc => ?_
      · rw [List.map_map]
        exact names
      · obtain ⟨e, he, rfl⟩ := List.mem_map.mp hc
        exact ih e he (below e he)
  | special => exact hleaf _
  | unnamed => exact hleaf _

theorem Node.WellNamed.plain {node : Node} (h : node.WellNamed) : ∀ {p : List String}
    {c : Content}, NamedTree.At p node.contents c → ∀ name ∈ p, '/' ∉ name.toList := by
  induction node using Node.induct with
  | dir mode mtime entries ih =>
    cases h with
    | dir names plain below =>
      intro p c hat name hname
      cases p with
      | nil => cases hname
      | cons k p =>
        rw [Node.contents, contentsOf_eq_map] at hat
        obtain ⟨t, ht, hat⟩ := hat
        obtain ⟨e, he, heq⟩ := List.mem_map.mp ht
        rw [Prod.mk.injEq] at heq
        rcases List.mem_cons.mp hname with hk | hp
        · rw [hk, ← heq.1]
          exact plain e he
        · rw [← heq.2] at hat
          exact ih e he (below e he) hat name hp
  | file =>
    intro p c hat name hname
    cases p with
    | nil => cases hname
    | cons k p =>
      obtain ⟨t, ht, _⟩ := hat
      cases ht
  | special =>
    intro p c hat name hname
    cases p with
    | nil => cases hname
    | cons k p =>
      obtain ⟨t, ht, _⟩ := hat
      cases ht
  | unnamed =>
    intro p c hat name hname
    cases p with
    | nil => cases hname
    | cons k p =>
      obtain ⟨t, ht, _⟩ := hat
      cases ht

/-- What the export holds at a path below an artifact. -/
def Node.Holds (root : Node) (artifact : String) (p : List String) (c : Content) : Prop :=
  ∃ node, root.directory artifact = .ok node ∧ NamedTree.At p node.contents c

theorem directory_wellNamed {root node : Node} {name : String} (h : root.WellNamed)
    (hd : root.directory name = .ok node) : node.WellNamed := by
  cases h with
  | dir names plain below =>
    simp only [Node.directory, bind_ok, fetchOne_ok] at hd
    obtain ⟨e, he, hd⟩ := hd
    have hnode := below e (List.mem_of_find?_eq_some he)
    split at hd
    · rename_i heq
      rw [pure_ok] at hd
      rw [← hd, ← heq]
      exact hnode
    · cases hd
  | _ => cases hd

/-! ### The manifest -/

section Results
variable [Sha256]

/-- The entries of an artifact. -/
def exported (root : Node) (artifact : String) : List Entry :=
  match root.directory artifact with
  | .ok node => node.contents.listing.map (entryOf artifact)
  | .error _ => []

theorem exported_ok {root node : Node} {artifact : String}
    (h : root.directory artifact = .ok node) :
    exported root artifact = node.contents.listing.map (entryOf artifact) := by
  simp only [exported, h]

theorem mem_exported {root : Node} {artifact : String} {e : Entry} :
    e ∈ exported root artifact ↔ ∃ p c, root.Holds artifact p c ∧ e = entryOf artifact (p, c) := by
  simp only [exported, Node.Holds]
  cases hd : root.directory artifact with
  | error =>
    refine ⟨fun h => absurd h List.not_mem_nil, ?_⟩
    rintro ⟨_, _, ⟨_, hd', _⟩, _⟩
    cases hd'
  | ok node =>
    constructor
    · intro h
      obtain ⟨⟨p, c⟩, hmem, heq⟩ := List.mem_map.mp h
      exact ⟨p, c, ⟨node, rfl, NamedTree.mem_listing.mp hmem⟩, heq.symm⟩
    · rintro ⟨p, c, ⟨node', hnode, hat⟩, rfl⟩
      cases hnode
      exact List.mem_map_of_mem (NamedTree.mem_listing.mpr hat)

/-- **A manifest lists what the artifacts hold**: directories and files. -/
theorem scanArtifacts_spec {root : Node} : ∀ {artifacts : List CacheArtifact}
    {entries entries' : List Entry}, scanArtifacts root artifacts entries = .ok entries' →
    (∀ a ∈ artifacts, (∃ node, root.directory a.name = .ok node) ∧
      ∀ p, ¬ root.Holds a.name p .other) ∧
    entries' = entries ++ artifacts.flatMap fun a => exported root a.name := by
  intro artifacts
  induction artifacts with
  | nil =>
    intro entries entries' h
    rw [scanArtifacts, pure_ok] at h
    refine ⟨fun a ha => absurd ha List.not_mem_nil, ?_⟩
    rw [h, List.flatMap_nil, List.append_nil]
  | cons a rest ih =>
    intro entries entries' h
    simp only [scanArtifacts, bind_ok] at h
    obtain ⟨node, hnode, s, hs, h⟩ := h
    obtain ⟨hscan, hplain⟩ := scan_spec hs
    obtain ⟨hall, hentries⟩ := ih h
    refine ⟨fun b hb => ?_, ?_⟩
    · rcases List.mem_cons.mp hb with hb | hb
      · rw [hb]
        refine ⟨⟨node, hnode⟩, ?_⟩
        rintro p ⟨node', hnode', hat⟩
        rw [hnode, Except.ok.injEq] at hnode'
        rw [← hnode'] at hat
        exact hplain _ (NamedTree.mem_listing.mpr hat) rfl
      · exact hall b hb
    · rw [hentries, hscan, List.flatMap_cons, exported_ok hnode, List.append_assoc]

omit [Sha256] in
theorem Entry.toJson_inj {a b : Entry} (h : a.toJson = b.toJson) : a = b := by
  simp only [Entry.toJson, member, Json.obj.injEq, List.cons.injEq, Prod.mk.injEq, true_and,
    and_true, Json.bool.injEq] at h
  cases a
  cases b
  simp only [Entry.mk.injEq]
  exact ⟨stringJson_inj h.1, natJson_inj h.2.1, h.2.2.1, stringJson_inj h.2.2.2⟩

theorem manifest_ok {root : Node} {config : Caching} {key : String} {bytes : List UInt8} :
    manifest root config key = .ok bytes ↔ ∃ entries,
      scanArtifacts root config.artifacts [] = .ok entries ∧
        toVec (ExportManifest.toJson ⟨key, entries⟩) = bytes := by
  simp only [manifest, bind_ok, pure_ok]

omit [Sha256] in
theorem toVec_entries_inj {key : String} {l l' : List Entry}
    (h : toVec (ExportManifest.toJson ⟨key, l⟩) = toVec (ExportManifest.toJson ⟨key, l'⟩)) :
    l = l' := by
  have hjson := toVec_inj h
  simp only [ExportManifest.toJson, member, Json.obj.injEq, List.cons.injEq, Prod.mk.injEq,
    true_and, and_true] at hjson
  exact arr_inj Entry.toJson_inj hjson

/-- An entry tells what is at its path. -/
theorem content_of_entry {a b : String} {p q : List String} {c d : Content}
    {inputs : List UInt8 → Prop} (hcf : CollisionFree inputs) (hc : c ≠ .other) (hd : d ≠ .other)
    (hci : ∀ bytes x, c = .file bytes x → inputs bytes)
    (hdi : ∀ bytes x, d = .file bytes x → inputs bytes)
    (h : entryOf a (p, c) = entryOf b (q, d)) : c = d := by
  have hdigest : ∀ bytes, digest bytes ≠ "" := by
    intro bytes heq
    have hhex := validHex_digest bytes
    rw [heq] at hhex
    cases hhex
  cases c with
  | other => exact absurd rfl hc
  | dir =>
    cases d with
    | other => exact absurd rfl hd
    | dir => rfl
    | file bytes x =>
      simp only [entryOf, Entry.mk.injEq] at h
      exact absurd h.2.2.2.symm (hdigest bytes)
  | file bytes x =>
    cases d with
    | other => exact absurd rfl hd
    | dir =>
      simp only [entryOf, Entry.mk.injEq] at h
      exact absurd h.2.2.2 (hdigest bytes)
    | file bytes' x' =>
      simp only [entryOf, Entry.mk.injEq] at h
      rw [hcf.eq (hci _ _ rfl) (hdi _ _ rfl) h.2.2.2, h.2.2.1]

omit [Sha256] in
theorem entryOf_path [Sha256] (path : String) (e : List String × Content) :
    (entryOf path e).path = join path e.1 := by
  rw [entryOf]
  split <;> rfl

omit [Sha256] in
/-- The names of the artifacts of a checked configuration have no `'/'`. -/
theorem artifact_plain {config : Caching} (h : config.validate = .ok ()) :
    ∀ a ∈ config.artifacts, '/' ∉ a.name.toList := by
  intro a ha hslash
  simp only [Caching.validate, bind_ok, each_ok] at h
  obtain ⟨_, _, _, _, _, _, _, _, _, _, _, _, _, _, _, hall, _⟩ := h
  obtain ⟨i, hi⟩ := List.mem_iff_getElem?.mp ha
  have hone := hall (a, i) (List.mem_zipIdx_iff_getElem?.mpr hi)
  simp only [Caching.validateArtifact, bind_ok, check_ok, Bool.and_eq_true,
    List.all_eq_true] at hone
  obtain ⟨_, hname, _⟩ := hone
  have hch := hname.2 '/' hslash
  revert hch
  decide

/-- Where the first of two manifests lists something, the second does. -/
theorem holds_of_entries {config : Caching} {a b : Node} (hconfig : config.validate = .ok ())
    (ha : a.WellNamed) (hb : b.WellNamed)
    (hao : ∀ x ∈ config.artifacts, ∀ p, ¬ a.Holds x.name p .other)
    (hbo : ∀ x ∈ config.artifacts, ∀ p, ¬ b.Holds x.name p .other)
    (hcf : CollisionFree fun bytes => ∃ name p x,
      a.Holds name p (.file bytes x) ∨ b.Holds name p (.file bytes x))
    (h : ∀ e, (∃ x ∈ config.artifacts, e ∈ exported a x.name) →
      ∃ x ∈ config.artifacts, e ∈ exported b x.name)
    {x : CacheArtifact} (hx : x ∈ config.artifacts) {p : List String} {c : Content}
    (hold : a.Holds x.name p c) : b.Holds x.name p c := by
  obtain ⟨y, hy, hmem⟩ := h _ ⟨x, hx, mem_exported.mpr ⟨p, c, hold, rfl⟩⟩
  obtain ⟨q, d, hold', heq⟩ := mem_exported.mp hmem
  have hplain := artifact_plain hconfig
  have hpath : join x.name p = join y.name q := by
    rw [← entryOf_path x.name (p, c), heq, entryOf_path]
  obtain ⟨node, hnode, hat⟩ := id hold
  obtain ⟨node', hnode', hat'⟩ := id hold'
  obtain ⟨hname, hpq⟩ := join_inj (hplain x hx) (hplain y hy)
    ((directory_wellNamed ha hnode).plain hat) ((directory_wellNamed hb hnode').plain hat') hpath
  have hcd : c = d := by
    refine content_of_entry hcf (fun hc => ?_) (fun hd => ?_) (fun bytes z hc => ?_)
      (fun bytes z hd => ?_) heq
    · exact hao x hx p (hc ▸ hold)
    · exact hbo y hy q (hd ▸ hold')
    · exact ⟨x.name, p, z, Or.inl (hc ▸ hold)⟩
    · exact ⟨y.name, q, z, Or.inr (hd ▸ hold')⟩
  rw [hname, hpq, hcd]
  exact hold'

/-- **The manifest is canonical and injective.**  Two exports that are accepted
have the same manifest exactly when their artifacts hold the same directories
and the same files, with the same bytes and the same executable bit; times, other
permissions and the order of directory entries do not matter. -/
theorem manifest_eq_iff {config : Caching} {key : String} {a b : Node} {x y : List UInt8}
    (hconfig : config.validate = .ok ()) (ha : a.WellNamed) (hb : b.WellNamed)
    (hx : manifest a config key = .ok x) (hy : manifest b config key = .ok y)
    (hcf : CollisionFree fun bytes => ∃ name p x,
      a.Holds name p (.file bytes x) ∨ b.Holds name p (.file bytes x)) :
    x = y ↔ ∀ artifact ∈ config.artifacts, ∀ p c,
      a.Holds artifact.name p c ↔ b.Holds artifact.name p c := by
  obtain ⟨l, hl, rfl⟩ := manifest_ok.mp hx
  obtain ⟨m, hm, rfl⟩ := manifest_ok.mp hy
  obtain ⟨halla, hla⟩ := scanArtifacts_spec hl
  obtain ⟨hallb, hmb⟩ := scanArtifacts_spec hm
  rw [List.nil_append] at hla hmb
  constructor
  · intro heq
    have hlm : l = m := toVec_entries_inj heq
    have hmem : ∀ e, (∃ x ∈ config.artifacts, e ∈ exported a x.name) ↔
        ∃ x ∈ config.artifacts, e ∈ exported b x.name := by
      intro e
      rw [← List.mem_flatMap, ← List.mem_flatMap, ← hla, ← hmb, hlm]
    intro artifact hartifact p c
    constructor
    · exact holds_of_entries hconfig ha hb (fun x hx => (halla x hx).2)
        (fun x hx => (hallb x hx).2) hcf (fun e => (hmem e).mp) hartifact
    · refine holds_of_entries hconfig hb ha (fun x hx => (hallb x hx).2)
        (fun x hx => (halla x hx).2) ?_ (fun e => (hmem e).mpr) hartifact
      rintro u v ⟨n, p, z, hu⟩ ⟨n', p', z', hv⟩
      exact hcf u v ⟨n, p, z, hu.symm⟩ ⟨n', p', z', hv.symm⟩
  · intro hsame
    have hexported : ∀ artifact ∈ config.artifacts,
        exported a artifact.name = exported b artifact.name := by
      intro artifact hartifact
      obtain ⟨node, hnode⟩ := (halla artifact hartifact).1
      obtain ⟨node', hnode'⟩ := (hallb artifact hartifact).1
      have hlisting : node.contents.listing = node'.contents.listing := by
        refine (NamedTree.listing_eq_iff (directory_wellNamed ha hnode).distinct
          (directory_wellNamed hb hnode').distinct).mpr fun p c => ?_
        have hiff := hsame artifact hartifact p c
        simp only [Node.Holds, hnode, hnode', Except.ok.injEq, exists_eq_left'] at hiff
        exact hiff
      rw [exported_ok hnode, exported_ok hnode', hlisting]
    rw [hla, hmb, List.flatMap_congr hexported]

end Results

/-! ### Sealed trees -/

section Sealing
variable [Sha256]

omit [Sha256] in
theorem sealedEntries_eq_map (entries : List (String × Node)) :
    sealedEntries entries = entries.map fun e => (e.1, e.2.sealed) := by
  induction entries with
  | nil => rfl
  | cons e rest ih => rw [sealedEntries, ih, List.map_cons]

/-- **A scan does not see that a tree was sealed.** -/
theorem scan_sealed (limit : Nat) (node : Node) :
    node.sealed.scan limit = node.scan limit := by
  induction node using Node.induct with
  | file mode nlink mtime bytes =>
    have hmode : executable (if executable mode then 365 else 292) = executable mode := by
      cases executable mode <;> decide
    funext path s
    rw [Node.sealed, Node.scan, Node.scan, hmode]
  | dir mode mtime entries ih =>
    funext path s
    have hscans : scans limit (sealedEntries entries) = scans limit entries := by
      rw [scans_eq_map, scans_eq_map, sealedEntries_eq_map, List.map_map]
      refine List.map_congr_left fun e he => ?_
      rw [Function.comp_apply, ih e he]
    have hlength : (sealedEntries entries).length = entries.length := by
      rw [sealedEntries_eq_map, List.length_map]
    rw [Node.sealed, Node.scan, Node.scan, hscans, hlength]
  | special => rfl
  | unnamed => rfl

omit [Sha256] in
/-- An artifact of a sealed export is the sealed artifact. -/
theorem directory_seal {config : Caching} {root node : Node} {artifact : CacheArtifact}
    (ha : artifact ∈ config.artifacts) (h : root.directory artifact.name = .ok node) :
    (sealArtifacts config root).directory artifact.name = .ok node.sealed := by
  cases root with
  | dir mode mtime entries =>
    simp only [Node.directory, bind_ok, fetchOne_ok] at h
    obtain ⟨e, he, h⟩ := h
    have hname := List.find?_some he
    rw [decide_eq_true_eq] at hname
    have hany : (config.artifacts.any fun a => a.name = e.1) = true := by
      rw [List.any_eq_true]
      exact ⟨artifact, ha, by rw [hname, decide_eq_true_eq]⟩
    have hfind : (entries.map fun e =>
        if config.artifacts.any fun a => a.name = e.1 then (e.1, e.2.sealed) else e).find?
          (fun e => e.1 = artifact.name) = some (e.1, e.2.sealed) := by
      rw [List.find?_map]
      have hsame : ((fun e : String × Node => decide (e.1 = artifact.name)) ∘ fun e =>
          if config.artifacts.any fun a => a.name = e.1 then (e.1, e.2.sealed) else e) =
            fun e => decide (e.1 = artifact.name) := by
        funext e
        rw [Function.comp_apply]
        split <;> rfl
      rw [hsame, he, Option.map_some, if_pos hany]
    simp only [sealArtifacts, Node.directory, hfind, bind_ok, fetchOne_ok, Option.some_inj]
    refine ⟨_, rfl, ?_⟩
    split at h
    · rename_i heq
      rw [pure_ok] at h
      rw [← h, heq]
      rfl
    · cases h
  | _ => cases h

/-- **Sealing an export does not change its manifest.** -/
theorem manifest_seal {config : Caching} {key : String} {root : Node} {bytes : List UInt8}
    (h : manifest root config key = .ok bytes) :
    manifest (sealArtifacts config root) config key = .ok bytes := by
  obtain ⟨entries, hscan, hbytes⟩ := manifest_ok.mp h
  refine manifest_ok.mpr ⟨entries, ?_, hbytes⟩
  have hall : ∀ {artifacts : List CacheArtifact} {l l' : List Entry},
      (∀ a ∈ artifacts, a ∈ config.artifacts) → scanArtifacts root artifacts l = .ok l' →
      scanArtifacts (sealArtifacts config root) artifacts l = .ok l' := by
    intro artifacts
    induction artifacts with
    | nil => exact fun _ hl => hl
    | cons a rest ih =>
      intro l l' hsub hl
      simp only [scanArtifacts, bind_ok] at hl ⊢
      obtain ⟨node, hnode, s, hs, hl⟩ := hl
      refine ⟨node.sealed, directory_seal (hsub a List.mem_cons_self) hnode, s, ?_, ?_⟩
      · rw [scan_sealed]
        exact hs
      · exact ih (fun b hb => hsub b (List.mem_cons_of_mem _ hb)) hl
  exact hall (fun _ ha => ha) hscan

/-- **The manifest is canonical**: it tells what the artifacts hold and nothing
else, and sealing keeps it. -/
theorem manifest_canonical {config : Caching} {key : String} {a b : Node} {x y : List UInt8}
    (hconfig : config.validate = .ok ()) (ha : a.WellNamed) (hb : b.WellNamed)
    (hx : manifest a config key = .ok x) (hy : manifest b config key = .ok y)
    (hcf : CollisionFree fun bytes => ∃ name p x,
      a.Holds name p (.file bytes x) ∨ b.Holds name p (.file bytes x)) :
    (x = y ↔ ∀ artifact ∈ config.artifacts, ∀ p c,
      a.Holds artifact.name p c ↔ b.Holds artifact.name p c) ∧
    manifest (sealArtifacts config a) config key = .ok x :=
  ⟨manifest_eq_iff hconfig ha hb hx hy hcf, manifest_seal hx⟩

end Sealing

end Caching

namespace Sample

open Caching

attribute [local instance] Sha256.standard

/-- One artifact, of at most a gibibyte. -/
def caching : Caching where
  version := 1
  recipeDir := "cache"
  command := ["/bin/true"]
  timeoutSeconds := 30
  resources := ⟨1, 1, 2⟩
  architecture := "amd64"
  artifacts := [⟨"compiler", "export", "/cache/compiler", .readOnly, 1⟩]

/-- An export with a file of the given mode and time. -/
def export_ (mode : Nat) (mtime : Time) : Node :=
  .dir 493 mtime [("compiler", .dir 493 mtime [("object", .file mode 1 mtime [1])])]

theorem export_named (mode : Nat) (mtime : Time) : (export_ mode mtime).WellNamed := by
  have hobject : '/' ∉ "object".toList := by decide
  have hcompiler : '/' ∉ "compiler".toList := by decide
  refine .dir (List.nodup_singleton _) (fun e he => ?_) fun e he => ?_
  · rw [List.mem_singleton.mp he]
    exact hcompiler
  · rw [List.mem_singleton.mp he]
    refine .dir (List.nodup_singleton _) (fun e he => ?_) fun e he => ?_
    · rw [List.mem_singleton.mp he]
      exact hobject
    · rw [List.mem_singleton.mp he]
      exact .file _ _ _ _

/-- **Files that anybody may execute**, at different times and with different
other permissions, **have one manifest.** -/
theorem manifest_canonical_modes : ∃ x, Caching.manifest (export_ 493 0) caching "key" = .ok x ∧
    Caching.manifest (export_ 320 7) caching "key" = .ok x ∧
    ∀ p c, (export_ 493 0).Holds "compiler" p c ↔ (export_ 320 7).Holds "compiler" p c := by
  have hsame : ∃ x, Caching.manifest (export_ 493 0) caching "key" = .ok x ∧
      Caching.manifest (export_ 320 7) caching "key" = .ok x := by
    have hok : (Caching.manifest (export_ 493 0) caching "key").isOk = true ∧
        Caching.manifest (export_ 493 0) caching "key" = Caching.manifest (export_ 320 7) caching "key" := by
      decide +kernel
    cases hx : Caching.manifest (export_ 493 0) caching "key" with
    | error e =>
      rw [hx] at hok
      cases hok.1
    | ok x => exact ⟨x, rfl, by rw [← hok.2, hx]⟩
  obtain ⟨x, hx, hy⟩ := hsame
  refine ⟨x, hx, hy, ?_⟩
  have hfile : ∀ mode mtime name p bytes z, (export_ mode mtime).Holds name p (.file bytes z) →
      bytes = [1] := by
    rintro mode mtime name p bytes z ⟨node, hnode, hat⟩
    simp only [export_, Node.directory, bind_ok, fetchOne_ok] at hnode
    obtain ⟨e, he, hnode⟩ := hnode
    rw [List.mem_singleton.mp (List.mem_of_find?_eq_some he), pure_ok] at hnode
    rw [← hnode] at hat
    cases p with
    | nil => cases hat
    | cons k p =>
      obtain ⟨t, ht, hat⟩ := hat
      rw [contentsOf, contentsOf, List.mem_singleton, Prod.mk.injEq] at ht
      rw [ht.2, Node.contents] at hat
      cases p with
      | nil => cases hat; rfl
      | cons _ p =>
        obtain ⟨_, hnone, _⟩ := hat
        cases hnone
  have hcf : CollisionFree fun bytes => ∃ name p z,
      (export_ 493 0).Holds name p (.file bytes z) ∨
        (export_ 320 7).Holds name p (.file bytes z) := by
    rintro u v ⟨_, _, _, hu⟩ ⟨_, _, _, hv⟩ _
    have hu' : u = [1] := hu.elim (hfile _ _ _ _ _ _) (hfile _ _ _ _ _ _)
    have hv' : v = [1] := hv.elim (hfile _ _ _ _ _ _) (hfile _ _ _ _ _ _)
    rw [hu', hv']
  exact (manifest_canonical (by decide +kernel) (export_named _ _) (export_named _ _) hx hy
    hcf).1.mp rfl _ List.mem_cons_self

end Sample

end Grading

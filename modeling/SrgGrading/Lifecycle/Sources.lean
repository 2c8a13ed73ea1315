import Mathlib.Order.Fin.Basic
import SrgGrading.Library.Pool
import SrgGrading.Core.Base64
import SrgGrading.Core.IntegrityCheck
import SrgGrading.Lifecycle.GitHub

/-!
# Fetching snapshots through the blob cache

`fetch_snapshot` reads a commit, its tree and the blobs of the tree.  Blobs are
kept in a cache shared by all calls, which is emptied when it grows over either
of its bounds.

* `Agrees.fetchSnapshot`: whatever the cache holds, a call yields what it yields
  without one, or stops at the request budget.
* `cache_transparent`: that, for all calls of a run, with the bounds of the
  cache and of the snapshots.
-/

open Fallible Program

namespace Grading

namespace Sources

/-! ### The API -/

structure Object where
  sha : String

structure Commit where
  sha : String
  tree : Object

structure TreeEntry where
  path : String
  mode : String
  sha : String
  kind : String
  size : Option Nat

structure Tree where
  tree : List TreeEntry
  truncated : Bool

structure ApiBlob where
  content : String
  encoding : String
  size : Nat

/-- What the GitHub API answers to `GET` of a path. -/
structure Api where
  commit : String → Except Error Commit
  tree : String → Except Error Tree
  blob : String → Except Error ApiBlob

/-- Why `fetch_snapshot` stopped. -/
inductive FetchError
  | error (e : Error)
  /-- With the context `InvalidSubmission`. -/
  | invalid (e : Error)
  /-- `SourceQuotaExceeded`. -/
  | quota (retryAt : Time)
  deriving DecidableEq

/-! ### The request budget -/

structure SourceBudget where
  started : Time
  total : Nat
  students : OrderedMap Uuid Nat

/-- An hour. -/
def period : Int := 3600 * 10 ^ 9

/-- The budget of the hour `now` lies in. -/
def SourceBudget.renewed (budget : SourceBudget) (now : Time) : SourceBudget :=
  if period ≤ now - budget.started then ⟨now, 0, .empty⟩ else budget

def SourceBudget.charge (budget : SourceBudget) (now : Time) (student : Uuid) :
    Except FetchError Unit × SourceBudget :=
  let budget := budget.renewed now
  let charged := (budget.students.get? student).getD 0
  if 3600 ≤ budget.total || 600 ≤ charged ||
      (!budget.students.contains student && 1024 ≤ budget.students.size) then
    let left := (period - (now - budget.started)) / 10 ^ 9
    (.error (.quota (now + (left + 1) * 10 ^ 9)), budget)
  else
    (.ok (), { budget with
      total := budget.total + 1
      students := budget.students.insert student (charged + 1) })

/-! ### The blob cache -/

abbrev Blobs := OrderedMap String Blob

/-- The length of the encoded blobs of a map. -/
def encodedLength (blobs : Blobs) : Nat := (blobs.entries.map fun e => Text.len e.2.data).sum

/-- What `fetch_snapshot` does to the cache with a blob it fetched. -/
def remember (blobs : Blobs) (key : String) (blob : Blob) : Blobs :=
  let blobs := if 512 ≤ blobs.size ||
      16 * 1024 * 1024 < encodedLength blobs + Text.len blob.data then .empty else blobs
  blobs.insert key blob

/-! ### `fetch_snapshot` -/

/-- A request to the API, and a use of what the calls share. -/
inductive Request : Type → Type
  | charge (student : Uuid) : Request (Except FetchError Unit)
  | commit (path : String) : Request (Except Error Commit)
  | tree (path : String) : Request (Except Error Tree)
  | blob (path : String) : Request (Except Error ApiBlob)
  | lookup (key : String) : Request (Option Blob)
  | remember (key : String) (blob : Blob) : Request Unit

abbrev Fetch (α : Type) := Program Request FetchError α

def attempt {α : Type} (x : Except Error α) : Fetch α := lift (x.mapError .error)

/-- With the context `InvalidSubmission`. -/
def policy (x : Except Error Unit) : Fetch Unit := lift (x.mapError .invalid)

def chargeSource : Option Uuid → Fetch Unit
  | none => return
  | some student => do
    let charged ← request (.charge student)
    lift charged

/-- What counts of an entry that is no tree. -/
def entrySize (entry : TreeEntry) : Except Error Nat :=
  if entry.kind = "commit" && entry.mode = "160000" then return 40
  else do
    check (entry.kind = "blob" &&
      (entry.mode = "100644" || entry.mode = "100755" || entry.mode = "120000"))
      "unsupported Git object"
    fetchOne (.message "missing blob size") entry.size

/-- The loop of `validate_tree`. -/
def validateEntries (maxFiles maxBytes : Nat) : List TreeEntry → Nat → Nat → Except Error Unit
  | [], _, _ => return
  | entry :: rest, files, bytes => do
    safePath entry.path
    if entry.kind = "tree" then validateEntries maxFiles maxBytes rest files bytes
    else do
      let size ← entrySize entry
      check (size ≤ maxFileBytes) "source file too large"
      check (bytes + size < 2 ^ 64) "snapshot exceeds limits"
      check (files + 1 ≤ maxFiles && bytes + size ≤ maxBytes) "snapshot exceeds limits"
      validateEntries maxFiles maxBytes rest (files + 1) (bytes + size)

def validateTree (tree : Tree) (maxFiles maxBytes : Nat) : Except Error Unit := do
  check (!tree.truncated && tree.tree.length ≤ maxFiles * 2 % 2 ^ 64) "source tree exceeds limits"
  validateEntries maxFiles maxBytes tree.tree 0 0

/-- `str::as_bytes`. -/
def asBytes (s : String) : List UInt8 := s.toList.flatMap String.utf8EncodeChar

/-- `content.replace(['\r', '\n'], "")`. -/
def unwrapped (content : String) : List Char := content.toList.filter fun c => c ≠ '\r' && c ≠ '\n'

/-- The bytes of a blob whose tree entry has the given size. -/
def ApiBlob.bytes (blob : ApiBlob) (size : Option Nat) : Except Error (List UInt8) := do
  check (blob.encoding = "base64" && blob.size ≤ maxFileBytes) "invalid blob encoding or size"
  let bytes ← fetchOne .base64 (decodeBase64 (unwrapped blob.content))
  check (bytes.length = blob.size && some blob.size = size) "invalid blob size"
  return bytes

def blobPath (repository sha : String) : String := "/repos/" ++ repository ++ "/git/blobs/" ++ sha

def cacheKey (repository sha : String) : String := repository ++ ":" ++ sha

/-- The data of the blob of an entry that is not in the cache. -/
def download (repository path : String) (student : Option Uuid) (entry : TreeEntry) :
    Fetch String := do
  chargeSource student
  let blob ← request (.blob (path ++ "/git/blobs/" ++ entry.sha))
  let blob ← attempt blob
  let bytes ← attempt (blob.bytes entry.size)
  let data := String.ofList (encodeBase64 bytes)
  request (.remember (cacheKey repository entry.sha) ⟨entry.mode, data⟩)
  return data

/-- The data of the blob of an entry. -/
def fetchData (repository path : String) (student : Option Uuid) (entry : TreeEntry) :
    Fetch String := do
  let cached ← request (.lookup (cacheKey repository entry.sha))
  match cached with
  | some blob => return blob.data
  | none => download repository path student entry

/-- The loop of `fetch_snapshot` over the entries of the tree. -/
def fetchEntries (repository path : String) (student : Option Uuid) :
    List TreeEntry → OrderedMap String Blob → Nat → Fetch (OrderedMap String Blob)
  | [], files, _ => return files
  | entry :: rest, files, total => do
    attempt (safePath entry.path)
    if entry.kind = "tree" then fetchEntries repository path student rest files total
    else if entry.kind = "commit" && entry.mode = "160000" then
      let data := String.ofList (encodeBase64 (asBytes entry.sha))
      fetchEntries repository path student rest (files.insert entry.path ⟨entry.mode, data⟩) total
    else do
      attempt (check (entry.kind = "blob" &&
        (entry.mode = "100644" || entry.mode = "100755" || entry.mode = "120000"))
        "unsupported Git object")
      attempt (check (entry.size.any fun size => size ≤ maxFileBytes) "source file too large")
      let total := total + entry.size.getD 0
      attempt (check (total ≤ maxSnapshotBytes && files.size < Grading.maxFiles)
        "snapshot exceeds limits")
      let data ← fetchData repository path student entry
      fetchEntries repository path student rest (files.insert entry.path ⟨entry.mode, data⟩) total

def fetchSnapshot (repository sha : String) (maxFiles maxBytes : Nat) (student : Option Uuid) :
    Fetch Snapshot := do
  attempt (check (Text.validHex sha 40) "invalid commit SHA")
  let path ← attempt (GitHub.repoPath repository)
  chargeSource student
  let commit ← request (.commit (path ++ "/git/commits/" ++ sha))
  let commit ← attempt commit
  attempt (check (commit.sha = sha) "commit identity mismatch")
  chargeSource student
  let tree ← request (.tree (path ++ "/git/trees/" ++ commit.tree.sha ++ "?recursive=1"))
  let tree ← attempt tree
  policy (validateTree tree maxFiles maxBytes)
  let files ← fetchEntries repository path student tree.tree .empty 0
  let snapshot : Snapshot := ⟨sha, files⟩
  policy snapshot.validateStructure
  return snapshot

/-! ### The API as a function -/

def treePath (repository sha : String) : String :=
  "/repos/" ++ repository ++ "/git/trees/" ++ sha ++ "?recursive=1"

/-- Trees and blobs tell the same sizes, and an object is named by 40 digits. -/
structure Api.Consistent (api : Api) : Prop where
  sizes : ∀ repository name tree, api.tree (treePath repository name) = .ok tree →
    ∀ e ∈ tree.tree, e.kind = "blob" → ∀ n blob, e.size = some n →
      api.blob (blobPath repository e.sha) = .ok blob → blob.size = n
  names : ∀ repository name tree, api.tree (treePath repository name) = .ok tree →
    ∀ e ∈ tree.tree, e.kind = "commit" → Text.len e.sha = 40

/-- A blob under the key of the request it is the answer to. -/
def Api.Genuine (api : Api) (key : String) (blob : Blob) : Prop :=
  ∃ repository sha answer bytes, githubRepository repository = true ∧
    key = cacheKey repository sha ∧ api.blob (blobPath repository sha) = .ok answer ∧
    answer.bytes (some answer.size) = .ok bytes ∧ blob.data = String.ofList (encodeBase64 bytes)

/-- The answers to a call with no limit on its requests and nothing in the cache. -/
def Api.answer (api : Api) : {β : Type} → Request β → β
  | _, .charge _ => .ok ()
  | _, .commit path => api.commit path
  | _, .tree path => api.tree path
  | _, .blob path => api.blob path
  | _, .lookup _ => none
  | _, .remember _ _ => ()

/-- The answers to a call with any cache. -/
def Api.Expected (api : Api) : {β : Type} → Request β → β → Prop
  | _, .charge _, a => a = .ok () ∨ ∃ retryAt, a = .error (.quota retryAt)
  | _, .commit path, a => a = api.commit path
  | _, .tree path, a => a = api.tree path
  | _, .blob path, a => a = api.blob path
  | _, .lookup key, a => ∀ blob, a = some blob → api.Genuine key blob
  | _, .remember _ _, _ => True

/-- A call puts genuine blobs into the cache. -/
def Api.Honest (api : Api) : {β : Type} → Request β → Prop
  | _, .remember key blob => api.Genuine key blob
  | _, _ => True

/-- Whatever the cache holds, a program yields what it yields without one, or
stops at the request budget. -/
def Agrees (api : Api) {α : Type} (p : Fetch α) : Prop :=
  p.Within api.Honest api.Expected fun result =>
    (∃ retryAt, result = .error (.quota retryAt)) ∨ result = p.eval api.answer

/-! ### Keys -/

theorem cut_spec {sep s a b : List Char} (h : Text.cut sep s = some (a, b)) : s = a ++ sep ++ b := by
  induction s generalizing a with
  | nil =>
    rw [Text.cut] at h
    split at h
    · rename_i hsep
      cases h
      rw [hsep]
      rfl
    · cases h
  | cons c rest ih =>
    rw [Text.cut] at h
    split at h
    · rename_i hpre
      cases h
      obtain ⟨t, ht⟩ := List.isPrefixOf_iff_prefix.mp hpre
      rw [← ht, List.drop_left]
      rfl
    · simp only [Option.map_eq_some_iff, Prod.mk.injEq] at h
      obtain ⟨⟨x, y⟩, hcut, hx, rfl⟩ := h
      rw [ih hcut, ← hx]
      rfl

theorem colon_notMem {repository : String} (h : githubRepository repository = true) :
    ':' ∉ repository.toList := by
  rw [githubRepository] at h
  split at h
  · cases h
  · rename_i owner name hsplit
    simp only [Bool.and_eq_true, identifier, List.all_eq_true] at h
    obtain ⟨⟨⟨⟨⟨⟨_, howner⟩, _⟩, _⟩, _⟩, _⟩, hname⟩ := h
    simp only [Text.splitOnce, Option.map_eq_some_iff, Prod.mk.injEq] at hsplit
    obtain ⟨⟨a, b⟩, hcut, ha, hb⟩ := hsplit
    rw [cut_spec hcut]
    intro hmem
    rw [← ha, String.toList_ofList] at howner
    rw [← hb, String.toList_ofList] at hname
    rcases List.mem_append.mp hmem with hmem | hmem
    · rcases List.mem_append.mp hmem with hmem | hmem
      · exact absurd (howner _ hmem) (by decide)
      · exact absurd hmem (by decide)
    · exact absurd (hname _ hmem) (by decide)

/-- **A cache key tells the repository and the blob.** -/
theorem cacheKey_inj {a b x y : String} (ha : githubRepository a = true)
    (hb : githubRepository b = true) (h : cacheKey a x = cacheKey b y) : a = b ∧ x = y := by
  have hl := congrArg String.toList h
  simp only [cacheKey, String.toList_append, List.append_assoc] at hl
  obtain ⟨hab, hxy⟩ := Text.cut_inj (colon_notMem ha) (colon_notMem hb) (Or.inr ⟨_, rfl⟩)
    (Or.inr ⟨_, rfl⟩) hl
  exact ⟨String.toList_injective hab, String.toList_injective (List.cons.inj hxy).2⟩

/-! ### What a call yields -/

section Agree
variable {api : Api} {α β : Type}

theorem Agrees.lift (x : Except FetchError α) : Agrees api (Program.lift x : Fetch α) :=
  Within.lift (Or.inr (eval_lift _ x).symm)

theorem Agrees.pure (a : α) : Agrees api (Pure.pure a : Fetch α) := Or.inr rfl

theorem Agrees.bind {p : Fetch α} {f : α → Fetch β} (h : Agrees api p)
    (hf : ∀ a, p.eval api.answer = .ok a → Agrees api (f a)) : Agrees api (p >>= f) := by
  refine Within.bind h (fun a ha => ?_) fun e he => ?_
  · rcases ha with ⟨t, ht⟩ | ha
    · cases ht
    · refine (hf a ha.symm).mono fun r hr => hr.imp_right fun heq => ?_
      rw [heq, eval_bind, ← ha]
      rfl
  · rcases he with ⟨t, ht⟩ | he
    · cases ht
      exact Or.inl ⟨t, rfl⟩
    · right
      rw [eval_bind, ← he]
      rfl

/-- A request that has one answer. -/
theorem Agrees.request {r : Request β} (hhonest : api.Honest r)
    (hanswer : ∀ a, api.Expected r a → a = api.answer r) :
    Agrees api (Program.request r : Fetch β) :=
  Within.request hhonest fun a ha => Or.inr (by rw [hanswer a ha, eval_request])

theorem Agrees.charge (student : Option Uuid) : Agrees api (chargeSource student) := by
  cases student with
  | none => exact Agrees.pure ()
  | some student =>
    have heval : (chargeSource (some student)).eval api.answer = .ok () := by
      simp only [chargeSource, eval_bind, eval_request, eval_lift, Api.answer]
      rfl
    refine Within.bind (Q := fun r => ∃ a, r = .ok a ∧ api.Expected (.charge student) a)
      (Within.request trivial fun a ha => ⟨a, rfl, ha⟩) ?_ fun e he => ?_
    · rintro a ⟨b, hb, hexpected⟩
      cases hb
      rw [heval]
      rcases hexpected with rfl | ⟨t, rfl⟩
      · exact Or.inr rfl
      · exact Or.inl ⟨t, rfl⟩
    · obtain ⟨a, ha, _⟩ := he
      cases ha

theorem eval_charge (student : Option Uuid) : (chargeSource student).eval api.answer = .ok () := by
  cases student with
  | none => rfl
  | some student =>
    simp only [chargeSource, eval_bind, eval_request, eval_lift, Api.answer]
    rfl

theorem mapError_ok {x : Except Error α} {f : Error → FetchError} {a : α} :
    x.mapError f = .ok a ↔ x = .ok a := by
  cases x <;> simp [Except.mapError]

theorem Agrees.attempt (x : Except Error α) : Agrees api (attempt x) := Agrees.lift _

@[simp] theorem eval_attempt (x : Except Error α) :
    (Sources.attempt x).eval api.answer = x.mapError .error := eval_lift _ _

/-- Downloading a blob agrees with itself. -/
theorem Agrees.download {repository : String} (hrepository : githubRepository repository = true)
    {student : Option Uuid} {entry : TreeEntry} {size : Nat} (hsize : entry.size = some size)
    (hconsistent : ∀ blob, api.blob (blobPath repository entry.sha) = .ok blob →
      blob.size = size) :
    Agrees api (download repository ("/repos/" ++ repository) student entry) := by
  refine Agrees.bind (Agrees.charge student) fun _ _ => ?_
  refine Agrees.bind (Agrees.request trivial fun _ h => h) fun answer hanswer => ?_
  rw [eval_request, Except.ok.injEq] at hanswer
  refine Agrees.bind (Agrees.attempt answer) fun blob hblob => ?_
  rw [eval_attempt, mapError_ok, ← hanswer] at hblob
  refine Agrees.bind (Agrees.attempt _) fun bytes hbytes => ?_
  rw [eval_attempt, mapError_ok] at hbytes
  refine Agrees.bind (Agrees.request ?_ fun _ _ => rfl) fun _ _ => Agrees.pure _
  rw [hsize, ← hconsistent blob hblob] at hbytes
  exact ⟨repository, entry.sha, blob, bytes, hrepository, rfl, hblob, hbytes, rfl⟩

theorem eval_fetchData {repository path : String} {student : Option Uuid} {entry : TreeEntry} :
    (fetchData repository path student entry).eval api.answer =
      (api.blob (path ++ "/git/blobs/" ++ entry.sha)).mapError FetchError.error >>= fun blob =>
        (blob.bytes entry.size).mapError FetchError.error >>= fun bytes =>
          .ok (String.ofList (encodeBase64 bytes)) := by
  have hmiss : (fetchData repository path student entry).eval api.answer =
      (download repository path student entry).eval api.answer := by
    rw [fetchData, eval_bind, eval_request]
    rfl
  rw [hmiss, download, eval_bind, eval_charge]
  change eval api.answer (_ >>= _) = _
  simp only [eval_bind, eval_request, eval_attempt]
  rfl

/-- **The data of a blob is the same from the cache and from the API.** -/
theorem Agrees.fetchData {repository : String} (hrepository : githubRepository repository = true)
    {student : Option Uuid} {entry : TreeEntry} {size : Nat} (hsize : entry.size = some size)
    (hconsistent : ∀ blob, api.blob (blobPath repository entry.sha) = .ok blob →
      blob.size = size) :
    Agrees api (fetchData repository ("/repos/" ++ repository) student entry) := by
  refine Within.bind (Q := fun r => ∃ a, r = .ok a ∧
      api.Expected (.lookup (cacheKey repository entry.sha)) a)
    (Within.request trivial fun a ha => ⟨a, rfl, ha⟩) ?_ fun e he => ?_
  · rintro a ⟨b, hb, hgenuine⟩
    cases hb
    cases a with
    | none => exact Agrees.download hrepository hsize hconsistent
    | some blob =>
      obtain ⟨r, sha, answer, bytes, hr, hkey, hanswer, hbytes, hdata⟩ := hgenuine blob rfl
      obtain ⟨rfl, rfl⟩ := cacheKey_inj hrepository hr hkey
      right
      rw [hconsistent answer hanswer, ← hsize] at hbytes
      rw [eval_fetchData]
      change _ = (api.blob (blobPath repository entry.sha)).mapError FetchError.error >>= _
      rw [hanswer, hdata]
      change _ = (answer.bytes entry.size).mapError FetchError.error >>= _
      rw [hbytes]
      rfl
  · obtain ⟨a, ha, _⟩ := he
    cases ha

/-- Blob entries tell the size of their blob. -/
def SizesTold (api : Api) (repository : String) (entries : List TreeEntry) : Prop :=
  ∀ e ∈ entries, e.kind = "blob" → ∀ n blob, e.size = some n →
    api.blob (blobPath repository e.sha) = .ok blob → blob.size = n

/-- The loop over the entries. -/
theorem Agrees.fetchEntries {repository : String} (hrepository : githubRepository repository = true)
    {student : Option Uuid} {entries : List TreeEntry} (htold : SizesTold api repository entries)
    (files : OrderedMap String Blob) (total : Nat) :
    Agrees api (fetchEntries repository ("/repos/" ++ repository) student entries files total) := by
  induction entries generalizing files total with
  | nil => exact Agrees.pure files
  | cons entry rest ih =>
    have hrest : SizesTold api repository rest := fun e he => htold e (List.mem_cons_of_mem _ he)
    refine Agrees.bind (Agrees.attempt _) fun _ _ => ?_
    split
    · exact ih hrest files total
    · split
      · exact ih hrest _ total
      · refine Agrees.bind (Agrees.attempt _) fun _ hkind => ?_
        refine Agrees.bind (Agrees.attempt _) fun _ hsize => ?_
        refine Agrees.bind (Agrees.attempt _) fun _ _ => ?_
        rw [eval_attempt, mapError_ok, check_ok, Bool.and_eq_true, decide_eq_true_eq] at hkind
        rw [eval_attempt, mapError_ok, check_ok, Option.any_eq_true] at hsize
        obtain ⟨n, hn, _⟩ := hsize
        refine Agrees.bind (Agrees.fetchData hrepository hn ?_) fun data _ => ih hrest _ _
        exact fun blob hblob => htold entry List.mem_cons_self hkind.1 n blob hn hblob

theorem repoPath_ok {repository path : String} :
    GitHub.repoPath repository = .ok path ↔
      githubRepository repository = true ∧ path = "/repos/" ++ repository := by
  simp only [GitHub.repoPath, bind_ok, check_ok, pure_ok]
  constructor
  · rintro ⟨_, h, rfl⟩
    exact ⟨h, rfl⟩
  · rintro ⟨h, rfl⟩
    exact ⟨(), h, rfl⟩

/-- **A call yields with any cache what it yields with none**, or stops at the
request budget. -/
theorem Agrees.fetchSnapshot (hapi : api.Consistent) (repository sha : String)
    (maxFiles maxBytes : Nat) (student : Option Uuid) :
    Agrees api (fetchSnapshot repository sha maxFiles maxBytes student) := by
  refine Agrees.bind (Agrees.attempt _) fun _ _ => ?_
  refine Agrees.bind (Agrees.attempt _) fun path hpath => ?_
  rw [eval_attempt, mapError_ok, repoPath_ok] at hpath
  obtain ⟨hrepository, rfl⟩ := hpath
  refine Agrees.bind (Agrees.charge student) fun _ _ => ?_
  refine Agrees.bind (Agrees.request trivial fun _ h => h) fun answer _ => ?_
  refine Agrees.bind (Agrees.attempt answer) fun commit _ => ?_
  refine Agrees.bind (Agrees.attempt _) fun _ _ => ?_
  refine Agrees.bind (Agrees.charge student) fun _ _ => ?_
  refine Agrees.bind (Agrees.request trivial fun _ h => h) fun answer hanswer => ?_
  rw [eval_request, Except.ok.injEq] at hanswer
  refine Agrees.bind (Agrees.attempt answer) fun tree htree => ?_
  rw [eval_attempt, mapError_ok, ← hanswer] at htree
  refine Agrees.bind (Agrees.lift _) fun _ _ => ?_
  refine Agrees.bind (Agrees.fetchEntries hrepository ?_ _ _) fun files _ => ?_
  · exact hapi.sizes repository commit.tree.sha tree htree
  · exact Agrees.bind (Agrees.lift _) fun _ _ => Agrees.pure _

end Agree

/-! ### What a snapshot holds -/

/-- The entry of the tree a file comes from: the last one with its path. -/
def ownEntry (path : String) : List TreeEntry → Option TreeEntry
  | [] => none
  | e :: rest => (ownEntry path rest).or (if e.kind ≠ "tree" ∧ e.path = path then some e else none)

/-- A file with the mode of an entry and the bytes of its blob. -/
structure Owns (api : Api) (repository : String) (e : TreeEntry) (blob : Blob) : Prop where
  mode : blob.mode = e.mode
  bytes : (e.kind = "blob" ∧ ∃ answer bytes, api.blob (blobPath repository e.sha) = .ok answer ∧
      answer.bytes e.size = .ok bytes ∧ decodeBase64 blob.data.toList = some bytes) ∨
    (e.kind = "commit" ∧ decodeBase64 blob.data.toList = some (asBytes e.sha))

/-- The bytes of the files, decoded. -/
def decodedLength (files : OrderedMap String Blob) : Nat :=
  (files.entries.map fun e => ((decodeBase64 e.2.data.toList).getD []).length).sum

/-- What an entry adds to the bytes of a snapshot. -/
def counted (e : TreeEntry) : Nat :=
  if e.kind = "tree" then 0 else if e.kind = "commit" && e.mode = "160000" then 40
  else e.size.getD 0

/-- What `validate_tree` leaves room for. -/
theorem validateEntries_ok {maxFiles maxBytes : Nat} : ∀ {entries : List TreeEntry}
    {files bytes : Nat}, validateEntries maxFiles maxBytes entries files bytes = .ok () →
    files ≤ maxFiles → bytes ≤ maxBytes →
    files + entries.countP (fun e => e.kind ≠ "tree") ≤ maxFiles ∧
      bytes + (entries.map counted).sum ≤ maxBytes := by
  intro entries
  induction entries with
  | nil => exact fun _ hfiles hbytes => ⟨hfiles, hbytes⟩
  | cons e rest ih =>
    intro files bytes h hfiles hbytes
    simp only [validateEntries, bind_ok] at h
    obtain ⟨_, _, h⟩ := h
    rw [List.countP_cons, List.map_cons, List.sum_cons]
    split at h
    · rename_i hkind
      obtain ⟨hcount, hsum⟩ := ih h hfiles hbytes
      rw [if_neg (by simpa using hkind), counted, if_pos hkind]
      omega
    · rename_i hkind
      simp only [bind_ok, check_ok, Bool.and_eq_true, decide_eq_true_eq] at h
      obtain ⟨size, hsize, _, _, _, _, _, ⟨hf, hb⟩, h⟩ := h
      obtain ⟨hcount, hsum⟩ := ih h hf hb
      have hcounted : counted e = size := by
        rw [counted, if_neg hkind]
        rw [entrySize] at hsize
        split at hsize
        · rename_i hcommit
          rw [if_pos hcommit]
          rw [pure_ok] at hsize
          exact hsize
        · rename_i hcommit
          simp only [bind_ok, fetchOne_ok] at hsize
          obtain ⟨_, _, hsize⟩ := hsize
          rw [if_neg hcommit, hsize]
          rfl
      rw [if_pos (by simpa using hkind), hcounted]
      omega

theorem length_asBytes (s : String) : (asBytes s).length = Text.len s := by
  have hs : s = String.ofList s.toList := String.ofList_toList.symm
  rw [asBytes, Text.len, List.length_flatMap, hs, String.utf8ByteSize_ofList,
    String.toList_ofList]
  induction s.toList with
  | nil => rfl
  | cons c rest ih =>
    rw [List.map_cons, List.sum_cons, ih, String.utf8Len_cons, String.length_utf8EncodeChar]
    omega

theorem ApiBlob.bytes_ok {blob : ApiBlob} {size : Option Nat} {bytes : List UInt8}
    (h : blob.bytes size = .ok bytes) :
    bytes.length ≤ maxFileBytes ∧ size = some bytes.length := by
  simp only [ApiBlob.bytes, bind_ok, check_ok, pure_ok, Bool.and_eq_true, decide_eq_true_eq] at h
  obtain ⟨_, ⟨_, hmax⟩, _, _, _, ⟨hlength, hsize⟩, rfl⟩ := h
  rw [hlength]
  exact ⟨hmax, hsize.symm⟩

section Files
variable {api : Api}

theorem decodedLength_insert_le (files : OrderedMap String Blob) (path mode : String)
    (bytes : List UInt8) :
    decodedLength (files.insert path ⟨mode, String.ofList (encodeBase64 bytes)⟩) ≤
      decodedLength files + bytes.length := by
  refine (files.sum_insert_le path _ _).trans (le_of_eq ?_)
  rw [String.toList_ofList, decode_encodeBase64]
  rfl

/-- What the loop over the entries makes of them. -/
theorem fetchEntries_spec {repository : String} {student : Option Uuid} :
    ∀ {entries : List TreeEntry} {files files' : OrderedMap String Blob} {total : Nat},
    (∀ e ∈ entries, e.kind = "commit" → Text.len e.sha = 40) →
    (fetchEntries repository ("/repos/" ++ repository) student entries files total).eval
      api.answer = .ok files' →
    files'.size ≤ files.size + entries.countP (fun e => e.kind ≠ "tree") ∧
      decodedLength files' ≤ decodedLength files + (entries.map counted).sum ∧
      ∀ path, match ownEntry path entries with
        | some e => ∃ blob, files'.get? path = some blob ∧ Owns api repository e blob
        | none => files'.get? path = files.get? path := by
  intro entries
  induction entries with
  | nil =>
    intro files files' total _ h
    rw [fetchEntries, eval_pure, Except.ok.injEq] at h
    rw [h]
    exact ⟨le_rfl, le_rfl, fun _ => rfl⟩
  | cons e rest ih =>
    intro files files' total hnames h
    have hrest : ∀ e ∈ rest, e.kind = "commit" → Text.len e.sha = 40 := fun e he =>
      hnames e (List.mem_cons_of_mem _ he)
    -- the file of this entry, unless a later one has its path
    have hinsert : ∀ {bytes : List UInt8} {total}, e.kind ≠ "tree" → bytes.length = counted e →
        Owns api repository e ⟨e.mode, String.ofList (encodeBase64 bytes)⟩ →
        (fetchEntries repository ("/repos/" ++ repository) student rest
          (files.insert e.path ⟨e.mode, String.ofList (encodeBase64 bytes)⟩) total).eval
            api.answer = .ok files' →
        files'.size ≤ files.size + (e :: rest).countP (fun e => e.kind ≠ "tree") ∧
          decodedLength files' ≤ decodedLength files + ((e :: rest).map counted).sum ∧
          ∀ path, match ownEntry path (e :: rest) with
            | some e => ∃ blob, files'.get? path = some blob ∧ Owns api repository e blob
            | none => files'.get? path = files.get? path := by
      intro bytes total hkind hlength howns h
      obtain ⟨hsize, hdecoded, hown⟩ := ih hrest h
      have hone := files.size_insert_le e.path ⟨e.mode, String.ofList (encodeBase64 bytes)⟩
      have hbytes := decodedLength_insert_le files e.path e.mode bytes
      rw [List.countP_cons, if_pos (by simpa using hkind), List.map_cons, List.sum_cons]
      refine ⟨by omega, by omega, fun path => ?_⟩
      have hpath := hown path
      rw [ownEntry]
      cases hlater : ownEntry path rest with
      | some later =>
        rw [hlater] at hpath
        exact hpath
      | none =>
        rw [hlater, OrderedMap.get?_insert] at hpath
        by_cases heq : e.path = path
        · rw [if_pos heq] at hpath
          rw [if_pos ⟨hkind, heq⟩]
          exact ⟨_, hpath, howns⟩
        · rw [if_neg heq] at hpath
          rw [if_neg fun h => heq h.2]
          exact hpath
    simp only [fetchEntries, eval_bind, eval_attempt, bind_ok, mapError_ok] at h
    obtain ⟨_, _, h⟩ := h
    split at h
    · rename_i hkind
      obtain ⟨hsize, hdecoded, hown⟩ := ih hrest h
      rw [List.countP_cons, if_neg (by simpa using hkind), List.map_cons, List.sum_cons]
      refine ⟨by omega, by omega, fun path => ?_⟩
      rw [ownEntry, if_neg fun h => h.1 hkind, Option.or_none]
      exact hown path
    · rename_i hkind
      split at h
      · rename_i hcommit
        have hc : e.kind = "commit" := by
          rw [Bool.and_eq_true, decide_eq_true_eq] at hcommit
          exact hcommit.1
        refine hinsert hkind ?_ ⟨rfl, Or.inr ⟨hc, ?_⟩⟩ h
        · rw [length_asBytes, hnames e List.mem_cons_self hc, counted, if_neg hkind,
            if_pos hcommit]
        · rw [String.toList_ofList, decode_encodeBase64]
      · rename_i hcommit
        simp only [eval_bind, eval_attempt, bind_ok, mapError_ok, eval_fetchData, check_ok,
          Bool.and_eq_true, decide_eq_true_eq] at h
        obtain ⟨_, hblob, _, _, _, _, data, ⟨answer, hanswer, bytes, hbytes, hdata⟩, h⟩ := h
        rw [Except.ok.injEq] at hdata
        rw [← hdata] at h
        refine hinsert hkind ?_ ⟨rfl, Or.inl ⟨hblob.1, answer, bytes, hanswer, hbytes, ?_⟩⟩ h
        · rw [counted, if_neg hkind, if_neg hcommit, (ApiBlob.bytes_ok hbytes).2]
          rfl
        · rw [String.toList_ofList, decode_encodeBase64]

/-- The files of a snapshot are those of the tree of its commit. -/
def OwnFiles (api : Api) (repository sha : String) (snapshot : Snapshot) : Prop :=
  ∃ commit tree, api.commit ("/repos/" ++ repository ++ "/git/commits/" ++ sha) = .ok commit ∧
    api.tree (treePath repository commit.tree.sha) = .ok tree ∧
    ∀ path, match ownEntry path tree.tree with
      | some e => ∃ blob, snapshot.files.get? path = some blob ∧ Owns api repository e blob
      | none => snapshot.files.get? path = none

/-- **What a snapshot holds.** -/
theorem fetchSnapshot_spec (hapi : api.Consistent) {repository sha : String}
    {maxFiles maxBytes : Nat} {student : Option Uuid} {snapshot : Snapshot}
    (h : (fetchSnapshot repository sha maxFiles maxBytes student).eval api.answer =
      .ok snapshot) :
    snapshot.files.size ≤ maxFiles ∧ decodedLength snapshot.files ≤ maxBytes ∧
      OwnFiles api repository sha snapshot := by
  simp only [fetchSnapshot, policy, eval_bind, eval_attempt, eval_request, eval_lift, eval_charge,
    bind_ok, mapError_ok, repoPath_ok, Api.answer, Except.ok.injEq] at h
  obtain ⟨_, _, _, ⟨_, rfl⟩, _, _, _, rfl, commit, hcommit, _, _, _, _, _, rfl, tree, htree, _,
    hvalid, files, hfiles, _, _, hsnapshot⟩ := h
  cases hsnapshot
  obtain ⟨hsize, hdecoded, hown⟩ :=
    fetchEntries_spec (hapi.names repository commit.tree.sha tree htree) hfiles
  simp only [validateTree, bind_ok] at hvalid
  obtain ⟨_, _, hvalid⟩ := hvalid
  obtain ⟨hcount, hsum⟩ := validateEntries_ok hvalid (Nat.zero_le _) (Nat.zero_le _)
  have hnone : decodedLength .empty = 0 := rfl
  rw [OrderedMap.size_empty] at hsize
  rw [hnone] at hdecoded
  change files.size ≤ maxFiles ∧ decodedLength files ≤ maxBytes ∧ _
  exact ⟨by omega, by omega, commit, tree, hcommit, htree, hown⟩

end Files

/-! ### The shared cache -/

/-- What the calls share. -/
structure Shared where
  blobs : Blobs
  budget : SourceBudget

/-- The answers a request may get, and what it leaves. -/
def Serves (api : Api) : {β : Type} → Request β → Shared → β → Shared → Prop
  | _, .charge student, w, a, w' =>
    ∃ now, (a, w'.budget) = w.budget.charge now student ∧ w'.blobs = w.blobs
  | _, .commit path, w, a, w' => a = api.commit path ∧ w' = w
  | _, .tree path, w, a, w' => a = api.tree path ∧ w' = w
  | _, .blob path, w, a, w' => a = api.blob path ∧ w' = w
  | _, .lookup key, w, a, w' => a = w.blobs.get? key ∧ w' = w
  | _, .remember key blob, w, _, w' => w' = { w with blobs := remember w.blobs key blob }

/-- A service whose clock stands still. -/
def serveAt (api : Api) (now : Time) : {β : Type} → Request β → Shared → β × Shared
  | _, .charge student, w =>
    ((w.budget.charge now student).1, { w with budget := (w.budget.charge now student).2 })
  | _, .commit path, w => (api.commit path, w)
  | _, .tree path, w => (api.tree path, w)
  | _, .blob path, w => (api.blob path, w)
  | _, .lookup key, w => (w.blobs.get? key, w)
  | _, .remember key blob, w => ((), { w with blobs := remember w.blobs key blob })

theorem serves_serveAt (api : Api) (now : Time) {β : Type} (r : Request β) (w : Shared) :
    Serves api r w (serveAt api now r w).1 (serveAt api now r w).2 := by
  cases r with
  | charge student => exact ⟨now, rfl, rfl⟩
  | commit path => exact ⟨rfl, rfl⟩
  | tree path => exact ⟨rfl, rfl⟩
  | blob path => exact ⟨rfl, rfl⟩
  | lookup key => exact ⟨rfl, rfl⟩
  | remember key blob => rfl

/-- The arguments of `fetch_snapshot`. -/
structure Call where
  repository : String
  sha : String
  maxFiles : Nat
  maxBytes : Nat
  student : Option Uuid

def Call.body (c : Call) : Fetch Snapshot :=
  fetchSnapshot c.repository c.sha c.maxFiles c.maxBytes c.student

/-- Any number of calls of one client; a caller drops its call after a timeout. -/
def service (api : Api) : Service Request FetchError Snapshot Call Shared where
  body := Call.body
  serve _ := Serves api
  enter _ w w' := w' = w
  leave _ w w' := w' = w

/-- The cache is within its bounds and holds genuine blobs. -/
structure Kept (api : Api) (w : Shared) : Prop where
  size : w.blobs.size ≤ 512
  length : encodedLength w.blobs ≤ 16 * 1024 * 1024
  genuine : ∀ key blob, w.blobs.get? key = some blob → api.Genuine key blob

section Cache
variable {api : Api}

theorem Api.Genuine.len_le {key : String} {blob : Blob} (h : api.Genuine key blob) :
    Text.len blob.data ≤ 16 * 1024 * 1024 := by
  obtain ⟨_, _, _, bytes, _, _, _, hbytes, hdata⟩ := h
  have hmax := (ApiBlob.bytes_ok hbytes).1
  rw [hdata, len_encodeBase64]
  rw [maxFileBytes] at hmax
  omega

theorem encodedLength_insert_le (blobs : Blobs) (key : String) (blob : Blob) :
    encodedLength (blobs.insert key blob) ≤ encodedLength blobs + Text.len blob.data :=
  blobs.sum_insert_le key blob fun e => Text.len e.2.data

/-- **A genuine blob keeps the cache within its bounds.** -/
theorem Kept.remember {w : Shared} (hw : Kept api w) {key : String} {blob : Blob}
    (hblob : api.Genuine key blob) :
    Kept api { w with blobs := remember w.blobs key blob } := by
  have hsize := hw.size
  have hinsert : ∀ {blobs : Blobs}, blobs.size < 512 →
      encodedLength blobs + Text.len blob.data ≤ 16 * 1024 * 1024 →
      (∀ key blob, blobs.get? key = some blob → api.Genuine key blob) →
      Kept api { w with blobs := blobs.insert key blob } := by
    intro blobs hcount hlength hgenuine
    have hone := blobs.size_insert_le key blob
    have hadded := encodedLength_insert_le blobs key blob
    refine ⟨by change (blobs.insert key blob).size ≤ 512; omega, hadded.trans hlength, ?_⟩
    intro k b hb
    rw [OrderedMap.get?_insert] at hb
    split at hb
    · rename_i heq
      rw [Option.some_inj] at hb
      rw [← heq, ← hb]
      exact hblob
    · exact hgenuine k b hb
  rw [Sources.remember]
  by_cases hfull : (512 ≤ w.blobs.size ||
      16 * 1024 * 1024 < encodedLength w.blobs + Text.len blob.data) = true
  · rw [if_pos hfull]
    refine hinsert (by rw [OrderedMap.size_empty]; omega) ?_ fun k b hb => by cases hb
    have hempty : encodedLength .empty = 0 := rfl
    have hlen := hblob.len_le
    omega
  · rw [if_neg hfull]
    simp only [Bool.or_eq_true, decide_eq_true_eq, not_or, not_le, not_lt] at hfull
    exact hinsert hfull.1 hfull.2 hw.genuine

theorem charge_expected (budget : SourceBudget) (now : Time) (student : Uuid) :
    api.Expected (.charge student) (budget.charge now student).1 := by
  rw [SourceBudget.charge]
  split
  · exact Or.inr ⟨_, rfl⟩
  · exact Or.inl rfl

/-- **The cache answers as expected** and stays within its bounds. -/
theorem Kept.serves {w w' : Shared} (hw : Kept api w) {β : Type} {r : Request β} {a : β}
    (hr : api.Honest r) (h : Serves api r w a w') : api.Expected r a ∧ Kept api w' := by
  cases r with
  | charge student =>
    obtain ⟨now, heq, hblobs⟩ := h
    obtain ⟨rfl, hbudget⟩ := Prod.mk.inj heq
    refine ⟨charge_expected _ _ _, ?_, ?_, ?_⟩
    · rw [hblobs]
      exact hw.size
    · rw [hblobs]
      exact hw.length
    · rw [hblobs]
      exact hw.genuine
  | commit path => exact ⟨h.1, h.2 ▸ hw⟩
  | tree path => exact ⟨h.1, h.2 ▸ hw⟩
  | blob path => exact ⟨h.1, h.2 ▸ hw⟩
  | lookup key => exact ⟨fun blob hblob => hw.genuine key blob (h.1 ▸ hblob), h.2 ▸ hw⟩
  | remember key blob =>
    refine ⟨trivial, ?_⟩
    rw [show w' = _ from h]
    exact hw.remember hr

theorem kept_empty {w : Shared} (h : w.blobs = .empty) : Kept api w := by
  refine ⟨?_, ?_, ?_⟩
  · rw [h]
    exact Nat.zero_le _
  · rw [h]
    exact Nat.zero_le _
  · intro key blob hb
    rw [h] at hb
    cases hb

/-- Whether a call stopped at the request budget. -/
def overBudget (result : Except FetchError Snapshot) : Prop :=
  ∃ retryAt, result = .error (.quota retryAt)

/-- **The blob cache is transparent.**  Whatever calls share it, in whatever
order their requests are answered, it stays within its bounds, and a call yields
what it yields alone with an empty cache, unless either stops at the request
budget.  A snapshot is within the limits of its call and each of its files has
the mode of its own tree entry and the bytes of its own blob. -/
theorem cache_transparent (hapi : api.Consistent)
    {σ τ : Pool Request FetchError Snapshot Call Shared}
    {taken : List (Pool Request FetchError Snapshot Call Shared × Pool.Event FetchError Snapshot Call)}
    (hempty : σ.world.blobs = .empty) (hidle : σ.running = [])
    (hrun : Transition.Run (Pool.Step (service api)) σ taken τ) :
    τ.world.blobs.size ≤ 512 ∧ encodedLength τ.world.blobs ≤ 16 * 1024 * 1024 ∧
    ∀ p ∈ taken, ∀ c result, p.2 = .finish c result →
      (∀ w, w.blobs = .empty → (∃ alone w', c.body.Ends (Serves api) w alone w') ∧
        ∀ alone w', c.body.Ends (Serves api) w alone w' →
          overBudget result ∨ overBudget alone ∨ result = alone) ∧
      ∀ snapshot, result = .ok snapshot → snapshot.files.size ≤ c.maxFiles ∧
        decodedLength snapshot.files ≤ c.maxBytes ∧ OwnFiles api c.repository c.sha snapshot := by
  have hbody : ∀ c : Call, Agrees api c.body := fun c => Agrees.fetchSnapshot hapi _ _ _ _ _
  have hserves : ∀ {β : Type} (r : Request β) w a w', Kept api w → api.Honest r →
      Serves api r w a w' → api.Expected r a ∧ Kept api w' := fun _ _ _ _ hw hr h =>
    hw.serves hr h
  obtain ⟨hkept, hresults⟩ := Pool.within hbody (fun _ => hserves) (fun _ _ _ hw h => h ▸ hw)
    (fun _ _ _ hw h => h ▸ hw) (kept_empty hempty) hidle hrun
  refine ⟨hkept.size, hkept.length, fun p hp c result hfinish => ?_⟩
  have hresult := hresults p hp c result hfinish
  refine ⟨fun w hw => ⟨⟨_, _, ends_of_exec (serves_serveAt api 0) c.body w⟩, ?_⟩, ?_⟩
  · intro alone w' hends
    have halone := ((hbody c).ends hserves (kept_empty hw) hends).1
    rcases hresult with hover | hresult
    · exact Or.inl hover
    · rcases halone with hover | halone
      · exact Or.inr (Or.inl hover)
      · exact Or.inr (Or.inr (hresult.trans halone.symm))
  · intro snapshot hsnapshot
    rcases hresult with ⟨t, hover⟩ | hresult
    · rw [hover] at hsnapshot
      cases hsnapshot
    · exact fetchSnapshot_spec hapi (hresult.symm.trans hsnapshot)

end Cache

end Sources

namespace Sample

open Sources

def sourceSha : String := "aaaaaaaaaaaaaaaaaaaaaaaaaaaaaaaaaaaaaaaa"

/-- A repository of two files with one blob. -/
def api : Api where
  commit _ := .ok ⟨sourceSha, ⟨"b"⟩⟩
  tree _ := .ok ⟨[⟨"src/a", "100644", "c", "blob", some 1⟩, ⟨"src/b", "100755", "c", "blob", some 1⟩],
    false⟩
  blob _ := .ok ⟨"eA==\n", "base64", 1⟩

theorem api_consistent : api.Consistent where
  sizes repository name tree htree e he _ n blob hsize hblob := by
    cases htree
    cases hblob
    rcases List.mem_cons.mp he with rfl | he
    · exact Option.some_inj.mp hsize
    · rw [List.mem_singleton.mp he] at hsize
      exact Option.some_inj.mp hsize
  names repository name tree htree e he hkind := by
    cases htree
    rcases List.mem_cons.mp he with rfl | he
    · exact absurd hkind (by decide)
    · rw [List.mem_singleton.mp he] at hkind
      exact absurd hkind (by decide)

def pulling : Call := ⟨"course/repo", sourceSha, 10, 1024, some 1⟩

def unfetched : Shared := ⟨.empty, ⟨0, 0, .empty⟩⟩

/-- What the first of the calls leaves. -/
def fetchedOnce : Shared := (pulling.body.exec (serveAt api 0) unfetched).2

def fetchedFiles : OrderedMap String Blob :=
  (OrderedMap.empty.insert "src/a" ⟨"100644", "eA=="⟩).insert "src/b" ⟨"100755", "eA=="⟩

theorem fetched_again : (match (pulling.body.exec (serveAt api 0) fetchedOnce).1 with
    | .ok snapshot => decide (snapshot = ⟨sourceSha, fetchedFiles⟩)
    | .error _ => false) = true := by
  decide +kernel

/-- The second of two calls finds the blob in the cache. -/
theorem cache_transparent_twice : fetchedOnce.blobs.size = 1 ∧ ∃ taken τ,
    Transition.Run (Pool.Step (service api)) ⟨unfetched, []⟩ taken τ ∧
    τ.world.blobs.size ≤ 512 ∧ encodedLength τ.world.blobs ≤ 16 * 1024 * 1024 ∧
    OwnFiles api "course/repo" sourceSha ⟨sourceSha, fetchedFiles⟩ := by
  refine ⟨by decide +kernel, ?_⟩
  obtain ⟨first, s₁, hfirst⟩ := Pool.run_of_ends (service api) (c := pulling)
    (ends_of_exec (serves_serveAt api 0) pulling.body unfetched) rfl rfl
  obtain ⟨second, s₂, hsecond⟩ := Pool.run_of_ends (service api) (c := pulling)
    (ends_of_exec (serves_serveAt api 0) pulling.body fetchedOnce) rfl rfl
  have hagain : (pulling.body.exec (serveAt api 0) fetchedOnce).1 =
      .ok ⟨sourceSha, fetchedFiles⟩ := by
    have h := fetched_again
    split at h
    · rename_i snapshot heq
      rw [heq, of_decide_eq_true h]
    · cases h
  obtain ⟨hsize, hlength, hresults⟩ := cache_transparent api_consistent rfl rfl
    (hfirst.trans hsecond)
  refine ⟨_, _, hfirst.trans hsecond, hsize, hlength, ?_⟩
  have hlast := hresults (s₂, .finish pulling _)
    (List.mem_append_right _ (List.mem_append_right _ List.mem_cons_self)) pulling _ rfl
  exact (hlast.2 _ hagain).2.2

end Sample

end Grading

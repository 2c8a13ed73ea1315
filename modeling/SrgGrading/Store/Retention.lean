import SrgGrading.Library.Durable
import SrgGrading.Library.RelyGuarantee
import SrgGrading.Store.Artifacts

/-!
# Retaining files

`Artifacts::put` and `Artifacts::get` call by call.  A file is written under a
name of its own, synced, renamed to its digest, the directory is synced, and only
then is there a row in the database.  Any number of calls run at a time; each may
fail or be killed at any point, and the machine may lose power.

* `Archive.Sound`: what is under a digest is a synced file of that digest, and a
  row's file outlasts a loss of power.
* `put_does`: what `put` does, whatever the other calls do.
* `artifacts_survive`: rows stay readable in every run.
-/

open Fallible Program

namespace Grading

namespace Retention

inductive Op
  | put (kind : String) (bytes : List UInt8)
  | get (hash : String)

/-- A call, with the id `put` draws. -/
structure Call where
  id : Uuid
  op : Op

/-- `.tmp-<id>`. -/
def temporary (id : Uuid) : String := ".tmp-" ++ String.ofList id.text

/-- The artifact root and the table, and the calls so far. -/
structure Archive where
  disk : Durable.Disk String
  rows : List ArtifactRow
  calls : List Call

def Archive.empty : Archive := ⟨.empty, [], []⟩

inductive Request : Type → Type
  | createNew (id : Uuid) : Request (Except Error Unit)
  | writeAll (id : Uuid) (bytes : List UInt8) : Request (Except Error Unit)
  | syncAll (id : Uuid) : Request (Except Error Unit)
  | rename (id : Uuid) (hash : String) : Request (Except Error Unit)
  | syncRoot : Request (Except Error Unit)
  | insert (hash : String) (bytes : Nat) (kind : String) : Request (Except Error Unit)
  | metadata (hash : String) : Request (Except Error Nat)
  | read (hash : String) : Request (Except Error (List UInt8))

/-- What is not decided by the archive: whether a request fails, whether it was
done all the same, and what a write that failed left. -/
structure Outside where
  fault : Option Error
  done : Bool
  part : List UInt8

def notFound : Error := .message "No such file or directory (os error 2)"

namespace Archive

/-- A request that may fail, and may be done all the same. -/
def attempt (a : Archive) (o : Outside) (done : Archive) : Except Error Unit × Archive :=
  match o.fault with
  | some e => (.error e, if o.done then done else a)
  | none => (.ok (), done)

def onDisk (a : Archive) (disk : Durable.Disk String) : Archive := { a with disk }

def createNew (a : Archive) (o : Outside) (id : Uuid) : Except Error Unit × Archive :=
  match a.disk.now (temporary id) with
  | some _ => (.error (.message "File exists (os error 17)"), a)
  | none => a.attempt o (a.onDisk (a.disk.create (temporary id)))

/-- A write that fails is reported, and leaves anything. -/
def writeAll (a : Archive) (o : Outside) (id : Uuid) (bytes : List UInt8) :
    Except Error Unit × Archive :=
  match o.fault with
  | some e => (.error e, a.onDisk (a.disk.write (temporary id) o.part))
  | none => (.ok (), a.onDisk (a.disk.write (temporary id) bytes))

def rename (a : Archive) (o : Outside) (id : Uuid) (hash : String) : Except Error Unit × Archive :=
  match a.disk.now (temporary id) with
  | some _ => a.attempt o (a.onDisk (a.disk.rename (temporary id) hash))
  | none => (.error notFound, a)

/-- `INSERT INTO artifacts ... ON CONFLICT DO NOTHING`. -/
def withRow (a : Archive) (row : ArtifactRow) : Archive :=
  if a.rows.any fun r => r.digest = row.digest then a else { a with rows := a.rows ++ [row] }

def insert (a : Archive) (o : Outside) (row : ArtifactRow) : Except Error Unit × Archive :=
  if Text.validHex row.digest 64 && ["source", "report"].contains row.kind then
    a.attempt o (a.withRow row)
  else (.error .checkViolation, a)

def fetch {α : Type} (a : Archive) (o : Outside) (hash : String) (f : List UInt8 → α) :
    Except Error α :=
  match o.fault with
  | some e => .error e
  | none => (fetchOne notFound (a.disk.now hash)).map fun file => f file.bytes

/-- What a request yields and leaves behind. -/
def answer (o : Outside) {β : Type} (r : Request β) (a : Archive) : β × Archive :=
  match r with
  | .createNew id => a.createNew o id
  | .writeAll id bytes => a.writeAll o id bytes
  | .syncAll id => a.attempt o (a.onDisk (a.disk.sync (temporary id)))
  | .rename id hash => a.rename o id hash
  | .syncRoot => a.attempt o (a.onDisk a.disk.syncDir)
  | .insert hash bytes kind => a.insert o ⟨hash, bytes, kind⟩
  | .metadata hash => (a.fetch o hash List.length, a)
  | .read hash => (a.fetch o hash id, a)

/-- The files under the artifact root. -/
def files (a : Archive) : Artifacts := fun name => (a.disk.now name).map Durable.File.bytes

end Archive

section Model
variable [Sha256]

/-- `Artifacts::put`. -/
def put (id : Uuid) (kind : String) (bytes : List UInt8) : Program Request Error String := do
  lift (check (bytes.length ≤ maxSnapshotBytes * 2) "artifact exceeds limit")
  let hash := digest bytes
  ask (.createNew id)
  ask (.writeAll id bytes)
  ask (.syncAll id)
  ask (.rename id hash)
  ask .syncRoot
  ask (.insert hash bytes.length kind)
  return hash

/-- `Artifacts::get`. -/
def get (hash : String) : Program Request Error (List UInt8) := do
  lift (check (Text.validHex hash 64) "invalid artifact digest")
  let length ← ask (.metadata hash)
  lift (check (length ≤ maxSnapshotBytes * 2) "artifact exceeds limit")
  let bytes ← ask (.read hash)
  lift (check (digest bytes = hash) "artifact digest mismatch")
  return bytes

/-- What a call returns. -/
inductive Returned
  | hash (hash : String)
  | bytes (bytes : List UInt8)

def Call.body (c : Call) : Program Request Error Returned :=
  match c.op with
  | .put kind bytes => do
    let hash ← put c.id kind bytes
    return .hash hash
  | .get hash => do
    let bytes ← get hash
    return .bytes bytes

def serve {β : Type} (_ : Call) (r : Request β) (a : Archive) (b : β) (a' : Archive) : Prop :=
  ∃ o : Outside, a.answer o r = (b, a')

/-- A call has an id nobody had before. -/
def service : Service Request Error Returned Call Archive where
  body := Call.body
  serve := serve
  enter c a a' := (∀ q ∈ a.calls, q.id ≠ c.id) ∧ a' = { a with calls := a.calls ++ [c] }
  leave _ a a' := a' = a

abbrev State := Pool Request Error Returned Call Archive

inductive Event
  | call (e : Pool.Event Error Returned Call)
  | powerLoss

/-- Nothing runs after a loss of power; what was committed is still committed. -/
inductive Step : State → Event → State → Prop
  | call {σ τ : State} {e : Pool.Event Error Returned Call} (h : Pool.Step service σ e τ) :
      Step σ (.call e) τ
  | powerLoss {a : Archive} {running : List (Call × Program Request Error Returned)}
      {disk : Durable.Disk String} (h : Durable.Lost a.disk disk) :
      Step ⟨a, running⟩ .powerLoss ⟨a.onDisk disk, []⟩

end Model

/-! ### Names -/

theorem temporary_inj {id id' : Uuid} (h : temporary id = temporary id') : id = id' := by
  have hlist := congrArg String.toList h
  rw [temporary, temporary, String.toList_append, String.toList_append, List.append_cancel_left_eq,
    String.toList_ofList, String.toList_ofList] at hlist
  exact Uuid.text_inj hlist

section Safety
variable [Sha256]

theorem digest_ne_temporary (bytes : List UInt8) (id : Uuid) : digest bytes ≠ temporary id := by
  intro h
  have hdot : '.' ∈ (digest bytes).toList := by
    rw [h, temporary, String.toList_append]
    exact List.mem_append_left _ (by decide)
  rw [digest, String.toList_ofList] at hdot
  exact absurd (Text.isHexDigit_hex 64 _ _ hdot) (by decide)

/-! ### What lasts -/

/-- Bytes that `put` may have put under a name. -/
def Kept (a : Archive) (name : String) (bytes : List UInt8) : Prop :=
  digest bytes = name ∧ bytes.length ≤ maxSnapshotBytes * 2 ∧
    ∃ c ∈ a.calls, ∃ kind, c.op = .put kind bytes

structure Archive.Sound (a : Archive) : Prop where
  files : ∀ name, (∀ id, name ≠ temporary id) → Durable.Clean (Kept a name) a.disk name
  rows : ∀ row ∈ a.rows, Durable.Firm (Kept a row.digest) a.disk row.digest

/-- Calls and rows are only added, and what is under a digest stays. -/
structure Grows (a a' : Archive) : Prop where
  calls : ∀ c ∈ a.calls, c ∈ a'.calls
  rows : ∀ row ∈ a.rows, row ∈ a'.rows
  there : ∀ bytes, a.disk.now (digest bytes) ≠ none → a'.disk.now (digest bytes) ≠ none
  firm : ∀ bytes, Durable.Firm (Kept a (digest bytes)) a.disk (digest bytes) →
    Durable.Firm (Kept a' (digest bytes)) a'.disk (digest bytes)

/-- What a call relies on the others to do. -/
structure Rely (c : Call) (a a' : Archive) : Prop where
  sound : a'.Sound
  grows : Grows a a'
  own : a'.disk.now (temporary c.id) = a.disk.now (temporary c.id)

/-- What a call guarantees the others. -/
structure Guar (c : Call) (a a' : Archive) : Prop where
  sound : a'.Sound
  grows : Grows a a'
  others : ∀ id, id ≠ c.id → a'.disk.now (temporary id) = a.disk.now (temporary id)

theorem Kept.mono {a a' : Archive} (h : ∀ c ∈ a.calls, c ∈ a'.calls) {name : String}
    {bytes : List UInt8} (hkept : Kept a name bytes) : Kept a' name bytes := by
  obtain ⟨hdigest, hlen, c, hc, kind, hop⟩ := hkept
  exact ⟨hdigest, hlen, c, h c hc, kind, hop⟩

/-- A name that something is kept under is a digest. -/
theorem exists_digest {a : Archive} {name : String} (h : Durable.Firm (Kept a name) a.disk name) :
    ∃ bytes, name = digest bytes := by
  obtain ⟨bytes, _, hdigest, _⟩ := h.holds
  exact ⟨bytes, hdigest.symm⟩

theorem Archive.Sound.grows {a a' : Archive} (hs : a.Sound) (hg : Grows a a')
    (hfiles : ∀ name, (∀ id, name ≠ temporary id) → Durable.Clean (Kept a' name) a'.disk name)
    (hrows : ∀ row ∈ a'.rows, row ∈ a.rows ∨
      Durable.Firm (Kept a' row.digest) a'.disk row.digest) : a'.Sound := by
  refine ⟨hfiles, fun row hrow => ?_⟩
  rcases hrows row hrow with hold | hnew
  · have hfirm := hs.rows row hold
    obtain ⟨bytes, hdigest⟩ := exists_digest hfirm
    rw [hdigest] at hfirm ⊢
    exact hg.firm bytes hfirm
  · exact hnew

theorem Guar.refl (c : Call) {a : Archive} (hs : a.Sound) : Guar c a a :=
  ⟨hs, ⟨fun _ h => h, fun _ h => h, fun _ h => h, fun _ h => h⟩, fun _ _ => rfl⟩

/-- A change under a temporary name. -/
theorem guar_onDisk (c : Call) {a : Archive} (hs : a.Sound) {disk : Durable.Disk String}
    (h : ∀ name, name ≠ temporary c.id → disk.versions name = a.disk.versions name) :
    Guar c a (a.onDisk disk) := by
  have hnow : ∀ name, name ≠ temporary c.id → disk.now name = a.disk.now name := by
    intro name hne
    exact (List.cons.inj (h name hne)).1
  have hg : Grows a (a.onDisk disk) := by
    refine ⟨fun _ h => h, fun _ h => h, fun bytes hthere => ?_, fun bytes hfirm entry he => ?_⟩
    · rwa [← hnow _ (digest_ne_temporary bytes c.id)] at hthere
    · rw [Archive.onDisk, h _ (digest_ne_temporary bytes c.id)] at he
      exact hfirm entry he
  refine ⟨hs.grows hg (fun name hname entry he => ?_) fun row hrow => Or.inl hrow, hg,
    fun id hid => hnow _ fun heq => hid (temporary_inj heq)⟩
  rw [Archive.onDisk, h name (hname c.id)] at he
  exact hs.files name hname entry he

theorem guar_rename (c : Call) {a : Archive} (hs : a.Sound) {bytes : List UInt8}
    (hfile : a.disk.now (temporary c.id) = some ⟨bytes, true⟩)
    (hkept : Kept a (digest bytes) bytes) :
    Guar c a (a.onDisk (a.disk.rename (temporary c.id) (digest bytes))) := by
  have hne := digest_ne_temporary bytes c.id
  have hholds : Durable.Holds (Kept a (digest bytes)) (a.disk.now (temporary c.id)) :=
    ⟨bytes, hfile, hkept⟩
  have hother : ∀ name, name ≠ temporary c.id → name ≠ digest bytes →
      (a.disk.rename (temporary c.id) (digest bytes)).versions name = a.disk.versions name := by
    intro name hname hhash
    rw [Durable.Disk.rename, Durable.versions_enter_of_ne hname, Durable.versions_enter_of_ne hhash]
  have hg : Grows a (a.onDisk (a.disk.rename (temporary c.id) (digest bytes))) := by
    refine ⟨fun _ h => h, fun _ h => h, fun other hthere => ?_, fun other hfirm => ?_⟩
    · by_cases hhash : digest other = digest bytes
      · rw [hhash, Archive.onDisk, Durable.now_rename hne, hfile]
        exact Option.some_ne_none _
      · have hsame := hother _ (digest_ne_temporary other c.id) hhash
        rw [Archive.onDisk, (List.cons.inj hsame).1]
        exact hthere
    · by_cases hhash : digest other = digest bytes
      · rw [hhash] at hfirm ⊢
        exact Durable.firm_rename hne hfirm hholds
      · intro entry he
        rw [Archive.onDisk, hother _ (digest_ne_temporary other c.id) hhash] at he
        exact hfirm entry he
  refine ⟨hs.grows hg (fun name hname => ?_) fun row hrow => Or.inl hrow, hg, fun id hid => ?_⟩
  · by_cases hhash : name = digest bytes
    · rw [hhash]
      exact Durable.clean_rename hne (hs.files _ fun id => digest_ne_temporary bytes id) hholds
    · intro entry he
      rw [Archive.onDisk, hother name (hname c.id) hhash] at he
      exact hs.files name hname entry he
  · have hsame := hother (temporary id) (fun heq => hid (temporary_inj heq))
      (digest_ne_temporary bytes id).symm
    exact (List.cons.inj hsame).1

theorem guar_syncRoot (c : Call) {a : Archive} (hs : a.Sound) :
    Guar c a (a.onDisk a.disk.syncDir) := by
  have hg : Grows a (a.onDisk a.disk.syncDir) :=
    ⟨fun _ h => h, fun _ h => h, fun _ h => h, fun _ hfirm => Durable.Firm.syncDir hfirm⟩
  exact ⟨hs.grows hg (fun name hname => (hs.files name hname).syncDir) fun row hrow => Or.inl hrow,
    hg, fun _ _ => rfl⟩

theorem guar_insert (c : Call) {a : Archive} (hs : a.Sound) {row : ArtifactRow}
    (hfirm : Durable.Firm (Kept a row.digest) a.disk row.digest) : Guar c a (a.withRow row) := by
  rw [Archive.withRow]
  split
  · exact Guar.refl c hs
  · have hg : Grows a { a with rows := a.rows ++ [row] } :=
      ⟨fun _ h => h, fun _ h => List.mem_append_left _ h, fun _ h => h, fun _ h => h⟩
    refine ⟨hs.grows hg hs.files fun r hr => ?_, hg, fun _ _ => rfl⟩
    rcases List.mem_append.mp hr with hold | hnew
    · exact Or.inl hold
    · rw [List.mem_singleton.mp hnew]
      exact Or.inr hfirm

/-! ### The rules of a call -/

/-- Where a call stands. -/
def Here (c : Call) (F : Archive → Prop) (a : Archive) : Prop := a.Sound ∧ c ∈ a.calls ∧ F a

/-- A fact that the other calls do not spoil. -/
def Lasts (c : Call) (F : Archive → Prop) : Prop :=
  ∀ a a', a.Sound → Rely c a a' → F a → F a'

/-- The triples of the requests of a call. -/
abbrev Does (c : Call) {α : Type} (F : Archive → Prop) (program : Program Request Error α)
    (G : α → Archive → Prop) : Prop :=
  Triple (serve c) (Rely c) (Guar c) (Here c F) program fun x => Here c (G x)

variable {c : Call} {F : Archive → Prop}

theorem stable_here (hF : Lasts c F) : Stable (Rely c) (Here c F) :=
  fun a a' hrely h => ⟨hrely.sound, hrely.grows.calls c h.2.1, hF a a' h.1 hrely h.2.2⟩

theorem ask_does {α : Type} {r : Request (Except Error α)} {G : α → Archive → Prop}
    (hG : ∀ x, Lasts c (G x))
    (h : ∀ o a, a.Sound → c ∈ a.calls → F a → Guar c a (a.answer o r).2 ∧
      ∀ x, (a.answer o r).1 = .ok x → G x (a.answer o r).2) :
    Does c F (ask r) G := by
  refine Triple.ask (fun x => stable_here (hG x)) fun a x a' ⟨hs, hc, hF⟩ ⟨o, hr⟩ => ?_
  obtain ⟨hguar, hG'⟩ := h o a hs hc hF
  rw [hr] at hguar hG'
  exact ⟨hguar, fun b hb => ⟨hguar.sound, hguar.grows.calls c hc, hG' b hb⟩⟩

/-- A request that is done, or not, or done although it failed. -/
theorem guar_attempt {a next : Archive} {G : Archive → Prop} (o : Outside) (hs : a.Sound)
    (hguar : Guar c a next) (hG : G next) : Guar c a (a.attempt o next).2 ∧
      ∀ x, (a.attempt o next).1 = .ok x → G (a.attempt o next).2 := by
  rw [Archive.attempt]
  cases o.fault with
  | none => exact ⟨hguar, fun _ _ => hG⟩
  | some e =>
    refine ⟨?_, fun _ h => by cases h⟩
    show Guar c a (if o.done = true then next else a)
    by_cases hdone : o.done = true
    · rw [if_pos hdone]
      exact hguar
    · rw [if_neg hdone]
      exact Guar.refl c hs

/-! ### What is under the temporary name -/

/-- The file under the temporary name of a call. -/
def Draft (c : Call) (file : Durable.File) (a : Archive) : Prop :=
  a.disk.now (temporary c.id) = some file

theorem Draft.lasts (file : Durable.File) : Lasts c (Draft c file) := by
  intro a a' _ hrely h
  rw [Draft, hrely.own]
  exact h

theorem createNew_does : Does c (fun _ => True) (ask (.createNew c.id))
    fun _ a => ∃ file, Draft c file a := by
  refine ask_does (fun _ a a' hs hrely h => ?_) fun o a hs _ _ => ?_
  · obtain ⟨file, hfile⟩ := h
    exact ⟨file, Draft.lasts file a a' hs hrely hfile⟩
  · have hanswer : a.answer o (.createNew c.id) = a.createNew o c.id := rfl
    rw [hanswer, Archive.createNew]
    cases a.disk.now (temporary c.id) with
    | some file => exact ⟨Guar.refl c hs, fun _ h => by cases h⟩
    | none =>
      exact guar_attempt (G := fun a => ∃ file, Draft c file a) o hs
        (guar_onDisk c hs fun name hname => Durable.versions_enter_of_ne hname _)
        ⟨_, Durable.now_enter _⟩

theorem guar_change (c : Call) {a : Archive} (hs : a.Sound)
    (f : Durable.File → Durable.File) : Guar c a (a.onDisk (a.disk.change (temporary c.id) f)) :=
  guar_onDisk c hs fun _ hname => Durable.versions_change_of_ne hname f

omit [Sha256] in
theorem draft_change {c : Call} {a : Archive} {file : Durable.File} (h : Draft c file a)
    (f : Durable.File → Durable.File) :
    Draft c (f file) (a.onDisk (a.disk.change (temporary c.id) f)) := by
  rw [Draft, Archive.onDisk, Durable.now_change, h, Option.map_some]

theorem writeAll_does (bytes : List UInt8) :
    Does c (fun a => ∃ file, Draft c file a) (ask (.writeAll c.id bytes))
      fun _ => Draft c ⟨bytes, false⟩ := by
  refine ask_does (fun _ => Draft.lasts _) fun o a hs _ h => ?_
  obtain ⟨file, hfile⟩ := h
  have hanswer : a.answer o (.writeAll c.id bytes) = a.writeAll o c.id bytes := rfl
  rw [hanswer, Archive.writeAll]
  cases o.fault with
  | some e => exact ⟨guar_change c hs _, fun _ h => by cases h⟩
  | none => exact ⟨guar_change c hs _, fun _ _ => draft_change hfile _⟩

theorem syncAll_does (bytes : List UInt8) :
    Does c (Draft c ⟨bytes, false⟩) (ask (.syncAll c.id)) fun _ => Draft c ⟨bytes, true⟩ :=
  ask_does (fun _ => Draft.lasts _) fun o a hs _ hfile => by
    have hsync : Guar c a (a.onDisk (a.disk.sync (temporary c.id))) := guar_change c hs _
    exact guar_attempt o hs hsync (draft_change hfile _)

/-! ### What is under the digest -/

/-- Something is under the digest. -/
def There (bytes : List UInt8) (a : Archive) : Prop := a.disk.now (digest bytes) ≠ none

/-- What is under the digest outlasts a loss of power. -/
def Durably (bytes : List UInt8) (a : Archive) : Prop :=
  Durable.Firm (Kept a (digest bytes)) a.disk (digest bytes)

/-- And there is a row that says so. -/
def Retained (bytes : List UInt8) (a : Archive) : Prop :=
  Durably bytes a ∧ ∃ row ∈ a.rows, row.digest = digest bytes

theorem There.lasts (bytes : List UInt8) : Lasts c (There bytes) :=
  fun _ _ _ hrely h => hrely.grows.there bytes h

theorem Durably.lasts (bytes : List UInt8) : Lasts c (Durably bytes) :=
  fun _ _ _ hrely h => hrely.grows.firm bytes h

theorem Retained.grows {bytes : List UInt8} {a a' : Archive} (hg : Grows a a')
    (h : Retained bytes a) : Retained bytes a' := by
  obtain ⟨hdurably, row, hrow, heq⟩ := h
  exact ⟨hg.firm bytes hdurably, row, hg.rows row hrow, heq⟩

theorem rename_does {kind : String} {bytes : List UInt8} (hop : c.op = .put kind bytes)
    (hlen : bytes.length ≤ maxSnapshotBytes * 2) :
    Does c (Draft c ⟨bytes, true⟩) (ask (.rename c.id (digest bytes))) fun _ => There bytes := by
  refine ask_does (fun _ => There.lasts bytes) fun o a hs hc hfile => ?_
  have hanswer : a.answer o (.rename c.id (digest bytes)) = a.rename o c.id (digest bytes) := rfl
  rw [hanswer, Archive.rename, hfile]
  refine guar_attempt o hs (guar_rename c hs hfile ⟨rfl, hlen, c, hc, kind, hop⟩) ?_
  rw [There, Archive.onDisk, Durable.now_rename (digest_ne_temporary bytes c.id), hfile]
  exact Option.some_ne_none _

theorem syncRoot_does (bytes : List UInt8) :
    Does c (There bytes) (ask .syncRoot) fun _ => Durably bytes :=
  ask_does (fun _ => Durably.lasts bytes) fun o a hs _ hthere => by
    have hsync : Guar c a (a.onDisk a.disk.syncDir) := guar_syncRoot c hs
    exact guar_attempt o hs hsync
      (Durable.firm_syncDir (hs.files _ (digest_ne_temporary bytes)) hthere)

theorem insert_does (kind : String) (bytes : List UInt8) :
    Does c (Durably bytes) (ask (.insert (digest bytes) bytes.length kind))
      fun _ => Retained bytes := by
  refine ask_does (fun _ a a' _ hrely h => h.grows hrely.grows) fun o a hs _ hdurably => ?_
  have hanswer : a.answer o (.insert (digest bytes) bytes.length kind) =
      a.insert o ⟨digest bytes, bytes.length, kind⟩ := rfl
  rw [hanswer, Archive.insert]
  split
  · have hinsert : Guar c a (a.withRow ⟨digest bytes, bytes.length, kind⟩) :=
      guar_insert c hs hdurably
    refine guar_attempt o hs hinsert ⟨hinsert.grows.firm bytes hdurably, ?_⟩
    rw [Archive.withRow]
    split
    · next hany =>
      obtain ⟨row, hrow, heq⟩ := List.any_eq_true.mp hany
      exact ⟨row, hrow, of_decide_eq_true heq⟩
    · exact ⟨_, List.mem_append_right _ (List.mem_singleton_self _), rfl⟩
  · exact ⟨Guar.refl c hs, fun _ h => by cases h⟩

/-- **What `put` does**, whatever the other calls do: the file outlasts a loss of
power before there is a row of it. -/
theorem put_does {kind : String} {bytes : List UInt8} (hop : c.op = .put kind bytes) :
    Does c (fun _ => True) (put c.id kind bytes)
      fun hash a => hash = digest bytes ∧ Retained bytes a := by
  refine Triple.bind_lift fun _ hlen => ?_
  rw [check_ok, decide_eq_true_eq] at hlen
  refine createNew_does.bind fun _ => (writeAll_does bytes).bind fun _ => ?_
  refine (syncAll_does bytes).bind fun _ => (rename_does hop hlen).bind fun _ => ?_
  refine (syncRoot_does bytes).bind fun _ => (insert_does kind bytes).bind fun _ => ?_
  exact Triple.pure fun a h => ⟨h.1, h.2.1, rfl, h.2.2⟩

/-- Reading changes nothing. -/
theorem fetch_does {α : Type} (r : Request (Except Error α)) (hash : String) (f : List UInt8 → α)
    (hr : ∀ (o : Outside) (a : Archive), a.answer o r = (a.fetch o hash f, a)) :
    Does c (fun _ => True) (ask r) fun _ _ => True := by
  refine ask_does (fun _ _ _ _ _ _ => trivial) fun o a hs _ _ => ?_
  rw [hr]
  exact ⟨Guar.refl c hs, fun _ _ => trivial⟩

theorem metadata_does (hash : String) :
    Does c (fun _ => True) (ask (.metadata hash)) fun _ _ => True :=
  fetch_does (.metadata hash) hash List.length fun _ _ => rfl

theorem read_does (hash : String) :
    Does c (fun _ => True) (ask (.read hash)) fun _ _ => True :=
  fetch_does (.read hash) hash id fun _ _ => rfl

theorem get_does (hash : String) :
    Does c (fun _ => True) (get hash) fun bytes _ => digest bytes = hash := by
  unfold get
  refine Triple.bind_lift fun _ _ => ?_
  refine (metadata_does hash).bind fun length => Triple.bind_lift fun _ _ => ?_
  refine Triple.bind (read_does hash) fun bytes => ?_
  generalize hcheck : check (decide (digest bytes = hash)) "artifact digest mismatch" = result
  refine Triple.bind_lift fun _ hok => ?_
  rw [← hcheck, check_ok, decide_eq_true_eq] at hok
  exact Triple.pure fun a h => ⟨h.1, h.2.1, hok⟩

/-- What a call returns, and what then holds. -/
def Call.Post (c : Call) : Returned → Archive → Prop
  | .hash hash, a => ∃ kind bytes, c.op = .put kind bytes ∧ hash = digest bytes ∧ Retained bytes a
  | .bytes bytes, _ => c.op = .get (digest bytes)

theorem body_does (c : Call) : Does c (fun _ => True) c.body fun x a => c.Post x a := by
  cases hop : c.op with
  | put kind bytes =>
    rw [Call.body, hop]
    refine (put_does hop).bind fun hash => Triple.pure fun a h => ⟨h.1, h.2.1, ?_⟩
    exact ⟨kind, bytes, hop, h.2.2⟩
  | get hash =>
    rw [Call.body, hop]
    refine (get_does hash).bind fun bytes => Triple.pure fun a h => ⟨h.1, h.2.1, ?_⟩
    exact hop.trans (congrArg Op.get h.2.2.symm)

/-! ### Every run -/

/-- What calls rely on and guarantee. -/
def discipline : Pool.Discipline service Uuid where
  name := Call.id
  inv := Archive.Sound
  begun id a := ∃ q ∈ a.calls, q.id = id
  rely := Rely
  guar := Guar
  inv_guar _ h := h.sound
  begun_guar := by
    rintro c i a a' ⟨q, hq, hid⟩ h
    exact ⟨q, h.grows.calls q hq, hid⟩
  rely_of_guar := fun hne _ h => ⟨h.sound, h.grows, h.others _ hne.symm⟩
  enter := by
    rintro c a a' hs ⟨hfresh, rfl⟩
    have hcalls : ∀ q ∈ a.calls, q ∈ a.calls ++ [c] := fun q hq => List.mem_append_left _ hq
    have hg : Grows a { a with calls := a.calls ++ [c] } :=
      ⟨hcalls, fun _ h => h, fun _ h => h,
        fun _ hfirm => Durable.Firm.mono (fun _ => Kept.mono hcalls) hfirm⟩
    refine ⟨fun h => hfresh _ h.choose_spec.1 h.choose_spec.2,
      ⟨c, List.mem_append_right _ (List.mem_singleton_self c), rfl⟩, ?_, hg, fun _ _ => rfl⟩
    exact hs.grows hg
      (fun name hname => Durable.Clean.mono (fun _ => Kept.mono hcalls) (hs.files name hname))
      fun row hrow => Or.inl hrow
  leave := by
    rintro c a a' hs _ rfl
    exact Guar.refl c hs

theorem here_of_enter {c : Call} {a a' : Archive} (hs : a.Sound) (h : service.enter c a a') :
    Here c (fun _ => True) a' := by
  have hguar := (discipline.enter hs h).2.2
  obtain ⟨_, rfl⟩ := h
  exact ⟨hguar.sound, List.mem_append_right _ (List.mem_singleton_self c), trivial⟩

theorem Archive.Sound.lost {a : Archive} {disk : Durable.Disk String} (hs : a.Sound)
    (h : Durable.Lost a.disk disk) : (a.onDisk disk).Sound :=
  ⟨fun name hname => Durable.Clean.lost (hs.files name hname) h,
    fun row hrow => Durable.Firm.lost (hs.rows row hrow) h⟩

/-- One step: what is kept, and what a call returns. -/
theorem step_keeps {σ τ : State} {e : Event}
    (hσ : discipline.Sound (fun c x => Here c (c.Post x)) σ) (h : Step σ e τ) :
    discipline.Sound (fun c x => Here c (c.Post x)) τ ∧
      (∀ c ∈ σ.world.calls, c ∈ τ.world.calls) ∧
      (∀ bytes, Retained bytes σ.world → Retained bytes τ.world) ∧
      ∀ c x, e = .call (.finish c (.ok x)) → Here c (c.Post x) σ.world := by
  cases h with
  | call h =>
    obtain ⟨hsound, ⟨c, hguar⟩, hfinish⟩ := hσ.step (d := discipline)
      (fun c => stable_here fun _ _ _ _ h => h) (fun _ _ _ hs h => here_of_enter hs h) body_does h
    refine ⟨hsound, hguar.grows.calls, fun bytes h => h.grows hguar.grows,
      fun c x heq => hfinish c x ?_⟩
    cases heq
    rfl
  | @powerLoss a running disk h =>
    refine ⟨⟨hσ.inv.lost h, List.nodup_nil, fun e he => ?_, fun e he => ?_⟩, fun _ h => h,
      fun bytes hkept => ?_, fun _ _ heq => by cases heq⟩
    · exact absurd he List.not_mem_nil
    · exact absurd he List.not_mem_nil
    · exact ⟨Durable.Firm.lost hkept.1 h, hkept.2⟩

theorem get_of_firm {a : Archive} {bytes : List UInt8}
    (h : Durable.Firm (Kept a (digest bytes)) a.disk (digest bytes)) :
    ∃ kept, a.files.get (digest bytes) = .ok kept ∧ digest kept = digest bytes ∧
      ∃ c ∈ a.calls, ∃ kind, c.op = .put kind kept := by
  obtain ⟨kept, hnow, hdigest, hlen, hcall⟩ := h.holds
  refine ⟨kept, Artifacts.get_ok.mpr ⟨?_, hlen, hdigest⟩, hdigest, hcall⟩
  rw [Archive.files, hnow, Option.map_some]

/-- **Retained files survive.**  In every run of any number of calls, which may fail
or be killed at any point, with losses of power at any time, the file of every row
can be read; and so can, from then on, what a `put` that returned was given. -/
theorem artifacts_survive {σ : State} {taken : List (State × Event)}
    (hrun : Transition.Run Step ⟨.empty, []⟩ taken σ) :
    (∀ row ∈ σ.world.rows, ∃ bytes, σ.world.files.get row.digest = .ok bytes ∧
      ∃ c ∈ σ.world.calls, ∃ kind, c.op = .put kind bytes) ∧
    ∀ e ∈ taken, ∀ c kind bytes hash, c.op = .put kind bytes →
      e.2 = .call (.finish c (.ok (.hash hash))) →
      hash = digest bytes ∧ (∃ row ∈ σ.world.rows, row.digest = hash) ∧
      (CollisionFree (fun x => ∃ c ∈ σ.world.calls, ∃ kind, c.op = .put kind x) →
        σ.world.files.get hash = .ok bytes) := by
  have hstart : discipline.Sound (fun c x => Here c (c.Post x)) (⟨.empty, []⟩ : State) := by
    refine ⟨⟨fun _ _ => Durable.clean_empty, fun _ h => absurd h List.not_mem_nil⟩,
      List.nodup_nil, fun _ h => absurd h List.not_mem_nil, fun _ h => absurd h List.not_mem_nil⟩
  have hkeep : ∀ (s : State) e t, discipline.Sound (fun c x => Here c (c.Post x)) s → Step s e t →
      discipline.Sound (fun c x => Here c (c.Post x)) t := fun s e t hs hst => (step_keeps hs hst).1
  have hsound := hrun.invariant hkeep hstart
  refine ⟨fun row hrow => ?_, fun e he c kind bytes hash hop heq => ?_⟩
  · have hfirm := hsound.inv.rows row hrow
    obtain ⟨bytes, hdigest⟩ := exists_digest hfirm
    rw [hdigest] at hfirm ⊢
    obtain ⟨kept, hget, _, hcall⟩ := get_of_firm hfirm
    exact ⟨kept, hget, hcall⟩
  · have hbefore := hrun.invariant_taken hkeep hstart e he
    obtain ⟨_, t, _, _, hst, hafter⟩ := hrun.mem_step he
    obtain ⟨hsoundt, hcalls, hkept, hfinish⟩ := step_keeps hbefore hst
    obtain ⟨_, hc, kind', bytes', hop', hhash, hretained⟩ := hfinish c _ heq
    rw [hop, Op.put.injEq] at hop'
    obtain ⟨rfl, rfl⟩ := hop'
    have hlast : ∀ (s : State) e t, discipline.Sound (fun c x => Here c (c.Post x)) s ∧
        c ∈ s.world.calls ∧ Retained bytes s.world → Step s e t →
        discipline.Sound (fun c x => Here c (c.Post x)) t ∧
        c ∈ t.world.calls ∧ Retained bytes t.world := by
      intro s e t hs hst
      obtain ⟨hsound, hcalls, hkept, _⟩ := step_keeps hs.1 hst
      exact ⟨hsound, hcalls c hs.2.1, hkept bytes hs.2.2⟩
    obtain ⟨_, hcall, hfirm, row, hrow, hdigest⟩ :=
      hafter.invariant hlast ⟨hsoundt, hcalls c hc, hkept bytes hretained⟩
    refine ⟨hhash, ⟨row, hrow, hdigest.trans hhash.symm⟩, fun hcf => ?_⟩
    obtain ⟨kept, hget, hsame, hput⟩ := get_of_firm hfirm
    rw [hhash, hget, hcf.eq hput ⟨c, hcall, kind, hop⟩ hsame]

/-! ### A call that nobody interferes with -/

/-- Nothing fails. -/
def calm : Outside := ⟨none, false, []⟩

/-- A request that nobody interferes with. -/
abbrev Alone {α : Type} (program : Program Request Error α) (a : Archive) (x : α)
    (a' : Archive) : Prop :=
  Yields (fun r a => Archive.answer calm r a) program a x a'

/-- **`put` succeeds** where nothing fails, and leaves the other files alone. -/
theorem put_alone {id : Uuid} {kind : String} {bytes : List UInt8} {a : Archive}
    (hnew : a.disk.now (temporary id) = none) (hlen : bytes.length ≤ maxSnapshotBytes * 2)
    (hkind : ["source", "report"].contains kind = true) :
    ∃ a', Alone (put id kind bytes) a (digest bytes) a' ∧ a'.calls = a.calls ∧
      ∀ name, name ≠ temporary id → name ≠ digest bytes →
        a'.disk.now name = a.disk.now name := by
  have hcheck : check (decide (bytes.length ≤ maxSnapshotBytes * 2)) "artifact exceeds limit" =
      .ok () := by
    rw [check_ok, decide_eq_true_eq]
    exact hlen
  have hhex := validHex_digest bytes
  unfold put
  generalize digest bytes = hash at hhex ⊢
  let a₁ := a.onDisk (a.disk.create (temporary id))
  let a₂ := a₁.onDisk (a₁.disk.write (temporary id) bytes)
  let a₃ := a₂.onDisk (a₂.disk.sync (temporary id))
  let a₄ := a₃.onDisk (a₃.disk.rename (temporary id) hash)
  let a₅ := a₄.onDisk a₄.disk.syncDir
  have hfile : a₃.disk.now (temporary id) = some ⟨bytes, true⟩ := by
    show ((a₁.disk.change _ _).change _ _).now _ = _
    rw [Durable.now_change, Durable.now_change]
    show (((a.disk.create (temporary id)).now (temporary id)).map _).map _ = _
    rw [Durable.Disk.create, Durable.now_enter]
    rfl
  have hcreate : Alone (ask (.createNew id)) a () a₁ := by
    refine Yields.ask ?_
    show a.createNew calm id = _
    rw [Archive.createNew, hnew]
    rfl
  have hwrite : Alone (ask (.writeAll id bytes)) a₁ () a₂ := Yields.ask rfl
  have hsync : Alone (ask (.syncAll id)) a₂ () a₃ := Yields.ask rfl
  have hrename : Alone (ask (.rename id hash)) a₃ () a₄ := by
    refine Yields.ask ?_
    show a₃.rename calm id hash = _
    rw [Archive.rename, hfile]
    rfl
  have hroot : Alone (ask .syncRoot) a₄ () a₅ := Yields.ask rfl
  have hinsert : Alone (ask (.insert hash bytes.length kind)) a₅ ()
      (a₅.withRow ⟨hash, bytes.length, kind⟩) := by
    refine Yields.ask ?_
    show a₅.insert calm ⟨hash, bytes.length, kind⟩ = _
    rw [Archive.insert, hhex, hkind]
    rfl
  have hcalls : (a₅.withRow ⟨hash, bytes.length, kind⟩).calls = a.calls := by
    rw [Archive.withRow]
    split
    · rfl
    · rfl
  have hframe : ∀ name, name ≠ temporary id → name ≠ hash →
      (a₅.withRow ⟨hash, bytes.length, kind⟩).disk.now name = a.disk.now name := by
    intro name htemporary hhash
    have hdisk : (a₅.withRow ⟨hash, bytes.length, kind⟩).disk = a₅.disk := by
      rw [Archive.withRow]
      split
      · rfl
      · rfl
    rw [hdisk]
    show (Durable.Disk.rename _ _ _).now name = _
    rw [Durable.Disk.rename, Durable.now_enter_of_ne htemporary, Durable.now_enter_of_ne hhash]
    show ((Durable.Disk.change _ _ _).change _ _).now name = _
    rw [Durable.now_change_of_ne htemporary, Durable.now_change_of_ne htemporary]
    exact Durable.now_enter_of_ne htemporary _
  refine ⟨_, (Yields.lift hcheck a).bind (hcreate.bind ?_), hcalls, hframe⟩
  exact hwrite.bind (hsync.bind (hrename.bind (hroot.bind (hinsert.bind (Yields.pure _ _)))))

/-- The calls alone, without losses of power. -/
theorem run_of_calls {σ τ : State} {taken : List (State × Pool.Event Error Returned Call)}
    (h : Transition.Run (Pool.Step service) σ taken τ) :
    Transition.Run Step σ (taken.map fun e => (e.1, .call e.2)) τ := by
  induction h with
  | nil => exact .nil
  | snoc _ hst ih =>
    rw [List.map_append]
    exact ih.snoc (.call hst)

end Safety

end Retention

namespace Sample

open Retention

attribute [local instance] Sha256.standard

/-- A call that retains a source of one byte. -/
def retaining : Retention.Call := ⟨3, .put "source" [7]⟩

/-- A call that is killed when it has written a report. -/
def torn : Retention.Call := ⟨4, .put "report" [8]⟩

/-- What the killed call leaves. -/
def halfWritten : Archive :=
  ⟨(Durable.Disk.empty.create (temporary 4)).write (temporary 4) [8], [], [torn]⟩

theorem serve_calm (c : Retention.Call) {β : Type} (r : Retention.Request β) (a : Archive) :
    serve c r a (a.answer calm r).1 (a.answer calm r).2 := ⟨calm, rfl⟩

theorem run_torn : ∃ taken, Transition.Run (Pool.Step service) ⟨.empty, []⟩ taken
    ⟨halfWritten, []⟩ := by
  obtain ⟨k, k', hbody, hk⟩ : ∃ k k', service.body torn = .call (.createNew 4) k ∧
      k (.ok ()) = .call (.writeAll 4 [8]) k' := ⟨_, _, rfl, rfl⟩
  let a₁ : Archive := ⟨.empty, [], [torn]⟩
  let a₂ : Archive := ⟨Durable.Disk.empty.create (temporary 4), [], [torn]⟩
  have hstart : Pool.Step service ⟨.empty, []⟩ (.start torn)
      ⟨a₁, [] ++ (torn, service.body torn) :: []⟩ :=
    .start torn ⟨fun _ hq => absurd hq List.not_mem_nil, rfl⟩
  have hcreate : Pool.Step service ⟨a₁, [] ++ (torn, .call (.createNew 4) k) :: []⟩
      (.request torn) ⟨a₂, [] ++ (torn, k (.ok ())) :: []⟩ := .request ⟨calm, rfl⟩
  have hwrite : Pool.Step service ⟨a₂, [] ++ (torn, .call (.writeAll 4 [8]) k') :: []⟩
      (.request torn) ⟨halfWritten, [] ++ (torn, k' (.ok ())) :: []⟩ := .request ⟨calm, rfl⟩
  have hkill : Pool.Step service ⟨halfWritten, [] ++ (torn, k' (.ok ())) :: []⟩ (.kill torn)
      ⟨halfWritten, [] ++ []⟩ := .kill rfl
  rw [hbody] at hstart
  rw [hk] at hcreate
  exact ⟨_, (((Transition.Run.single hstart).snoc hcreate).snoc hwrite).snoc hkill⟩

/-- **A source is there after a loss of power** that came when it was retained, and that
lost what another call had written. -/
theorem artifacts_survive_retaining : ∃ (taken : List (State × Retention.Event)) (s σ : State),
    Transition.Run Retention.Step ⟨.empty, []⟩ (taken ++ [(s, .powerLoss)]) σ ∧
      s.world.disk.now (temporary 4) = some ⟨[8], false⟩ ∧
      σ.world.disk.now (temporary 4) = some ⟨[], true⟩ ∧
      σ.world.files.get (digest [7]) = .ok [7] := by
  have hne : temporary 4 ≠ temporary 3 := fun h => absurd (temporary_inj h) (by decide)
  let a₀ : Archive := { halfWritten with calls := halfWritten.calls ++ [retaining] }
  have hfresh : a₀.disk.now (temporary 3) = none := by
    show (Durable.Disk.change _ _ _).now _ = none
    rw [Durable.now_change_of_ne hne.symm]
    exact Durable.now_enter_of_ne hne.symm _
  have hwritten : a₀.disk.now (temporary 4) = some ⟨[8], false⟩ := by
    show (Durable.Disk.change _ _ _).now _ = _
    rw [Durable.now_change, Durable.Disk.create, Durable.now_enter]
    rfl
  obtain ⟨a, halone, hcalls, hframe⟩ : ∃ a, Alone (put 3 "source" [7]) a₀ (digest [7]) a ∧
      a.calls = a₀.calls ∧ ∀ name, name ≠ temporary 3 → name ≠ digest [7] →
        a.disk.now name = a₀.disk.now name := put_alone hfresh (by decide) rfl
  have htorn := (hframe _ hne (digest_ne_temporary _ _).symm).trans hwritten
  have hbody : Alone (service.body retaining) a₀ (.hash (digest [7])) a :=
    halone.bind (Yields.pure _ _)
  have henter : service.enter retaining halfWritten a₀ :=
    ⟨fun q hq => by rw [List.mem_singleton.mp hq]; decide, rfl⟩
  obtain ⟨before, hbefore⟩ := run_torn
  obtain ⟨taken, s, hrun⟩ :=
    Pool.run_of_ends service (hbody.ends (serve_calm retaining)) rfl henter
  have hlost := (run_of_calls (hbefore.trans hrun)).snoc (.powerLoss (Durable.lost_torn htorn []))
  let finish : State × Pool.Event Error Returned Retention.Call :=
    (s, .finish retaining (.ok (.hash (digest [7]))))
  have hfinish : finish ∈ before ++ (taken ++ [finish]) :=
    List.mem_append_right _ (List.mem_append_right _ (List.mem_singleton_self _))
  have hmem := List.mem_map_of_mem (f := fun e : State × Pool.Event Error Returned Retention.Call =>
    (e.1, Retention.Event.call e.2)) hfinish
  have hempty := Function.update_self (temporary 4) (some (⟨[], true⟩ : Durable.File))
    a.disk.settled.now
  refine ⟨_, _, _, hlost, htorn, hempty, ?_⟩
  refine ((artifacts_survive hlost).2 _ (List.mem_append_left _ hmem) retaining "source" [7]
    (digest [7]) rfl rfl).2.2 ?_
  have hapart : Sha256.sum [7] ≠ Sha256.sum [8] := by
    decide +kernel
  have hput : ∀ x, (∃ c ∈ a.calls, ∃ kind, c.op = .put kind x) → x = [8] ∨ x = [7] := by
    rintro x ⟨c, hc, kind, hx⟩
    rw [hcalls] at hc
    rcases List.mem_cons.mp hc with rfl | hc
    · cases hx
      exact Or.inl rfl
    · cases List.mem_singleton.mp hc
      cases hx
      exact Or.inr rfl
  intro x y hx hy heq
  rcases hput x hx with rfl | rfl
  · rcases hput y hy with rfl | rfl
    · rfl
    · exact absurd heq.symm hapart
  · rcases hput y hy with rfl | rfl
    · exact absurd heq hapart
    · rfl

end Sample

end Grading

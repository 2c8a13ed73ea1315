import Mathlib.Data.List.Sort
import Std.Data.String.ToInt
import SrgGrading.Library.ReadCommitted
import SrgGrading.Core.Security
import SrgGrading.Store.Roster

/-!
# Logins, sessions and administrators

The statements of `identity.rs`, under READ COMMITTED, with any number of
requests in progress.

* `newSession_does`, `logout_does`, `consumeLogin_does`, `adminChange_does`: what
  a transaction does, whatever others commit meanwhile.
* `sessions_bounded`: no account ever has more than five sessions.
* `sessions_revoked`: who is signed in, and that signing out is for good.
* `logins_once`: a login is completed at most once, by the browser that began it.
* `admins_audited`: the table of administrators is what the audit trail says.
-/

open Fallible

namespace Grading

namespace Identity

/-! ### The tables -/

structure SessionRow where
  tokenHash : String
  githubId : Int
  csrf : String
  expiresAt : Time
  deriving DecidableEq

structure LoginState where
  stateHash : String
  browserHash : String
  verifier : String
  expiresAt : Time
  deriving DecidableEq

/-- The committed tables, the time, and (not a table) every session there ever was. -/
structure Db where
  users : List User
  sessions : List SessionRow
  logins : List LoginState
  admins : List Int
  audit : List AuditEvent
  clock : Time
  issued : List SessionRow

/-- What a transaction has written. -/
structure Writes where
  users : Delta User Int
  sessions : Delta SessionRow String
  logins : Delta LoginState String
  admins : Delta Int Int
  audit : List AuditEvent

namespace Writes

def blank : Writes := ⟨.blank, .blank, .blank, .blank, []⟩

def dropAdmin (w : Writes) (githubId : Int) : Writes :=
  { w with admins := w.admins.drop id [githubId] }

def apply (w : Writes) (db : Db) : Db where
  users := w.users.apply User.githubId db.users
  sessions := w.sessions.apply SessionRow.tokenHash db.sessions
  logins := w.logins.apply LoginState.stateHash db.logins
  admins := w.admins.apply id db.admins
  audit := db.audit ++ w.audit
  clock := db.clock
  issued := db.issued ++ w.sessions.added

end Writes

/-- Rows, the advisory lock of `admin_change`, and tokens nobody else makes up. -/
inductive Lock
  | user (githubId : Int)
  | session (tokenHash : String)
  | login (stateHash : String)
  | admin (githubId : Int)
  | admins
  | token (tokenHash : String)
  deriving DecidableEq

abbrev At := View Db Writes Lock

/-- What a statement sees, with what its transaction has written. -/
def At.seen (v : At) : Db := v.own.apply v.snapshot

/-- What it finds once it has its locks. -/
def At.current (v : At) : Db := v.own.apply v.db

/-- `DELETE FROM sessions` of the rows selected by their keys. -/
def At.DeletesSessions (v : At) (hashes : List String) (own : Writes) (taken : List Lock) : Prop :=
  let there := Delta.deletable SessionRow.tokenHash v.seen.sessions v.current.sessions hashes
  taken = there.map .session ∧
    own = { v.own with sessions := v.own.sessions.drop SessionRow.tokenHash there }

def At.DeletesLogins (v : At) (hashes : List String) (own : Writes) (taken : List Lock) : Prop :=
  let there := Delta.deletable LoginState.stateHash v.seen.logins v.current.logins hashes
  taken = there.map .login ∧
    own = { v.own with logins := v.own.logins.drop LoginState.stateHash there }

def hours (n : Int) : Time := n * (3600 * nanosPerSecond)

def minutes (n : Int) : Time := n * (60 * nanosPerSecond)

/-! ### The statements -/

inductive Statement : Type → Type
  | upsertUser (githubId : Int) (login : String) : Statement Unit
  | deleteSession (tokenHash : String) : Statement Unit
  | trimSessions (githubId : Int) : Statement Unit
  | insertSession (row : SessionRow) : Statement Unit
  | expireSessions (now : Time) : Statement Unit
  | insertLogin (row : LoginState) : Statement Unit
  | deleteLogin (stateHash browserHash : String) (now : Time) : Statement String
  | expireLogins (now : Time) : Statement Unit
  | lockAdmins : Statement Unit
  | insertAdmin (githubId : Int) : Statement Unit
  | countOthers (githubId : Int) : Statement Nat
  | deleteAdmin (githubId : Int) : Statement Unit
  | insertAudit (event : AuditEvent) : Statement Unit

namespace Statement

/-- `ORDER BY expires_at DESC, token_hash`, by some collation. -/
def newer (collate : String → String → Bool) (a b : SessionRow) : Bool :=
  decide (b.expiresAt < a.expiresAt) ||
    (decide (a.expiresAt = b.expiresAt) && collate a.tokenHash b.tokenHash)

/-- The subselect of the trimming statement, with its `OFFSET 4`. -/
def oldest (collate : String → String → Bool) (rows : List SessionRow) (githubId : Int) :
    List String :=
  (((rows.filter (·.githubId = githubId)).mergeSort (newer collate)).drop 4).map
    SessionRow.tokenHash

/-- `LIMIT 1000`: any of the rows, and all if they are few. -/
def Limited (found chosen : List String) : Prop :=
  chosen.Nodup ∧ (∀ h ∈ chosen, h ∈ found) ∧ chosen.length = min 1000 found.length

/-- What a statement answers, writes and locks. -/
def exec (collate : String → String → Bool) {β : Type} : Statement β → At → β → Writes →
    List Lock → Prop
  | upsertUser githubId login, v, _, own, taken =>
    0 < githubId ∧ taken = [.user githubId] ∧
      own = { v.own with users := (v.own.users.drop User.githubId [githubId]).add ⟨githubId, login⟩ }
  | deleteSession tokenHash, v, _, own, taken =>
    v.DeletesSessions [tokenHash] own taken
  | trimSessions githubId, v, _, own, taken =>
    v.DeletesSessions (oldest collate v.seen.sessions githubId) own taken
  | insertSession row, v, _, own, taken =>
    (∀ other ∈ v.current.sessions, other.tokenHash ≠ row.tokenHash) ∧
      (∃ user ∈ v.current.users, user.githubId = row.githubId) ∧
      taken = [.session row.tokenHash] ∧
      own = { v.own with sessions := v.own.sessions.add row }
  | expireSessions now, v, _, own, taken =>
    ∃ chosen, Limited ((v.seen.sessions.filter (·.expiresAt < now)).map SessionRow.tokenHash)
      chosen ∧ v.DeletesSessions chosen own taken
  | insertLogin row, v, _, own, taken =>
    (∀ other ∈ v.current.logins, other.stateHash ≠ row.stateHash) ∧
      taken = [.login row.stateHash] ∧ own = { v.own with logins := v.own.logins.add row }
  | deleteLogin stateHash browserHash now, v, verifier, own, taken =>
    ∃ row ∈ v.seen.logins, row ∈ v.current.logins ∧ row.stateHash = stateHash ∧
      row.browserHash = browserHash ∧ now < row.expiresAt ∧ verifier = row.verifier ∧
      v.DeletesLogins [stateHash] own taken
  | expireLogins now, v, _, own, taken =>
    ∃ chosen, Limited ((v.seen.logins.filter (·.expiresAt < now)).map LoginState.stateHash) chosen ∧
      v.DeletesLogins chosen own taken
  | lockAdmins, v, _, own, taken => taken = [.admins] ∧ own = v.own
  | insertAdmin githubId, v, _, own, taken =>
    0 < githubId ∧ taken = [.admin githubId] ∧
      own = if githubId ∈ v.current.admins then v.own
        else { v.own with admins := v.own.admins.add githubId }
  | countOthers githubId, v, n, own, taken =>
    n = (v.seen.admins.filter (· ≠ githubId)).length ∧ taken = [] ∧ own = v.own
  | deleteAdmin githubId, v, _, own, taken =>
    taken = [.admin githubId] ∧
      own = if githubId ∈ v.seen.admins ∧ githubId ∈ v.current.admins
        then v.own.dropAdmin githubId else v.own
  | insertAudit event, v, _, own, taken =>
    taken = [] ∧ own = { v.own with audit := v.own.audit ++ [event] }

end Statement

/-! ### The transactions -/

/-- A call with the random values it makes up. -/
inductive Op
  | newSession (githubId : Int) (login : String) (previous : Option String) (token csrf : String)
  | logout (raw : String)
  | beginLogin (state browser verifier : String)
  | consumeLogin (state browser : String)
  | adminChange (id : Int) (grant recovery : Bool) (operator reason : String)
  | cleanupLogins
  | cleanupSessions
  deriving DecidableEq

/-- A call, and the `now()` of its transaction. -/
structure Call where
  now : Time
  op : Op
  deriving DecidableEq

section Calls
variable [Sha256]

/-- `security::digest` of a text. -/
def digestOf (s : String) : String := digest (s.toList.flatMap String.utf8EncodeChar)

/-- The row of a new session. -/
def sessionRow (now : Time) (githubId : Int) (token csrf : String) : SessionRow :=
  ⟨digestOf token, githubId, csrf, now + hours 12⟩

def loginRow (now : Time) (state browser verifier : String) : LoginState :=
  ⟨digestOf state, digestOf browser, verifier, now + minutes 5⟩

omit [Sha256] in
/-- The row of `admin_change` in the audit trail. -/
def adminEvent (id : Int) (grant : Bool) (operator reason : String) : AuditEvent :=
  ⟨operator, if grant then "admin.grant" else "admin.revoke", toString id, reason⟩

def deletePrevious : Option String → Program Statement Error Unit
  | some previous => Program.request (.deleteSession (digestOf previous))
  | none => return ()

omit [Sha256] in
/-- The branches of `admin_change`. -/
def changeAdmin (id : Int) (recovery : Bool) : Bool → Program Statement Error Unit
  | true => Program.request (.insertAdmin id)
  | false => do
    let count ← Program.request (.countOthers id)
    Program.lift (check (0 < count || recovery)
      "refusing to revoke final administrator without --recovery-override")
    Program.request (.deleteAdmin id)

def body (now : Time) : Op → Program Statement Error (Option String)
  | .newSession githubId login previous token csrf => do
    Program.request (.upsertUser githubId login)
    deletePrevious previous
    Program.request (.trimSessions githubId)
    Program.request (.insertSession (sessionRow now githubId token csrf))
    return some token
  | .logout raw => do
    Program.request (.deleteSession (digestOf raw))
    return none
  | .beginLogin state browser verifier => do
    Program.request (.insertLogin (loginRow now state browser verifier))
    return none
  | .consumeLogin state browser => do
    let verifier ← Program.request (.deleteLogin (digestOf state) (digestOf browser) now)
    return some verifier
  | .adminChange id grant recovery operator reason => do
    Program.lift (check (0 < id && !Text.blank reason && !Text.blank operator)
      "identity, operator and reason are required")
    Program.request .lockAdmins
    changeAdmin id recovery grant
    Program.request (.insertAudit (adminEvent id grant operator reason))
    return none
  | .cleanupLogins => do
    Program.request (.expireLogins now)
    return none
  | .cleanupSessions => do
    Program.request (.expireSessions now)
    return none

/-- The tokens a call makes up. -/
def claims : Op → List Lock
  | .newSession _ _ _ token _ => [.token (digestOf token)]
  | _ => []

/-- A call begins at the time it is, and its token has never been made before. -/
def enter (c : Call) (db : Db) : Prop :=
  c.now = db.clock ∧ ∀ h, Lock.token h ∈ claims c.op → ∀ row ∈ db.issued, row.tokenHash ≠ h

/-- The service of all these calls. -/
def service (collate : String → String → Bool) :
    Isolation Statement Error (Option String) Call Db Writes Lock where
  body c := body c.now c.op
  blank := .blank
  apply := Writes.apply
  claims c := claims c.op
  enter := enter
  exec _ r := r.exec collate
  elapse db db' := ∃ clock, db.clock ≤ clock ∧ db' = { db with clock }

/-! ### Who is signed in -/

structure Session where
  githubId : Int
  login : String
  csrf : String
  admin : Bool
  deriving DecidableEq

/-- What `session` reads from the committed tables at some time. -/
def session (db : Db) (now : Time) (raw : String) : Option Session :=
  match db.sessions.find? fun s => s.tokenHash = digestOf raw && decide (now < s.expiresAt) with
  | some s => (db.users.find? (·.githubId = s.githubId)).map fun u =>
    ⟨s.githubId, u.login, s.csrf, db.admins.contains s.githubId⟩
  | none => none

end Calls

/-! ### What is kept -/

/-- What the audit trail says last of an account. -/
def granted (audit : List AuditEvent) (id : Int) : Bool :=
  audit.foldl (fun was e => if e.target = toString id then
    (if e.action = "admin.grant" then true else if e.action = "admin.revoke" then false else was)
    else was) false

/-- The sessions of an account. -/
def Db.sessionsOf (db : Db) (githubId : Int) : List SessionRow :=
  db.sessions.filter (·.githubId = githubId)

/-- The sessions of a token. -/
def Db.sessionsBy (db : Db) (tokenHash : String) : List SessionRow :=
  db.sessions.filter (·.tokenHash = tokenHash)

def Db.loginsBy (db : Db) (stateHash : String) : List LoginState :=
  db.logins.filter (·.stateHash = stateHash)

/-- Whether a token was ever one of a session. -/
def Db.Knows (db : Db) (tokenHash : String) : Prop := ∃ row ∈ db.issued, row.tokenHash = tokenHash

structure Db.Inv (db : Db) : Prop where
  bounded : ∀ githubId, (db.sessionsOf githubId).length ≤ 5
  issued : ∀ row ∈ db.sessions, row ∈ db.issued
  audited : ∀ id, id ∈ db.admins ↔ granted db.audit id = true

/-- What holds of the committed tables before and after any time: a session that
has ended never comes back. -/
structure Db.Always (db db' : Db) : Prop where
  issued : ∀ row ∈ db.issued, row ∈ db'.issued
  ended : ∀ h, db.Knows h → (db'.sessionsBy h).Sublist (db.sessionsBy h)

/-- What others keep for the holder of a lock. -/
def frame : Lock → Db → Db → Prop
  | .user githubId, db, db' => (db'.sessionsOf githubId).Sublist (db.sessionsOf githubId)
  | .login stateHash, db, db' => db'.loginsBy stateHash = db.loginsBy stateHash
  | .admins, db, db' => db'.admins = db.admins
  | .token tokenHash, db, db' => db'.Knows tokenHash → db.Knows tokenHash
  | _, _, _ => True

/-- What a transaction has written to the logins, it has locked. -/
def Covered (w : Writes) (keys : List Lock) : Prop :=
  ∀ h, w.logins.Touches LoginState.stateHash h → .login h ∈ keys

theorem Db.Knows.mono {db db' : Db} (h : db.Always db') {tokenHash : String}
    (hknows : db.Knows tokenHash) : db'.Knows tokenHash := by
  obtain ⟨row, hrow, hhash⟩ := hknows
  exact ⟨row, h.issued row hrow, hhash⟩

theorem Db.Always.refl (db : Db) : db.Always db := ⟨fun _ h => h, fun _ _ => .refl _⟩

theorem Db.Always.trans {db db' db'' : Db} (h : db.Always db') (h' : db'.Always db'') :
    db.Always db'' :=
  ⟨fun row hrow => h'.issued row (h.issued row hrow),
    fun k hk => (h'.ended k (hk.mono h)).trans (h.ended k hk)⟩

theorem frame_of_same {db db' : Db} (hsessions : db'.sessions = db.sessions)
    (hlogins : db'.logins = db.logins) (hadmins : db'.admins = db.admins)
    (hissued : db'.issued = db.issued) (key : Lock) : frame key db db' := by
  cases key with
  | user githubId =>
    rw [frame, Db.sessionsOf, Db.sessionsOf, hsessions]
  | login stateHash =>
    rw [frame, Db.loginsBy, Db.loginsBy, hlogins]
  | admins => exact hadmins
  | token tokenHash =>
    rw [frame, Db.Knows, Db.Knows, hissued]
    exact fun h => h
  | session tokenHash => trivial
  | admin githubId => trivial

/-- Deleting logins locks them. -/
theorem Covered.deletes {v : At} {hashes : List String} {own : Writes} {taken : List Lock}
    (h : Covered v.own v.keys) (hexec : v.DeletesLogins hashes own taken) :
    Covered own (taken ++ v.keys) := by
  obtain ⟨rfl, rfl⟩ := hexec
  intro k hk
  rcases hk.of_drop with hold | hnew
  · exact List.mem_append_right _ (h k hold)
  · exact List.mem_append_left _ (List.mem_map_of_mem hnew)

theorem covered_exec {collate : String → String → Bool} {β : Type} {r : Statement β} {v : At} {a : β}
    {own : Writes} {taken : List Lock} (h : Covered v.own v.keys)
    (hexec : r.exec collate v a own taken) : Covered own (taken ++ v.keys) := by
  have hsame : own.logins = v.own.logins → Covered own (taken ++ v.keys) := by
    intro heq k hk
    rw [heq] at hk
    exact List.mem_append_right _ (h k hk)
  cases r with
  | upsertUser githubId login => exact hsame (by rw [hexec.2.2])
  | deleteSession tokenHash => exact hsame (by rw [hexec.2])
  | trimSessions githubId => exact hsame (by rw [hexec.2])
  | insertSession row => exact hsame (by rw [hexec.2.2.2])
  | expireSessions now =>
    obtain ⟨_, _, hdeletes⟩ := hexec
    exact hsame (by rw [hdeletes.2])
  | insertLogin row =>
    obtain ⟨_, rfl, rfl⟩ := hexec
    intro k hk
    rcases hk.of_add with hold | rfl
    · exact List.mem_append_right _ (h k hold)
    · exact List.mem_append_left _ (List.mem_singleton_self _)
  | deleteLogin stateHash browserHash now =>
    obtain ⟨_, _, _, _, _, _, _, hdeletes⟩ := hexec
    exact h.deletes hdeletes
  | expireLogins now =>
    obtain ⟨_, _, hdeletes⟩ := hexec
    exact h.deletes hdeletes
  | lockAdmins => exact hsame (by rw [hexec.2])
  | insertAdmin githubId =>
    obtain ⟨_, _, hown⟩ := hexec
    refine hsame ?_
    rw [hown]
    split <;> rfl
  | countOthers githubId => exact hsame (by rw [hexec.2.2])
  | deleteAdmin githubId =>
    obtain ⟨_, hown⟩ := hexec
    refine hsame ?_
    rw [hown]
    split <;> rfl
  | insertAudit event => exact hsame (by rw [hexec.2])

/-! ### The tables a call adds to -/

inductive Table
  | sessions
  | logins
  | admins
  deriving DecidableEq

/-- Nothing is added to a table; the one of the administrators, and the audit
trail, are as they were. -/
def Writes.Quiet (w : Writes) : Table → Prop
  | .sessions => w.sessions.added = []
  | .logins => w.logins.added = []
  | .admins => w.admins = .blank ∧ w.audit = []

def Statement.adds {β : Type} : Statement β → Option Table
  | .insertSession _ => some .sessions
  | .insertLogin _ => some .logins
  | .insertAdmin _ | .deleteAdmin _ | .insertAudit _ => some .admins
  | _ => none

def Op.adds : Op → Option Table
  | .newSession .. => some .sessions
  | .beginLogin .. => some .logins
  | .adminChange .. => some .admins
  | _ => none

/-- What a call that adds to a table is. -/
theorem Op.of_adds {op : Op} {t : Table} (h : op.adds = some t) :
    match t with
    | .sessions => ∃ githubId login previous token csrf,
      op = .newSession githubId login previous token csrf
    | .logins => ∃ state browser verifier, op = .beginLogin state browser verifier
    | .admins => ∃ id grant recovery operator reason,
      op = .adminChange id grant recovery operator reason := by
  cases op with
  | newSession githubId login previous token csrf =>
    cases h
    exact ⟨githubId, login, previous, token, csrf, rfl⟩
  | beginLogin state browser verifier =>
    cases h
    exact ⟨state, browser, verifier, rfl⟩
  | adminChange id grant recovery operator reason =>
    cases h
    exact ⟨id, grant, recovery, operator, reason, rfl⟩
  | logout raw => cases h
  | consumeLogin state browser => cases h
  | cleanupLogins => cases h
  | cleanupSessions => cases h

theorem quiet_exec {collate : String → String → Bool} {β : Type} {r : Statement β} {v : At} {a : β}
    {own : Writes} {taken : List Lock} {t : Table} (h : v.own.Quiet t) (hne : r.adds ≠ some t)
    (hexec : r.exec collate v a own taken) : own.Quiet t := by
  have hdrop : ∀ {ρ η : Type} [DecidableEq η] (key : ρ → η) (d : Delta ρ η) (keys : List η),
      d.added = [] → (d.drop key keys).added = [] := by
    intro ρ η _ key d keys hadded
    rw [Delta.drop, hadded]
    rfl
  have hsame : own.sessions = v.own.sessions ∧ own.logins = v.own.logins ∧
      own.admins = v.own.admins ∧ own.audit = v.own.audit → own.Quiet t := by
    rintro ⟨hsessions, hlogins, hadmins, haudit⟩
    cases t with
    | sessions => exact (congrArg Delta.added hsessions).trans h
    | logins => exact (congrArg Delta.added hlogins).trans h
    | admins => exact ⟨hadmins.trans h.1, haudit.trans h.2⟩
  have hsessions : ∀ {hashes}, v.DeletesSessions hashes own taken → own.Quiet t := by
    rintro hashes ⟨-, rfl⟩
    cases t with
    | sessions => exact hdrop _ _ _ h
    | logins => exact h
    | admins => exact h
  have hlogins : ∀ {hashes}, v.DeletesLogins hashes own taken → own.Quiet t := by
    rintro hashes ⟨-, rfl⟩
    cases t with
    | sessions => exact h
    | logins => exact hdrop _ _ _ h
    | admins => exact h
  cases r with
  | upsertUser githubId login =>
    obtain ⟨_, _, rfl⟩ := hexec
    exact hsame ⟨rfl, rfl, rfl, rfl⟩
  | deleteSession tokenHash => exact hsessions hexec
  | trimSessions githubId => exact hsessions hexec
  | insertSession row =>
    obtain ⟨_, _, _, rfl⟩ := hexec
    cases t with
    | sessions => exact absurd rfl hne
    | logins => exact h
    | admins => exact h
  | expireSessions now =>
    obtain ⟨_, _, hdeletes⟩ := hexec
    exact hsessions hdeletes
  | insertLogin row =>
    obtain ⟨_, _, rfl⟩ := hexec
    cases t with
    | sessions => exact h
    | logins => exact absurd rfl hne
    | admins => exact h
  | deleteLogin stateHash browserHash now =>
    obtain ⟨_, _, _, _, _, _, _, hdeletes⟩ := hexec
    exact hlogins hdeletes
  | expireLogins now =>
    obtain ⟨_, _, hdeletes⟩ := hexec
    exact hlogins hdeletes
  | lockAdmins =>
    obtain ⟨_, rfl⟩ := hexec
    exact h
  | insertAdmin githubId =>
    obtain ⟨_, _, rfl⟩ := hexec
    cases t with
    | sessions => split <;> exact h
    | logins => split <;> exact h
    | admins => exact absurd rfl hne
  | countOthers githubId =>
    obtain ⟨_, _, rfl⟩ := hexec
    exact h
  | deleteAdmin githubId =>
    obtain ⟨_, rfl⟩ := hexec
    cases t with
    | sessions => split <;> exact h
    | logins => split <;> exact h
    | admins => exact absurd rfl hne
  | insertAudit event =>
    obtain ⟨_, rfl⟩ := hexec
    cases t with
    | sessions => exact h
    | logins => exact h
    | admins => exact absurd rfl hne

section Discipline
variable [Sha256] (collate : String → String → Bool)

/-- The statements of a call add to its table only. -/
theorem calls_body (c : Call) : Program.Calls (fun r => r.adds = none ∨ r.adds = c.op.adds)
    (body c.now c.op) := by
  obtain ⟨now, op⟩ := c
  cases op with
  | newSession githubId login previous token csrf =>
    refine (Program.Calls.request (Or.inl rfl)).bind fun _ => Program.Calls.bind ?_ fun _ =>
      (Program.Calls.request (Or.inl rfl)).bind fun _ =>
        (Program.Calls.request (Or.inr rfl)).bind fun _ => Program.Calls.pure _
    cases previous with
    | some previous => exact Program.Calls.request (Or.inl rfl)
    | none => exact Program.Calls.pure _
  | logout raw => exact (Program.Calls.request (Or.inl rfl)).bind fun _ => Program.Calls.pure _
  | beginLogin state browser verifier =>
    exact (Program.Calls.request (Or.inr rfl)).bind fun _ => Program.Calls.pure _
  | consumeLogin state browser =>
    exact (Program.Calls.request (Or.inl rfl)).bind fun _ => Program.Calls.pure _
  | adminChange id grant recovery operator reason =>
    refine (Program.Calls.lift _).bind fun _ => (Program.Calls.request (Or.inl rfl)).bind fun _ =>
      Program.Calls.bind ?_ fun _ => (Program.Calls.request (Or.inr rfl)).bind fun _ =>
        Program.Calls.pure _
    cases grant with
    | true => exact Program.Calls.request (Or.inr rfl)
    | false =>
      exact (Program.Calls.request (Or.inl rfl)).bind fun _ => (Program.Calls.lift _).bind fun _ =>
        Program.Calls.request (Or.inr rfl)
  | cleanupLogins => exact (Program.Calls.request (Or.inl rfl)).bind fun _ => Program.Calls.pure _
  | cleanupSessions => exact (Program.Calls.request (Or.inl rfl)).bind fun _ => Program.Calls.pure _

def discipline : Isolation.Discipline (service collate) where
  inv := Db.Inv
  always := Db.Always
  frame := frame
  own := Covered
  refl := Db.Always.refl
  trans := Db.Always.trans
  own_blank c k hk := absurd hk Delta.not_touches_blank
  own_exec := covered_exec
  elapse := by
    rintro db _ hinv ⟨clock, _, rfl⟩
    refine ⟨⟨hinv.bounded, hinv.issued, hinv.audited⟩, ⟨fun _ h => h, fun _ _ => .refl _⟩,
      frame_of_same rfl rfl rfl rfl⟩

/-! ### What the transactions do -/

variable {collate} {now : Time} {githubId id : Int} {grant recovery : Bool}
  {login token csrf raw state browser verifier operator reason : String} {previous : Option String}

/-- What a change of the administrators does to their table. -/
structure Changed (id : Int) (grant recovery : Bool) (v : At) : Prop where
  lock : Lock.admins ∈ v.keys
  table : ∀ other, other ∈ v.current.admins ↔
    if other = id then grant = true else other ∈ v.db.admins
  last : recovery = false → v.db.admins ≠ [] → v.current.admins ≠ []

/-- What the creation of a session has done. -/
structure Minted (now : Time) (githubId : Int) (token csrf : String) (v : At) : Prop where
  locks : Lock.user githubId ∈ v.keys ∧ Lock.token (digestOf token) ∈ v.keys
  fresh : ¬v.db.Knows (digestOf token)
  added : v.own.sessions.added = [sessionRow now githubId token csrf]
  bounded : (v.current.sessionsOf githubId).length ≤ 5

/-- The login a browser comes back from, which is gone now. -/
structure Consumed (now : Time) (state browser : String) (a : Option String) (v : At) : Prop where
  lock : Lock.login (digestOf state) ∈ v.keys
  found : ∃ row ∈ v.db.logins, row.stateHash = digestOf state ∧ row.browserHash = digestOf browser ∧
    now < row.expiresAt ∧ a = some row.verifier
  gone : v.current.loginsBy (digestOf state) = []

/-- **What a call has done** when it commits. -/
def Call.Done (c : Call) (a : Option String) (v : At) : Prop :=
  match c.op with
  | .newSession githubId _ _ token csrf => a = some token ∧ Minted c.now githubId token csrf v
  | .logout raw => v.began.Knows (digestOf raw) →
    v.db.Knows (digestOf raw) ∧ v.current.sessionsBy (digestOf raw) = []
  | .beginLogin state browser verifier =>
    v.own.logins.added = [loginRow c.now state browser verifier]
  | .consumeLogin state browser => Consumed c.now state browser a v
  | .adminChange id grant recovery operator reason => Changed id grant recovery v ∧
    v.own.audit = [adminEvent id grant operator reason]
  | .cleanupLogins => True
  | .cleanupSessions => True

theorem stays_changed : (discipline collate).Stays (Changed id grant recovery) := by
  refine (discipline collate).stays_of (fun v db' h _ _ hframe => ?_) fun v h =>
    ⟨h.lock, h.table, h.last⟩
  have hsame : db'.admins = v.db.admins := hframe .admins h.lock
  have hcurrent : (v.own.apply db').admins = (v.own.apply v.db).admins := by
    rw [Writes.apply, Writes.apply, hsame]
  refine ⟨h.lock, fun other => ?_, fun hrecovery hne => ?_⟩
  · change other ∈ (v.own.apply db').admins ↔ if other = id then grant = true else other ∈ db'.admins
    rw [hcurrent, hsame]
    exact h.table other
  · change (v.own.apply db').admins ≠ []
    rw [hcurrent]
    exact h.last hrecovery (by rw [← hsame]; exact hne)

omit [Sha256] in
/-- What a transaction leaves of an account becomes less with what is there. -/
theorem sessionsOf_apply {w : Writes} {db db' : Db}
    (h : (db'.sessionsOf githubId).Sublist (db.sessionsOf githubId)) :
    ((w.apply db').sessionsOf githubId).Sublist ((w.apply db).sessionsOf githubId) :=
  Delta.filter_apply_mono h

theorem stays_minted : (discipline collate).Stays (Minted now githubId token csrf) := by
  refine (discipline collate).stays_of (fun v db' h _ _ hframe => ?_) fun v h =>
    ⟨h.locks, h.fresh, h.added, h.bounded⟩
  refine ⟨h.locks, fun hknows => h.fresh (hframe _ h.locks.2 hknows), h.added, ?_⟩
  exact (sessionsOf_apply (hframe _ h.locks.1)).length_le.trans h.bounded

theorem stays_consumed {a : Option String} :
    (discipline collate).Stays (Consumed now state browser a) := by
  refine (discipline collate).stays_of (fun v db' h _ _ hframe => ?_) fun v h =>
    ⟨h.lock, h.found, h.gone⟩
  have hsame : db'.loginsBy (digestOf state) = v.db.loginsBy (digestOf state) := hframe _ h.lock
  obtain ⟨row, hrow, hstate, hrest⟩ := h.found
  refine ⟨h.lock, ⟨row, ?_, hstate, hrest⟩, ?_⟩
  · have hmem : row ∈ db'.loginsBy (digestOf state) := by
      rw [hsame]
      exact List.mem_filter.mpr ⟨hrow, decide_eq_true hstate⟩
    exact (List.mem_filter.mp hmem).1
  · have hless : ((v.own.apply db').loginsBy (digestOf state)).Sublist
        ((v.own.apply v.db).loginsBy (digestOf state)) :=
      Delta.filter_apply_mono (by rw [← Db.loginsBy, hsame]; exact .refl _)
    exact List.sublist_nil.mp (h.gone ▸ hless)

/-- What a call has done stays done until it commits. -/
theorem Call.Done.stays (c : Call) (a : Option String) : (discipline collate).Stays (c.Done a) := by
  obtain ⟨now, op⟩ := c
  cases op with
  | newSession githubId login previous token csrf =>
    exact fun v v' hrely h => ⟨h.1, stays_minted v v' hrely h.2⟩
  | logout raw =>
    refine (discipline collate).stays_of (fun v db' h _ halways _ hbegan => ?_) fun v h => h
    obtain ⟨hknows, hgone⟩ := h hbegan
    refine ⟨hknows.mono halways, List.sublist_nil.mp (hgone ▸ ?_)⟩
    exact Delta.filter_apply_mono (halways.ended _ hknows)
  | beginLogin state browser verifier =>
    exact (discipline collate).stays_of (fun _ _ h _ _ _ => h) fun _ h => h
  | consumeLogin state browser => exact stays_consumed
  | adminChange id grant recovery operator reason =>
    refine fun v v' hrely h => ⟨stays_changed v v' hrely h.1, ?_⟩
    cases hrely with
    | others => exact h.2
    | look => exact h.2
  | cleanupLogins => exact fun _ _ _ _ => trivial
  | cleanupSessions => exact fun _ _ _ _ => trivial

/-- Where a call begins. -/
structure Call.Begins (c : Call) (v : At) : Prop where
  own : v.own = .blank
  keys : v.keys = claims c.op
  fresh : ∀ h, Lock.token h ∈ v.keys → ¬v.db.Knows h

theorem Call.Begins.stays (c : Call) : (discipline collate).Stays c.Begins := by
  refine (discipline collate).stays_of (fun v db' h _ _ hframe => ?_) fun v h =>
    ⟨h.own, h.keys, h.fresh⟩
  exact ⟨h.own, h.keys, fun k hk hknows => h.fresh k hk (hframe _ hk hknows)⟩

/-! ### New sessions -/

/-- What the creation of a session knows at each of its statements. -/
structure Minting (githubId : Int) (tokenHash : String) (v : At) : Prop where
  locks : Lock.user githubId ∈ v.keys ∧ Lock.token tokenHash ∈ v.keys
  fresh : ¬v.db.Knows tokenHash
  added : v.own.sessions.added = []
  fewer : (v.db.sessionsOf githubId).Sublist (v.snapshot.sessionsOf githubId)

variable {tokenHash : String}

theorem Minting.stays : (discipline collate).Stays (Minting githubId tokenHash) := by
  refine (discipline collate).stays_of (fun v db' h _ _ hframe => ?_) fun v h =>
    ⟨h.locks, h.fresh, h.added, .refl _⟩
  exact ⟨h.locks, fun hknows => h.fresh (hframe _ h.locks.2 hknows), h.added,
    (hframe _ h.locks.1).trans h.fewer⟩

omit [Sha256] in
/-- A statement that adds no session. -/
theorem Minting.next {v : At} {own : Writes} {taken : List Lock} (h : Minting githubId tokenHash v)
    (hown : own.sessions.added = []) :
    Minting githubId tokenHash ⟨v.began, v.db, v.db, own, taken ++ v.keys⟩ :=
  ⟨⟨List.mem_append_right _ h.locks.1, List.mem_append_right _ h.locks.2⟩, h.fresh, hown, .refl _⟩

omit [Sha256] in
theorem added_of_deletes {v : At} {hashes : List String} {own : Writes} {taken : List Lock}
    (h : v.own.sessions.added = []) (hexec : v.DeletesSessions hashes own taken) :
    own.sessions.added = [] := by
  obtain ⟨-, rfl⟩ := hexec
  rw [Delta.drop, h]
  rfl

omit [Sha256] in
/-- What is left of the sessions of which some are deleted. -/
theorem sessions_of_deletes {v : At} {hashes : List String} {own : Writes} {taken : List Lock}
    (hexec : v.DeletesSessions hashes own taken) : (own.apply v.db).sessions =
      v.current.sessions.filter fun s => s.tokenHash ∉
        Delta.deletable SessionRow.tokenHash v.seen.sessions v.current.sessions hashes := by
  obtain ⟨-, rfl⟩ := hexec
  exact Delta.apply_drop _

omit [Sha256] in
/-- All but the four newest are gone: what the statement sees of the account is all
there is, and of that it deletes what is still there. -/
theorem Minting.trim {v : At} {own : Writes} {taken : List Lock} (h : Minting githubId tokenHash v)
    (hexec : v.DeletesSessions (Statement.oldest collate v.seen.sessions githubId) own taken) :
    ((own.apply v.db).sessionsOf githubId).length ≤ 4 := by
  have hless : (v.current.sessionsOf githubId).Sublist (v.seen.sessionsOf githubId) :=
    sessionsOf_apply h.fewer
  have hleft : ((own.apply v.db).sessionsOf githubId).Sublist
      ((v.seen.sessionsOf githubId).filter fun s => s.tokenHash ∉
        Statement.oldest collate v.seen.sessions githubId) := by
    rw [Db.sessionsOf, sessions_of_deletes hexec]
    exact Delta.filter_deletable_sublist _ hless
  have hsorted := List.mergeSort_perm (v.seen.sessionsOf githubId) (Statement.newer collate)
  calc ((own.apply v.db).sessionsOf githubId).length
      ≤ _ := hleft.length_le
    _ = _ := ((hsorted.filter _).length_eq).symm
    _ ≤ 4 := Delta.length_filter_drop_le _ 4

omit [Sha256] in
theorem length_of_add {v : At} {row : SessionRow} {own : Writes} (hown : own =
    { v.own with sessions := v.own.sessions.add row }) :
    ((own.apply v.db).sessionsOf githubId).length ≤ (v.current.sessionsOf githubId).length + 1 := by
  have hrows : (own.apply v.db).sessions = v.current.sessions ++ [row] := by
    rw [hown]
    exact Delta.apply_add row
  rw [Db.sessionsOf, hrows, List.filter_append, List.length_append]
  exact Nat.add_le_add_left (List.length_filter_le _ [row]) _

theorem newSession_does : (discipline collate).Does ⟨now, .newSession githubId login previous token csrf⟩
    (Call.Begins ⟨now, .newSession githubId login previous token csrf⟩)
    (body now (.newSession githubId login previous token csrf))
    (Call.Done ⟨now, .newSession githubId login previous token csrf⟩) := by
  have hupsert : (discipline collate).Does ⟨now, .newSession githubId login previous token csrf⟩
      (Call.Begins ⟨now, .newSession githubId login previous token csrf⟩)
      (Program.request (.upsertUser githubId login) : Program Statement Error Unit)
      fun _ => Minting githubId (digestOf token) := by
    refine (discipline collate).does_request (fun _ => Minting.stays) ?_
    rintro v _ own taken hbegins hknows ⟨_, rfl, rfl⟩
    have htoken : Lock.token (digestOf token) ∈ v.keys := by
      rw [hbegins.keys]
      exact List.mem_singleton_self _
    refine ⟨⟨List.mem_append_left _ (List.mem_singleton_self _), List.mem_append_right _ htoken⟩,
      hbegins.fresh _ htoken, ?_, .refl _⟩
    rw [hbegins.own]
    rfl
  have hprevious : (discipline collate).Does ⟨now, .newSession githubId login previous token csrf⟩
      (Minting githubId (digestOf token)) (deletePrevious previous)
      fun _ => Minting githubId (digestOf token) := by
    cases previous with
    | some previous =>
      refine (discipline collate).does_request (fun _ => Minting.stays) ?_
      intro v _ own taken h _ hexec
      exact h.next (added_of_deletes h.added hexec)
    | none => exact Program.Triple.pure fun _ h => h
  have hstays : (discipline collate).Stays fun v : At => Minting githubId (digestOf token) v ∧
      (v.current.sessionsOf githubId).length ≤ 4 := by
    refine (discipline collate).stays_of (fun v db' h hinv halways hframe => ⟨?_, ?_⟩) fun v h =>
      ⟨⟨h.1.locks, h.1.fresh, h.1.added, .refl _⟩, h.2⟩
    · exact Minting.stays _ _ (.others hinv halways hframe) h.1
    · exact (sessionsOf_apply (hframe _ h.1.locks.1)).length_le.trans h.2
  refine hupsert.bind fun _ => hprevious.bind fun _ => Program.Triple.bind
    ((discipline collate).does_request (fun _ => hstays) ?_) fun _ => Program.Triple.bind
      ((discipline collate).does_request (fun _ => Call.Done.stays _ (some token)) ?_) fun _ =>
        Program.Triple.pure fun _ h => h
  · intro v _ own taken h _ hexec
    exact ⟨h.next (added_of_deletes h.added hexec), h.trim hexec⟩
  · rintro v _ own taken ⟨h, hfour⟩ _ ⟨_, _, rfl, rfl⟩
    refine ⟨rfl, ⟨List.mem_append_right _ h.locks.1, List.mem_append_right _ h.locks.2⟩, h.fresh,
      ?_, ?_⟩
    · change v.own.sessions.added ++ _ = _
      rw [h.added]
      rfl
    · exact (length_of_add rfl).trans (Nat.succ_le_succ hfour)

/-! ### The other calls -/

theorem logout_does : (discipline collate).Does ⟨now, .logout raw⟩ (Call.Begins ⟨now, .logout raw⟩)
    (body now (.logout raw)) (Call.Done ⟨now, .logout raw⟩) := by
  refine Program.Triple.bind ((discipline collate).does_request
    (fun _ => Call.Done.stays ⟨now, .logout raw⟩ none) ?_) fun _ => Program.Triple.pure fun _ h => h
  intro (v : At) _ own taken hbegins hknows hexec hbegan
  have hsnapshot : v.snapshot.Knows (digestOf raw) := hbegan.mono hknows.began
  refine ⟨hsnapshot.mono hknows.since, ?_⟩
  have hless : (v.current.sessionsBy (digestOf raw)).Sublist (v.seen.sessionsBy (digestOf raw)) :=
    Delta.filter_apply_mono (hknows.since.ended _ hsnapshot)
  -- What the statement sees of the token is all there is, and it deletes that.
  have hleft := @Delta.filter_deletable_sublist _ _ _ SessionRow.tokenHash _ _ _ [digestOf raw] hless
  rw [← sessions_of_deletes hexec] at hleft
  have hnone : ((v.seen.sessionsBy (digestOf raw)).filter fun s => s.tokenHash ∉ [digestOf raw]) =
      [] := by
    refine List.filter_eq_nil_iff.mpr fun s hs => ?_
    have hhash := of_decide_eq_true (List.mem_filter.mp hs).2
    simp [hhash]
  exact List.sublist_nil.mp (hnone ▸ hleft)

theorem beginLogin_does : (discipline collate).Does ⟨now, .beginLogin state browser verifier⟩
    (Call.Begins ⟨now, .beginLogin state browser verifier⟩)
    (body now (.beginLogin state browser verifier))
    (Call.Done ⟨now, .beginLogin state browser verifier⟩) := by
  refine Program.Triple.bind ((discipline collate).does_request
    (fun _ => Call.Done.stays ⟨now, .beginLogin state browser verifier⟩ none) ?_) fun _ =>
      Program.Triple.pure fun _ h => h
  rintro v _ own taken hbegins _ ⟨_, _, rfl⟩
  change v.own.logins.added ++ _ = _
  rw [hbegins.own]
  rfl

theorem consumeLogin_does : (discipline collate).Does ⟨now, .consumeLogin state browser⟩
    (Call.Begins ⟨now, .consumeLogin state browser⟩) (body now (.consumeLogin state browser))
    (Call.Done ⟨now, .consumeLogin state browser⟩) := by
  refine Program.Triple.bind ((discipline collate).does_request
    (fun a => Call.Done.stays ⟨now, .consumeLogin state browser⟩ (some a)) ?_) fun _ =>
      Program.Triple.pure fun _ h => h
  rintro (v : At) _ own taken hbegins _ ⟨row, hseen, hcurrent, hstate, hbrowser, hvalid, rfl, rfl, rfl⟩
  have hthere : digestOf state ∈ Delta.deletable LoginState.stateHash v.seen.logins v.current.logins
      [digestOf state] := by
    rw [Delta.deletable, List.mem_filter, Bool.and_eq_true, List.any_eq_true, List.any_eq_true]
    exact ⟨List.mem_singleton_self _, ⟨row, hseen, decide_eq_true hstate⟩,
      row, hcurrent, decide_eq_true hstate⟩
  have hdb : row ∈ v.db.logins := by
    rw [At.current, hbegins.own] at hcurrent
    exact (Delta.mem_apply hcurrent).resolve_right List.not_mem_nil
  refine ⟨List.mem_append_left _ (List.mem_map_of_mem hthere),
    ⟨row, hdb, hstate, hbrowser, hvalid, rfl⟩, List.filter_eq_nil_iff.mpr fun other hother => ?_⟩
  rw [At.current, Writes.apply, Delta.apply_drop] at hother
  intro hhash
  have hnot := of_decide_eq_true (List.mem_filter.mp hother).2
  rw [of_decide_eq_true hhash] at hnot
  exact hnot hthere

/-- What a change of the administrators knows before it writes. -/
structure Deciding (v : At) : Prop where
  lock : Lock.admins ∈ v.keys
  own : v.own = .blank
  same : v.snapshot.admins = v.db.admins

theorem Deciding.stays : (discipline collate).Stays Deciding := by
  refine (discipline collate).stays_of (fun v db' h _ _ hframe => ?_) fun v h =>
    ⟨h.lock, h.own, rfl⟩
  have hsame : db'.admins = v.db.admins := hframe .admins h.lock
  exact ⟨h.lock, h.own, h.same.trans hsame.symm⟩

omit [Sha256] in
theorem Deciding.current {v : At} (h : Deciding v) :
    v.current.admins = v.db.admins ∧ v.seen.admins = v.db.admins := by
  rw [At.current, At.seen, h.own]
  exact ⟨Delta.apply_blank, Delta.apply_blank.trans h.same⟩

/-- The table is changed, and nothing of it is in the audit trail yet. -/
def Noted (id : Int) (grant recovery : Bool) (v : At) : Prop :=
  Changed id grant recovery v ∧ v.own.audit = []

theorem Noted.stays : (discipline collate).Stays (Noted id grant recovery) := by
  refine fun v v' hrely h => ⟨stays_changed v v' hrely h.1, ?_⟩
  cases hrely with
  | others => exact h.2
  | look => exact h.2

omit [Sha256] in
theorem Noted.of_table {v : At} {own : Writes} {taken : List Lock} (h : Deciding v)
    (haudit : own.audit = []) (htable : ∀ other, other ∈ (own.apply v.db).admins ↔
      if other = id then grant = true else other ∈ v.db.admins)
    (hlast : recovery = false → v.db.admins ≠ [] → (own.apply v.db).admins ≠ []) :
    Noted id grant recovery ⟨v.began, v.db, v.db, own, taken ++ v.keys⟩ :=
  ⟨⟨List.mem_append_right _ h.lock, htable, hlast⟩, haudit⟩

theorem grantAdmin_does {c : Call} : (discipline collate).Does c Deciding
    (changeAdmin id recovery true) fun _ => Noted id true recovery := by
  refine (discipline collate).does_request (fun _ => Noted.stays) ?_
  rintro (v : At) _ own taken h _ ⟨_, rfl, rfl⟩
  have haudit : v.own.audit = [] := by
    rw [h.own]
    rfl
  by_cases hmem : id ∈ v.current.admins
  · have hadmins : (v.own.apply v.db).admins = v.db.admins := h.current.1
    rw [if_pos hmem]
    rw [h.current.1] at hmem
    refine .of_table h haudit (fun other => ?_) fun _ hne => by rw [hadmins]; exact hne
    rw [hadmins]
    by_cases heq : other = id
    · rw [if_pos heq, heq]
      exact ⟨fun _ => rfl, fun _ => hmem⟩
    · rw [if_neg heq]
  · have hadmins : (({ v.own with admins := v.own.admins.add id } : Writes).apply v.db).admins =
        v.db.admins ++ [id] := by
      rw [← h.current.1]
      exact Delta.apply_add id
    rw [if_neg hmem]
    refine .of_table h haudit (fun other => ?_) fun _ _ => ?_
    · rw [hadmins, List.mem_append, List.mem_singleton]
      by_cases heq : other = id
      · simp [heq]
      · simp [heq]
    · rw [hadmins]
      exact List.append_ne_nil_of_right_ne_nil _ (List.cons_ne_nil _ _)

theorem revokeAdmin_does {c : Call} : (discipline collate).Does c Deciding
    (changeAdmin id recovery false) fun _ => Noted id false recovery := by
  have hstays : ∀ n, (discipline collate).Stays fun v : At =>
      Deciding v ∧ n = (v.db.admins.filter (· ≠ id)).length := by
    intro n
    refine (discipline collate).stays_of (fun v db' h hinv halways hframe => ?_) fun v h =>
      ⟨⟨h.1.lock, h.1.own, rfl⟩, h.2⟩
    have hsame : db'.admins = v.db.admins := hframe .admins h.1.lock
    refine ⟨Deciding.stays _ _ (.others hinv halways hframe) h.1, ?_⟩
    rw [hsame]
    exact h.2
  refine Program.Triple.bind ((discipline collate).does_request hstays ?_) fun n =>
    Program.Triple.bind_lift fun _ hcheck =>
      (discipline collate).does_request (fun _ => Noted.stays) ?_
  · rintro (v : At) n own taken h _ ⟨rfl, rfl, rfl⟩
    refine ⟨⟨List.mem_append_right _ h.lock, h.own, rfl⟩, ?_⟩
    rw [h.current.2]
  · rintro (v : At) _ own taken ⟨h, hn⟩ _ ⟨rfl, rfl⟩
    rw [check_ok, Bool.or_eq_true, decide_eq_true_eq] at hcheck
    have haudit : v.own.audit = [] := by
      rw [h.own]
      rfl
    -- Without the override, somebody else is left.
    have hlast : ∀ admins : List Int, (∀ other, other ∈ admins ↔
        if other = id then false = true else other ∈ v.db.admins) → recovery = false →
        v.db.admins ≠ [] → admins ≠ [] := by
      intro admins htable hrecovery _ hnil
      have hpos : 0 < n := hcheck.resolve_right (by rw [hrecovery]; exact Bool.false_ne_true)
      rw [hn] at hpos
      obtain ⟨other, hother⟩ := List.exists_mem_of_length_pos hpos
      obtain ⟨hmem, hne⟩ := List.mem_filter.mp hother
      have hleft := (htable other).mpr (by rw [if_neg (of_decide_eq_true hne)]; exact hmem)
      rw [hnil] at hleft
      cases hleft
    by_cases hmem : id ∈ v.db.admins
    · have hboth : id ∈ v.seen.admins ∧ id ∈ v.current.admins := by
        rw [h.current.1, h.current.2]
        exact ⟨hmem, hmem⟩
      rw [if_pos hboth]
      have htable : ∀ other, other ∈ (v.own.dropAdmin id |>.apply v.db).admins ↔
          if other = id then false = true else other ∈ v.db.admins := by
        intro other
        have hadmins : (v.own.dropAdmin id |>.apply v.db).admins =
            (v.own.apply v.db).admins.filter (· ∉ [id]) := Delta.apply_drop _
        have hsame : (v.own.apply v.db).admins = v.db.admins := h.current.1
        rw [hadmins, hsame, List.mem_filter]
        by_cases heq : other = id
        · simp [heq]
        · simp [heq]
      exact .of_table h haudit htable (hlast _ htable)
    · have hnot : ¬(id ∈ v.seen.admins ∧ id ∈ v.current.admins) := by
        rw [h.current.1, h.current.2]
        exact fun hboth => hmem hboth.1
      have htable : ∀ other, other ∈ (v.own.apply v.db).admins ↔
          if other = id then false = true else other ∈ v.db.admins := by
        intro other
        have hadmins : (v.own.apply v.db).admins = v.db.admins := h.current.1
        rw [hadmins]
        by_cases heq : other = id
        · rw [if_pos heq, heq]
          exact ⟨fun hin => absurd hin hmem, fun hfalse => absurd hfalse Bool.false_ne_true⟩
        · rw [if_neg heq]
      rw [if_neg hnot]
      exact .of_table h haudit htable (hlast _ htable)

theorem adminChange_does :
    (discipline collate).Does ⟨now, .adminChange id grant recovery operator reason⟩
      (Call.Begins ⟨now, .adminChange id grant recovery operator reason⟩)
      (body now (.adminChange id grant recovery operator reason))
      (Call.Done ⟨now, .adminChange id grant recovery operator reason⟩) := by
  refine Program.Triple.bind_lift fun _ _ => Program.Triple.bind ((discipline collate).does_request
    (fun _ => Deciding.stays) ?_) fun _ => Program.Triple.bind (R := fun _ => Noted id grant recovery)
      ?_ fun _ => Program.Triple.bind ((discipline collate).does_request (fun _ => Call.Done.stays
        ⟨now, .adminChange id grant recovery operator reason⟩ none) ?_) fun _ =>
          Program.Triple.pure fun _ h => h
  · rintro (v : At) _ own taken hbegins _ ⟨rfl, rfl⟩
    exact ⟨List.mem_append_left _ (List.mem_singleton_self _), hbegins.own, rfl⟩
  · cases grant with
    | true => exact grantAdmin_does
    | false => exact revokeAdmin_does
  · rintro (v : At) _ own taken ⟨h, haudit⟩ _ ⟨rfl, rfl⟩
    refine ⟨⟨h.lock, h.table, h.last⟩, ?_⟩
    change v.own.audit ++ _ = _
    rw [haudit]
    rfl

/-- **What every call does**, whatever others commit meanwhile. -/
theorem call_does (c : Call) : (discipline collate).Does c c.Begins (body c.now c.op) c.Done := by
  obtain ⟨now, op⟩ := c
  cases op with
  | newSession githubId login previous token csrf => exact newSession_does
  | logout raw => exact logout_does
  | beginLogin state browser verifier => exact beginLogin_does
  | consumeLogin state browser => exact consumeLogin_does
  | adminChange id grant recovery operator reason => exact adminChange_does
  | cleanupLogins =>
    exact Program.Triple.bind ((discipline collate).does_request (R := fun _ _ => True)
      (fun _ _ _ _ _ => trivial) fun _ _ _ _ _ _ _ => trivial) fun _ => Program.Triple.pure
        fun _ _ => trivial
  | cleanupSessions =>
    exact Program.Triple.bind ((discipline collate).does_request (R := fun _ _ => True)
      (fun _ _ _ _ _ => trivial) fun _ _ _ _ _ _ _ => trivial) fun _ => Program.Triple.pure
        fun _ _ => trivial

/-! ### Commits -/

/-- What holds when a call commits. -/
def Call.Post (c : Call) (a : Option String) (v : At) : Prop :=
  c.Done a v ∧ ∀ t, c.op.adds ≠ some t → v.own.Quiet t

theorem call_post (c : Call) : (discipline collate).Does c c.Begins (body c.now c.op) c.Post := by
  have hquiet : (discipline collate).Does c (fun v => ∀ t, c.op.adds ≠ some t → v.own.Quiet t)
      (body c.now c.op) fun _ v => ∀ t, c.op.adds ≠ some t → v.own.Quiet t := by
    refine Program.Triple.of_calls (calls_body c) ((discipline collate).stays_of
      (fun _ _ h _ _ _ => h) fun _ h => h) ?_
    rintro β r v a v' hadds hP ⟨_, own, taken, hexec, rfl⟩
    refine ⟨trivial, fun t ht => quiet_exec (hP t ht) ?_ hexec⟩
    rcases hadds with hnone | hsome
    · rw [hnone]
      exact fun h => nomatch h
    · rw [hsome]
      exact ht
  refine ((call_does c).and hquiet).mono (fun v h => ⟨h, fun t _ => ?_⟩) fun _ _ h => h
  rw [h.own]
  cases t with
  | sessions => rfl
  | logins => rfl
  | admins => exact ⟨rfl, rfl⟩

section Commits
variable {c : Call} {a : Option String} {v : At}

/-- A session that is added is one of a new token, with the locks of both. -/
theorem Call.Post.added (h : c.Post a v) : ∀ row ∈ v.own.sessions.added,
    ¬v.db.Knows row.tokenHash ∧ Lock.user row.githubId ∈ v.keys ∧
      Lock.token row.tokenHash ∈ v.keys := by
  obtain ⟨now, op⟩ := c
  obtain ⟨hdone, hquiet⟩ := h
  by_cases hop : op.adds = some .sessions
  · obtain ⟨githubId, login, previous, token, csrf, rfl⟩ := Op.of_adds hop
    intro row hrow
    rw [hdone.2.added, List.mem_singleton] at hrow
    rw [hrow]
    exact ⟨hdone.2.fresh, hdone.2.locks⟩
  · intro row hrow
    rw [show v.own.sessions.added = [] from hquiet .sessions hop] at hrow
    cases hrow

theorem Call.Post.always (h : c.Post a v) : v.db.Always v.current := by
  refine ⟨fun row hrow => List.mem_append_left _ hrow, fun k hk => ?_⟩
  refine Delta.filter_apply_sublist fun row hrow => decide_eq_false fun hhash => ?_
  rw [← hhash] at hk
  exact (h.added row hrow).1 hk

theorem Call.Post.frame (h : c.Post a v) (hown : Covered v.own v.keys) {key : Lock}
    (hkey : key ∉ v.keys) : frame key v.db v.current := by
  cases key with
  | user githubId =>
    refine Delta.filter_apply_sublist fun row hrow => decide_eq_false fun heq => hkey ?_
    rw [← heq]
    exact (h.added row hrow).2.1
  | login stateHash =>
    refine Delta.filter_apply fun row hrow htouches => hkey ?_
    rw [← of_decide_eq_true hrow]
    exact hown _ htouches
  | admins =>
    obtain ⟨now, op⟩ := c
    have hop : op.adds ≠ some .admins := by
      intro hop
      obtain ⟨id, grant, recovery, operator, reason, rfl⟩ := Op.of_adds hop
      exact hkey h.1.1.lock
    change v.own.admins.apply _ v.db.admins = v.db.admins
    rw [(h.2 .admins hop).1, Delta.apply_blank]
  | token tokenHash =>
    rintro ⟨row, hrow, rfl⟩
    rcases List.mem_append.mp hrow with hold | hnew
    · exact ⟨row, hold, rfl⟩
    · exact absurd (h.added row hnew).2.2 hkey
  | session tokenHash => trivial
  | admin githubId => trivial

theorem Call.Post.bounded (h : c.Post a v) (hinv : v.db.Inv) (githubId : Int) :
    (v.current.sessionsOf githubId).length ≤ 5 := by
  have hother : (∀ row ∈ v.own.sessions.added, row.githubId ≠ githubId) →
      (v.current.sessionsOf githubId).length ≤ 5 := by
    intro hne
    have hless : (v.current.sessionsOf githubId).Sublist (v.db.sessionsOf githubId) :=
      Delta.filter_apply_sublist fun row hrow => decide_eq_false (hne row hrow)
    exact hless.length_le.trans (hinv.bounded githubId)
  obtain ⟨now, op⟩ := c
  by_cases hop : op.adds = some .sessions
  · obtain ⟨owner, login, previous, token, csrf, rfl⟩ := Op.of_adds hop
    by_cases heq : owner = githubId
    · rw [← heq]
      exact h.1.2.bounded
    · refine hother fun row hrow => ?_
      rw [h.1.2.added, List.mem_singleton] at hrow
      rw [hrow]
      exact heq
  · refine hother fun row hrow => ?_
    rw [show v.own.sessions.added = [] from h.2 .sessions hop] at hrow
    cases hrow

omit [Sha256] in
/-- The audit trail after one more change. -/
theorem granted_append (audit : List AuditEvent) (other : Int) :
    granted (audit ++ [adminEvent id grant operator reason]) other =
      if other = id then grant else granted audit other := by
  have hactions : ("admin.revoke" : String) ≠ "admin.grant" := by decide
  have htarget : toString id = toString other ↔ other = id := by
    rw [Int.toString_eq_repr, Int.toString_eq_repr, Int.repr_inj, eq_comm]
  rw [granted, List.foldl_append, ← granted]
  change (if toString id = toString other then _ else _) = _
  by_cases heq : other = id
  · rw [if_pos (htarget.mpr heq), if_pos heq]
    cases grant with
    | true => rfl
    | false =>
      change (if "admin.revoke" = "admin.grant" then _ else _) = _
      rw [if_neg hactions]
      rfl
  · rw [if_neg fun hsame => heq (htarget.mp hsame), if_neg heq]

/-- A call that is no change of the administrators. -/
theorem Call.Post.unchanged (h : c.Post a v) (hop : c.op.adds ≠ some .admins) :
    v.current.admins = v.db.admins ∧ v.current.audit = v.db.audit := by
  obtain ⟨hadmins, haudit⟩ := h.2 .admins hop
  constructor
  · rw [At.current, Writes.apply, hadmins, Delta.apply_blank]
  · rw [At.current, Writes.apply, haudit, List.append_nil]

theorem Call.Post.audited (h : c.Post a v) (hinv : v.db.Inv) (other : Int) :
    other ∈ v.current.admins ↔ granted v.current.audit other = true := by
  obtain ⟨now, op⟩ := c
  by_cases hop : op.adds = some .admins
  · obtain ⟨id, grant, recovery, operator, reason, rfl⟩ := Op.of_adds hop
    have haudit : v.current.audit = v.db.audit ++ [adminEvent id grant operator reason] :=
      congrArg (v.db.audit ++ ·) h.1.2
    rw [h.1.1.table, haudit, granted_append]
    split
    · rfl
    · exact hinv.audited other
  · obtain ⟨htable, htrail⟩ := h.unchanged hop
    rw [htable, htrail]
    exact hinv.audited other

/-- **A commit** keeps what holds of the tables. -/
theorem Call.Post.inv (h : c.Post a v) (hinv : v.db.Inv) : v.current.Inv := by
  refine ⟨h.bounded hinv, fun row hrow => ?_, h.audited hinv⟩
  rcases Delta.mem_apply hrow with hold | hnew
  · exact List.mem_append_left _ (hinv.issued row hold)
  · exact List.mem_append_right _ hnew

end Commits

theorem proved : (discipline collate).Proved Call.Begins Call.Post where
  stays := Call.Begins.stays
  begins c db _ henter := by
    refine ⟨rfl, rfl, ?_⟩
    rintro h hclaim ⟨row, hrow, hhash⟩
    exact henter.2 h hclaim row hrow hhash
  body := call_post
  commits c a v hknows hpost :=
    ⟨hpost.inv hknows.inv, hpost.always, fun _ hkey => hpost.frame hknows.own hkey⟩

end Discipline

end Identity

end Grading

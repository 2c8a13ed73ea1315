import SrgGrading.Lifecycle.Tasks
import SrgGrading.Store.System

/-!
# Locked repositories

Once `lock` returned, the student can read the repository at most, whatever
runs afterwards.  Two invariants carry it, one after the other.

* `lock_triple`: while a lock task holds the lock nobody can grant access, and
  what the student may still accept is restricted call by call.
* `Kind.keeps`, `observe_reads`: of a closed repository no task grants access,
  and a synchronization never does.
* `locked_forever`: so the first invariant ends where the second begins.
-/

open Fallible Relational Program

namespace Grading

/-! ### What calls do -/

/-- A call that changes what the student may do. -/
def Request.writesAccess : {β : Type} → Request β → Bool
  | _, .addCollaborator _ _ _ => true
  | _, .updateInvitation _ _ _ => true
  | _, _ => false

/-- A call that may let the student write. -/
def Request.grants : {β : Type} → Request β → Bool
  | _, .addCollaborator _ _ permission => permission ≠ .pull
  | _, .updateInvitation _ _ permission => permission ≠ .read
  | _, _ => false

namespace World

/-- The student, and what they may do, are the same; closed stays closed. -/
structure Quiet (w w' : World) : Prop where
  hub : w'.hub = w.hub
  githubId : w'.row.githubId = w.row.githubId
  closed : w.row.closureDue = true → w'.row.closureDue = true

/-- The student can read at most. -/
def Low (role : GitHub.Role) : Prop := role = .none ∨ role = .read

/-- An invitation of the student is for reading, or still in `left`. -/
def Tamed (left : List GitHub.Invitation) (w : World) : Prop :=
  ∀ i ∈ w.hub.invitations, i.invitee = some w.row.githubId →
    i.permission = .read ∨ ∃ j ∈ left, j.id = i.id ∧ j.invitee = i.invitee

/-- No write access, now or by an invitation. -/
structure ReadOnly (w : World) : Prop where
  role : Low w.hub.role
  invitations : ∀ i ∈ w.hub.invitations, i.invitee = some w.row.githubId → i.permission = .read

/-- Closed, and without write access. -/
structure Locked (w : World) : Prop where
  closed : w.row.closureDue = true
  readOnly : w.ReadOnly

end World

open World

variable {w w' : World}

/-- **A call that does not write access** leaves it alone. -/
theorem Serves.quiet {β : Type} {r : Request β} {a : β} (hr : r.writesAccess = false)
    (h : Serves r w a w') : Quiet w w' := by
  cases r <;> simp only [Request.writesAccess, Bool.true_eq_false] at hr <;>
    simp only [Serves] at h
  case now => rw [h.2]; exact ⟨rfl, rfl, id⟩
  case load => rw [h.2]; exact ⟨rfl, rfl, id⟩
  case account => rw [h.2]; exact ⟨rfl, rfl, id⟩
  case collaborator => rw [h.2]; exact ⟨rfl, rfl, id⟩
  case invitations => rw [h.2]; exact ⟨rfl, rfl, id⟩
  case finishSeeding =>
    rcases h with ⟨_, rfl⟩ | ⟨_, _, rfl⟩ <;> exact ⟨rfl, rfl, id⟩
  case setInvitation =>
    split at h <;> rw [h] <;> exact ⟨rfl, rfl, id⟩
  all_goals rw [h]; exact ⟨rfl, rfl, id⟩

theorem World.Quiet.locked (h : Quiet w w') (hl : Locked w) : Locked w' where
  closed := h.closed hl.closed
  readOnly := by
    refine ⟨?_, ?_⟩
    · rw [h.hub]
      exact hl.readOnly.role
    · rw [h.hub, h.githubId]
      exact hl.readOnly.invitations

theorem World.Quiet.tamed (h : Quiet w w') {left : List GitHub.Invitation} (ht : Tamed left w) :
    Tamed left w' := by
  rw [Tamed, h.hub, h.githubId]
  exact ht

/-! ### Restricting access -/

/-- The student may do no more than before, and new invitations are for reading. -/
structure World.Restricts (w w' : World) : Prop where
  row : w'.row = w.row
  role : w'.hub.role = w.hub.role ∨ w'.hub.role = .read
  invitations : ∀ i ∈ w'.hub.invitations, i.permission = .read ∨ i ∈ w.hub.invitations

theorem World.Restricts.locked (h : Restricts w w') (hl : Locked w) : Locked w' where
  closed := by
    rw [h.row]
    exact hl.closed
  readOnly := by
    refine ⟨?_, fun i hi hinvitee => ?_⟩
    · rcases h.role with hsame | hread
      · rw [hsame]
        exact hl.readOnly.role
      · exact Or.inr hread
    · rw [h.row] at hinvitee
      exact (h.invitations i hi).elim id fun hold => hl.readOnly.invitations i hold hinvitee

theorem World.Restricts.tamed (h : Restricts w w') {left : List GitHub.Invitation} (ht : Tamed left w) :
    Tamed left w' := by
  intro i hi hinvitee
  rw [h.row] at hinvitee
  exact (h.invitations i hi).elim Or.inl fun hold => ht i hold hinvitee

theorem mem_update {hub : Hub} {p : GitHub.Invitation → Bool} {role : GitHub.Role}
    {i : GitHub.Invitation} (hi : i ∈ (hub.update p role).invitations) :
    (i.permission = role ∧ ∃ j ∈ hub.invitations, p j = true ∧ j.id = i.id) ∨
      (i ∈ hub.invitations ∧ p i = false) := by
  obtain ⟨j, hj, rfl⟩ := mem_updateWhere.mp hi
  by_cases hp : p j = true
  · rw [if_pos hp]
    exact Or.inl ⟨rfl, j, hj, hp, rfl⟩
  · rw [if_neg hp]
    exact Or.inr ⟨hj, by simpa using hp⟩

theorem Serves.updateInvitation {path : String} {id : Int} {a : Unit}
    (h : Serves (.updateInvitation path id .read) w a w') : Restricts w w' := by
  obtain ⟨_, rfl⟩ := h
  refine ⟨rfl, Or.inl rfl, fun i hi => ?_⟩
  rcases mem_update hi with ⟨hread, _⟩ | ⟨hold, _⟩
  · exact Or.inl hread
  · exact Or.inr hold

theorem Serves.addCollaborator {path login : String} {a : Unit}
    (h : Serves (.addCollaborator path login .pull) w a w') : Restricts w w' := by
  obtain ⟨hub', rfl, h⟩ := h
  split at h
  · rw [Hub.Adds] at h
    split at h
    · rw [h]
      exact ⟨rfl, Or.inr rfl, fun i hi => Or.inr hi⟩
    · rcases h with ⟨id, rfl⟩ | rfl
      · refine ⟨rfl, Or.inl rfl, fun i hi => ?_⟩
        rcases List.mem_append.mp hi with hold | hnew
        · exact Or.inr hold
        · rw [List.mem_singleton.mp hnew]
          exact Or.inl rfl
      · refine ⟨rfl, Or.inl rfl, fun i hi => ?_⟩
        rcases mem_update hi with ⟨hread, _⟩ | ⟨hold, _⟩
        · exact Or.inl hread
        · exact Or.inr hold
  · rw [h]
    exact ⟨rfl, Or.inl rfl, fun i hi => Or.inr hi⟩

/-- **A call that grants nothing** keeps a repository locked. -/
theorem Serves.locked {β : Type} {r : Request β} {a : β} (hr : r.grants = false)
    (h : Serves r w a w') (hl : Locked w) : Locked w' := by
  cases hwrites : r.writesAccess with
  | false => exact (Serves.quiet hwrites h).locked hl
  | true =>
    cases r <;> simp only [Request.writesAccess, Bool.false_eq_true] at hwrites
    case addCollaborator path login permission =>
      have hpull : permission = .pull := by simpa [Request.grants] using hr
      rw [hpull] at h
      exact (Serves.addCollaborator h).locked hl
    case updateInvitation path id permission =>
      have hread : permission = .read := by simpa [Request.grants] using hr
      rw [hread] at h
      exact (Serves.updateInvitation h).locked hl

/-! ### What others do meanwhile -/

/-- The student accepts an invitation. -/
structure World.Accepts (w w' : World) : Prop where
  row : w'.row = w.row
  login : w'.hub.login = w.hub.login
  role : ∃ i ∈ w.hub.invitations, i.invitee = some w.row.githubId ∧ w'.hub.role = i.permission
  invitations : ∀ i ∈ w'.hub.invitations, i ∈ w.hub.invitations

/-- What happens while no other task holds the lock. -/
def World.Moves (w w' : World) : Prop := Quiet w w' ∨ Accepts w w'

theorem World.Accepts.tamed (h : Accepts w w') {left : List GitHub.Invitation} (ht : Tamed left w) :
    Tamed left w' := by
  intro i hi hinvitee
  rw [h.row] at hinvitee
  exact ht i (h.invitations i hi) hinvitee

theorem World.Moves.tamed (h : Moves w w') {left : List GitHub.Invitation} (ht : Tamed left w) :
    Tamed left w' := h.elim (fun h => h.tamed ht) fun h => h.tamed ht

theorem World.Accepts.locked (h : Accepts w w') (hl : Locked w) : Locked w' where
  closed := by
    rw [h.row]
    exact hl.closed
  readOnly := by
    obtain ⟨i, hi, hinvitee, hrole⟩ := h.role
    refine ⟨?_, fun j hj hstudent => ?_⟩
    · rw [hrole]
      exact Or.inr (hl.readOnly.invitations i hi hinvitee)
    · rw [h.row] at hstudent
      exact hl.readOnly.invitations j (h.invitations j hj) hstudent

theorem World.Moves.locked (h : Moves w w') (hl : Locked w) : Locked w' :=
  h.elim (fun h => h.locked hl) fun h => h.locked hl

/-! ### The lock task -/

/-- A call that leaves access alone. -/
def Request.Reads {β : Type} (r : Request β) : Prop := r.writesAccess = false

namespace Lifecycle

theorem getRepository_reads (path : String) : Calls Request.Reads (GitHub.getRepository path) :=
  (Calls.request rfl).bind fun _ => .lift _

theorem verifyRepository_reads (fullName : String) (id : Int) :
    Calls Request.Reads (GitHub.verifyRepository fullName id) :=
  (Calls.lift _).bind fun path => (getRepository_reads path).bind fun _ =>
    (Calls.lift _).bind fun _ => .pure _

theorem verifyNoTeams_reads (repository : String) :
    Calls Request.Reads (GitHub.verifyNoTeams repository) :=
  (Calls.lift _).bind fun _ => (Calls.request rfl).bind fun _ => .lift _

theorem account_reads (id : Int) : Calls Request.Reads (GitHub.account id) :=
  (Calls.lift _).bind fun _ => .request rfl

theorem permission_reads (repository : String) (githubId : Int) :
    Calls Request.Reads (GitHub.permission repository githubId) :=
  (account_reads githubId).bind fun _ => (Calls.lift _).bind fun _ =>
    (Calls.request rfl).bind fun _ => .pure _

section Lock

/-- Nothing is asked of a lock task's own calls. -/
def Free : World → World → Prop := fun _ _ => True

variable {P : World → Prop}

/-- Calls that leave access alone keep what others keep. -/
theorem triple_reads {α : Type} {p : Client α} (h : Calls Request.Reads p) (hP : Stable Moves P) :
    Triple Serves Moves Free P p fun _ => P :=
  .of_calls h hP fun _ w _ w' hr hw hserve =>
    ⟨trivial, hP w w' (Or.inl (Serves.quiet hr hserve)) hw⟩

/-- The account of the student tells the login their role is kept under. -/
theorem account_triple (hP : Stable Moves P) {student : Int}
    (hstudent : ∀ w, P w → w.row.githubId = student) :
    Triple Serves Moves Free P (GitHub.account student) fun a w => P w ∧ a.login = w.hub.login := by
  refine Triple.bind_lift fun _ _ => Triple.request (fun a w w' hmove => ?_) ?_
  · rintro ⟨hw, hlogin⟩
    refine ⟨hP w w' hmove hw, hlogin.trans ?_⟩
    rcases hmove with hquiet | haccepts
    · rw [hquiet.hub]
    · exact haccepts.login.symm
  · rintro w a w' hw ⟨hlogin, rfl⟩
    exact ⟨trivial, hw, hlogin (hstudent w' hw).symm⟩

/-- A permission that is read as low is low, and stays so where every invitation
is for reading. -/
theorem permission_triple (hP : Stable Moves P) {student : Int}
    (hstudent : ∀ w, P w → w.row.githubId = student) (htamed : ∀ w, P w → Tamed [] w)
    (repository : String) :
    Triple Serves Moves Free P (GitHub.permission repository student) fun permission w =>
      P w ∧ ((permission = "read" ∨ permission = "none") → Low w.hub.role) := by
  have hlow : ∀ w w', Moves w w' → P w → Low w.hub.role → Low w'.hub.role := by
    rintro w w' (hquiet | haccepts) hw hrole
    · rw [hquiet.hub]
      exact hrole
    · obtain ⟨i, hi, hinvitee, hrole'⟩ := haccepts.role
      rw [hrole']
      refine Or.inr ((htamed w hw i hi hinvitee).resolve_right ?_)
      rintro ⟨j, hj, _⟩
      cases hj
  refine Triple.bind (account_triple hP hstudent) fun account => ?_
  refine Triple.bind_lift fun path _ => ?_
  refine Triple.bind (R := fun a w => P w ∧
    (((a.bind fun v => v.roleName.or v.permission).getD "none" = "read" ∨
      (a.bind fun v => v.roleName.or v.permission).getD "none" = "none") → Low w.hub.role))
    (Triple.request (fun a w w' hmove => ?_) ?_) fun a => .pure fun w hw => hw
  · rintro ⟨hw, hrole⟩
    exact ⟨hP w w' hmove hw, fun h => hlow w w' hmove hw (hrole h)⟩
  · rintro w a w' ⟨hw, hlogin⟩ ⟨hreport, rfl⟩
    refine ⟨trivial, hw, fun h => ?_⟩
    rcases hreport hlogin with ⟨hnone, _⟩ | rfl
    · exact Or.inl hnone
    · simp only [Option.bind_some, Option.some_or, Option.getD_some] at h
      rw [Low]
      cases hname : w'.hub.role <;> rw [hname] at h <;> revert h <;> decide

/-- Closed, for a student. -/
structure Closing (student : Int) (w : World) : Prop where
  closed : w.row.closureDue = true
  student : w.row.githubId = student

theorem Closing.stable (student : Int) : Stable Moves (Closing student) := by
  rintro w w' (hquiet | haccepts) ⟨hclosed, hstudent⟩
  · exact ⟨hquiet.closed hclosed, hquiet.githubId.trans hstudent⟩
  · rw [← haccepts.row] at hclosed hstudent
    exact ⟨hclosed, hstudent⟩

theorem Closing.restricts {student : Int} (hw : Closing student w) (h : Restricts w w') :
    Closing student w' := by
  obtain ⟨hclosed, hstudent⟩ := hw
  rw [← h.row] at hclosed hstudent
  exact ⟨hclosed, hstudent⟩

theorem Tamed.stable (student : Int) (left : List GitHub.Invitation) :
    Stable Moves fun w => Closing student w ∧ Tamed left w :=
  fun w w' hmove hw => ⟨Closing.stable student w w' hmove hw.1, hmove.tamed hw.2⟩

/-- One turn of the loop over invitations. -/
theorem restrict_triple (path : String) (student : Int) (b : GitHub.Invitation)
    (rest : List GitHub.Invitation) :
    Triple Serves Moves Free (fun w => Closing student w ∧ Tamed (b :: rest) w)
      (GitHub.restrict path student b) fun _ w => Closing student w ∧ Tamed rest w := by
  rw [GitHub.restrict]
  by_cases hstudent : b.invitee = some student
  · rw [if_pos hstudent]
    refine Triple.request (fun _ => Tamed.stable student rest) ?_
    rintro w _ w' ⟨hclosing, htamed⟩ hserve
    refine ⟨trivial, hclosing.restricts (Serves.updateInvitation hserve), fun i hi hinvitee => ?_⟩
    obtain ⟨_, rfl⟩ := hserve
    rcases mem_update hi with ⟨hread, _⟩ | ⟨hold, hother⟩
    · exact Or.inl hread
    · refine (htamed i hold hinvitee).imp_right ?_
      rintro ⟨j, hj, hid, hsame⟩
      rcases List.mem_cons.mp hj with rfl | hrest
      · rw [hid, decide_eq_false_iff_not] at hother
        exact absurd rfl hother
      · exact ⟨j, hrest, hid, hsame⟩
  · rw [if_neg hstudent]
    rintro w ⟨hclosing, htamed⟩
    refine ⟨hclosing, fun i hi hinvitee => (htamed i hi hinvitee).imp_right ?_⟩
    rintro ⟨j, hj, hid, hsame⟩
    rcases List.mem_cons.mp hj with rfl | hrest
    · rw [hsame, hinvitee, hclosing.student] at hstudent
      exact absurd rfl hstudent
    · exact ⟨j, hrest, hid, hsame⟩

/-- **`GitHub::lock`** returns once the student can read at most. -/
theorem gitHubLock_triple (fullName : String) (student : Int) :
    Triple Serves Moves Free (Closing student) (GitHub.lock fullName student)
      fun _ => Locked := by
  have hclosing := Closing.stable student
  have htamed := Tamed.stable student []
  refine Triple.bind_lift fun path _ => ?_
  refine (triple_reads (account_reads student) hclosing).bind fun account => ?_
  refine (triple_reads (verifyNoTeams_reads fullName) hclosing).bind fun _ => ?_
  -- every invitation is listed, and none of them comes after
  refine Triple.bind (R := fun listed w => Closing student w ∧
    (listed.length < 100 → Tamed listed w)) (Triple.request (fun listed w w' hmove hw => ?_) ?_)
    fun listed => ?_
  · exact ⟨hclosing w w' hmove hw.1, fun hfew => hmove.tamed (hw.2 hfew)⟩
  · rintro w listed w' hw ⟨rfl, rfl⟩
    refine ⟨trivial, hw, fun hfew i hi _ => Or.inr ⟨i, ?_, rfl, rfl⟩⟩
    rw [List.length_take] at hfew
    rw [List.take_of_length_le (by omega)]
    exact hi
  refine Triple.bind_lift fun _ hfew => ?_
  rw [check_ok, decide_eq_true_eq] at hfew
  have hloop := Triple.each (I := fun rest w => Closing student w ∧ Tamed rest w)
    (restrict_triple path student) listed
  refine Triple.bind (hloop.mono (fun w hw => ⟨hw.1, hw.2 hfew⟩) fun _ _ hw => hw) fun _ => ?_
  refine (triple_reads (permission_reads fullName student) htamed).bind fun before => ?_
  refine Triple.bind (R := fun _ w => Closing student w ∧ Tamed [] w)
    (.when (fun _ => .request (fun _ => htamed) ?_) fun _ w hw => hw) fun _ => ?_
  · intro w _ w' hw hserve
    have hrestricts := Serves.addCollaborator hserve
    exact ⟨trivial, hw.1.restricts hrestricts, hrestricts.tamed hw.2⟩
  -- what is read last stays true: nothing above reading is left to accept
  refine Triple.bind (permission_triple htamed (fun w hw => hw.1.student) (fun w hw => hw.2)
    fullName) fun permission => ?_
  refine Triple.mono (fun w hw => hw) ?_ Triple.lift
  rintro _ w ⟨⟨⟨hclosing, htamed⟩, hlow⟩, hcheck⟩
  rw [check_ok, Bool.or_eq_true, decide_eq_true_eq, decide_eq_true_eq] at hcheck
  refine ⟨hclosing.closed, hlow hcheck, fun i hi hinvitee => ?_⟩
  refine (htamed i hi hinvitee).resolve_right ?_
  rintro ⟨j, hj, _⟩
  cases hj

/-- **The lock task** returns once the repository is locked. -/
theorem lock_triple :
    Triple Serves Moves Free (fun _ => True) Lifecycle.lock fun _ => Locked := by
  refine Triple.bind (R := fun repository w => w.row.githubId = repository.githubId ∧
    (repository.closureDue = true → w.row.closureDue = true))
    (Triple.request (fun repository w w' hmove hw => ?_) ?_) fun repository => ?_
  · rcases hmove with hquiet | haccepts
    · exact ⟨hquiet.githubId.trans hw.1, fun hclosed => hquiet.closed (hw.2 hclosed)⟩
    · rw [haccepts.row]
      exact hw
  · rintro w repository w' _ ⟨rfl, rfl⟩
    exact ⟨trivial, rfl, id⟩
  refine Triple.bind_lift fun _ hclosed => ?_
  rw [check_ok] at hclosed
  refine Triple.bind_lift fun id _ => ?_
  have hclosing := Closing.stable repository.githubId
  refine Triple.bind ((triple_reads (verifyRepository_reads _ id) hclosing).mono
    (fun w hw => ⟨hw.2 hclosed, hw.1⟩) fun _ _ hw => hw) fun _ => ?_
  refine Triple.bind (gitHubLock_triple _ repository.githubId) fun _ => ?_
  refine Triple.request (fun _ w w' hmove hw => hmove.locked hw) fun w _ w' hw hserve => ?_
  exact ⟨trivial, (Serves.quiet rfl hserve).locked hw⟩

end Lock

/-! ### Tasks of a locked repository -/

/-- Locked stays locked. -/
def Keeps (w w' : World) : Prop := Locked w → Locked w'

/-- A call that lets nobody write. -/
def Request.Harmless {β : Type} (r : Request β) : Prop := r.grants = false

section Keeps

theorem keeps_locked : Stable Keeps Locked := fun _ _ hkeeps hw => hkeeps hw

theorem restrict_harmless (path : String) (student : Int) (i : GitHub.Invitation) :
    Calls Request.Harmless (GitHub.restrict path student i) := by
  rw [GitHub.restrict]
  split
  · exact .request rfl
  · exact .pure _

theorem reads_harmless {β : Type} {r : Request β} (h : r.Reads) : Request.Harmless r := by
  cases r <;> first | rfl | cases h

theorem gitHubLock_harmless (fullName : String) (student : Int) :
    Calls Request.Harmless (GitHub.lock fullName student) := by
  refine (Calls.lift _).bind fun path => ?_
  refine ((account_reads student).mono reads_harmless).bind fun account => ?_
  refine ((verifyNoTeams_reads fullName).mono reads_harmless).bind fun _ => ?_
  refine (Calls.request rfl).bind fun invitations => ?_
  refine (Calls.lift _).bind fun _ => ?_
  refine (Calls.each (restrict_harmless path student) invitations).bind fun _ => ?_
  have hpermission := (permission_reads fullName student).mono reads_harmless
  refine hpermission.bind fun before => ?_
  refine (Calls.when (.request rfl)).bind fun _ => ?_
  exact hpermission.bind fun _ => .lift _

theorem lock_harmless : Calls Request.Harmless Lifecycle.lock := by
  refine (Calls.request rfl).bind fun repository => ?_
  refine (Calls.lift _).bind fun _ => (Calls.lift _).bind fun id => ?_
  refine ((verifyRepository_reads _ id).mono reads_harmless).bind fun _ => ?_
  exact (gitHubLock_harmless _ _).bind fun _ => .request rfl

/-- **A synchronization** leaves access alone. -/
theorem observe_reads : Calls Request.Reads observe := by
  refine (Calls.request rfl).bind fun repository => ?_
  split
  · exact .request rfl
  · refine (Calls.lift _).bind fun revision => ?_
    refine (verifyRepository_reads _ _).bind fun _ => ?_
    refine ((Calls.lift _).bind fun path => Calls.request rfl).bind fun _ => ?_
    refine (verifyNoTeams_reads _).bind fun _ => (permission_reads _ _).bind fun permission => ?_
    refine Calls.bind ?_ fun sha => (Calls.request rfl).bind fun _ => .lift _
    refine (Calls.lift _).bind fun _ => (Calls.lift _).bind fun path => ?_
    refine (Calls.request rfl).bind fun found => (Calls.lift _).bind fun sha => ?_
    exact (Calls.lift _).bind fun _ => .pure _

/-- A closed repository is read as closed. -/
theorem load_triple : Triple Serves Keeps Keeps Locked (request .load : Client _)
    fun repository w => Locked w ∧ repository.closureDue = true := by
  refine .request (fun repository w w' hkeeps hw => ⟨hkeeps hw.1, hw.2⟩) ?_
  rintro w repository w' hw ⟨rfl, rfl⟩
  exact ⟨id, hw, hw.closed⟩

/-- Where `provision` checks the deadline, a closed repository stops it. -/
theorem expired_triple {α : Type} {repository : Courses.Repository} {text : String}
    {f : Unit → Client α} {Q : α → World → Prop} :
    Triple Serves Keeps Keeps (fun w => Locked w ∧ repository.closureDue = true)
      (request .now >>= fun now =>
        lift (check (!repository.closureDue && now ≤ repository.deadline) text) >>= f) Q := by
  refine Triple.bind (R := fun _ w => Locked w ∧ repository.closureDue = true)
    (.request (fun _ w w' hkeeps hw => ⟨hkeeps hw.1, hw.2⟩) ?_) fun now => ?_
  · rintro w now w' hw ⟨_, rfl⟩
    exact ⟨id, hw⟩
  cases hclosed : repository.closureDue with
  | true => exact Triple.bind_lift fun _ h => by simp at h
  | false => exact (Triple.of_false _ _).mono (fun w hw => by simp at hw) fun _ _ h => h

variable [Sha256]

/-- **A provisioning task** grants nothing in a locked repository. -/
theorem provision_triple (task token : Uuid) :
    Triple Serves Keeps Keeps Locked (provision task token) fun _ _ => True := by
  refine Triple.bind load_triple fun repository => ?_
  split
  · exact .pure fun w _ => trivial
  · refine Triple.bind_lift fun revision _ => ?_
    refine Triple.bind (R := fun _ => Locked)
      (.when (fun _ => expired_triple) fun _ w hw => hw.1) fun _ => ?_
    exact Triple.bind load_triple fun repository => expired_triple

/-- **No task** grants anything in a locked repository. -/
theorem Kind.keeps (kind : Kind) :
    Triple Serves Keeps Keeps Locked kind.program fun _ _ => True := by
  cases kind with
  | provision task token => exact provision_triple task token
  | lock =>
    refine (Triple.of_calls lock_harmless keeps_locked fun r w a w' hr hw hserve => ?_).mono
      (fun w hw => hw) fun _ _ _ => trivial
    have hlocked := Serves.locked hr hserve
    exact ⟨hlocked, hlocked hw⟩

end Keeps

/-! ### Runs -/

section Runs
variable [Sha256] {σ τ υ : Lifecycle} {e : Event}

/-- A lock task at work locks the repository before it returns. -/
structure Locking (σ : Lifecycle) : Prop where
  task : ∀ p, σ.task = some (.lock, p) →
    ∃ P, Stable Moves P ∧ P σ.world ∧ Triple Serves Moves Free P p fun _ => Locked
  observer : ∀ p, σ.observer = some p → Calls Request.Reads p

/-- A locked repository in which whatever is at work keeps it locked. -/
structure Secured (σ : Lifecycle) : Prop where
  locked : Locked σ.world
  task : ∀ kind p, σ.task = some (kind, p) →
    ∃ P, Stable Keeps P ∧ P σ.world ∧ Triple Serves Keeps Keeps P p fun _ _ => True
  observer : ∀ p, σ.observer = some p → Calls Request.Reads p

omit [Sha256] in
/-- What a synchronization does. -/
theorem reads_moves {p p' : Client Unit} (h : Calls Request.Reads p)
    (hst : Program.Step Serves p w p' w') : Calls Request.Reads p' ∧ (Moves w w' ∨ w' = w) := by
  obtain ⟨hrest, ⟨β, r, a, hr, hserve⟩ | hsame⟩ := Calls.step h hst
  · exact ⟨hrest, Or.inl (Or.inl (Serves.quiet hr hserve))⟩
  · exact ⟨hrest, Or.inr hsame⟩

omit [Sha256] in
theorem keeps_of_moves (h : Moves w w' ∨ w' = w) : Keeps w w' := by
  intro hw
  rcases h with hmoves | hsame
  · exact hmoves.locked hw
  · rw [hsame]
    exact hw

/-- What a step does, seen from the task that holds the lock. -/
inductive Seen (σ τ : Lifecycle) : Prop
  | begin (kind : Kind) (hworld : τ.world = σ.world) (htask : τ.task = some (kind, kind.program))
  | call (kind : Kind) (p p' : Client Unit) (h : σ.task = some (kind, p))
      (hstep : Program.Step Serves p σ.world p' τ.world) (htask : τ.task = some (kind, p'))
  | leave (hworld : τ.world = σ.world) (htask : τ.task = none)
  | other (hmoves : Moves σ.world τ.world ∨ τ.world = σ.world) (htask : τ.task = σ.task)

/-- **Every step** is one of these, and a synchronization stays harmless. -/
theorem Step.seen (hobs : ∀ p, σ.observer = some p → Calls Request.Reads p) (h : Step σ e τ) :
    Seen σ τ ∧ ∀ p, τ.observer = some p → Calls Request.Reads p := by
  cases h with
  | begin kind h => exact ⟨.begin kind rfl rfl, hobs⟩
  | call kind p p' w h hstep => exact ⟨.call kind p p' h hstep rfl, hobs⟩
  | finish kind h => exact ⟨.leave rfl rfl, hobs⟩
  | stop kind p h => exact ⟨.leave rfl rfl, hobs⟩
  | beginObserve h =>
    refine ⟨.other (Or.inr rfl) rfl, fun p hp => ?_⟩
    rw [← Option.some.inj hp]
    exact observe_reads
  | callObserve p p' w h hstep =>
    obtain ⟨hrest, hmoves⟩ := reads_moves (hobs p h) hstep
    refine ⟨.other hmoves rfl, fun q hq => ?_⟩
    rw [← Option.some.inj hq]
    exact hrest
  | endObserve =>
    refine ⟨.other (Or.inr rfl) rfl, fun p hp => ?_⟩
    cases hp
  | close h => exact ⟨.other (Or.inl (Or.inl ⟨rfl, rfl, fun _ => rfl⟩)) rfl, hobs⟩
  | extend deadline hopen hlater hnow =>
    exact ⟨.other (Or.inl (Or.inl ⟨rfl, rfl, id⟩)) rfl, hobs⟩
  | accept i hi hinvitee =>
    refine ⟨.other (Or.inl (Or.inr ⟨rfl, rfl, ⟨i, hi, hinvitee, rfl⟩, fun j hj => ?_⟩)) rfl, hobs⟩
    exact List.mem_of_mem_filter hj
  | tick now h => exact ⟨.other (Or.inl (Or.inl ⟨rfl, rfl, id⟩)) rfl, hobs⟩

/-- **One step** before the lock task returned. -/
theorem Step.locking (h : Step σ e τ) (hinv : Locking σ) : Locking τ := by
  obtain ⟨hseen, hobs⟩ := h.seen hinv.observer
  refine ⟨fun p hp => ?_, hobs⟩
  cases hseen with
  | begin kind hworld htask =>
    rw [htask, Option.some.injEq, Prod.mk.injEq] at hp
    obtain ⟨rfl, rfl⟩ := hp
    exact ⟨fun _ => True, fun _ _ _ h => h, trivial, lock_triple⟩
  | call kind q q' hσ hstep htask =>
    rw [htask, Option.some.injEq, Prod.mk.injEq] at hp
    obtain ⟨rfl, rfl⟩ := hp
    obtain ⟨P, _, hP, htriple⟩ := hinv.task q hσ
    exact (htriple.step hP hstep).2
  | leave hworld htask =>
    rw [htask] at hp
    cases hp
  | other hmoves htask =>
    rw [htask] at hp
    obtain ⟨P, hstable, hP, htriple⟩ := hinv.task p hp
    refine ⟨P, hstable, ?_, htriple⟩
    rcases hmoves with hmoves | hsame
    · exact hstable _ _ hmoves hP
    · rw [hsame]
      exact hP

/-- **One step** after. -/
theorem Step.secured (h : Step σ e τ) (hinv : Secured σ) : Secured τ := by
  obtain ⟨hseen, hobs⟩ := h.seen hinv.observer
  cases hseen with
  | begin kind hworld htask =>
    have hlocked : Locked τ.world := by
      rw [hworld]
      exact hinv.locked
    refine ⟨hlocked, fun k p hp => ?_, hobs⟩
    rw [htask, Option.some.injEq, Prod.mk.injEq] at hp
    obtain ⟨rfl, rfl⟩ := hp
    exact ⟨Locked, keeps_locked, hlocked, kind.keeps⟩
  | call kind q q' hσ hstep htask =>
    obtain ⟨P, _, hP, htriple⟩ := hinv.task kind q hσ
    obtain ⟨hguar, hrest⟩ := htriple.step hP hstep
    have hlocked : Locked τ.world := by
      rcases hguar with hkeeps | hsame
      · exact hkeeps hinv.locked
      · rw [hsame]
        exact hinv.locked
    refine ⟨hlocked, fun k p hp => ?_, hobs⟩
    rw [htask, Option.some.injEq, Prod.mk.injEq] at hp
    obtain ⟨rfl, rfl⟩ := hp
    exact hrest
  | leave hworld htask =>
    refine ⟨?_, fun k p hp => ?_, hobs⟩
    · rw [hworld]
      exact hinv.locked
    · rw [htask] at hp
      cases hp
  | other hmoves htask =>
    have hkeeps := keeps_of_moves hmoves
    refine ⟨hkeeps hinv.locked, fun k p hp => ?_, hobs⟩
    rw [htask] at hp
    obtain ⟨P, hstable, hP, htriple⟩ := hinv.task k p hp
    exact ⟨P, hstable, hstable _ _ hkeeps hP, htriple⟩

/-- **Locked repositories stay without write access**: from the state in which a
lock task returned, in every state of every run. -/
theorem locked_forever {before after : List (Lifecycle × Event)} (htask : σ.task = none)
    (hobserver : σ.observer = none) (hbefore : Transition.Run Step σ before τ)
    (hlock : τ.task = some (.lock, .done ())) (hafter : Transition.Run Step τ after υ) :
    ReadOnly υ.world := by
  have hstart : Locking σ := by
    refine ⟨fun p hp => ?_, fun p hp => ?_⟩
    · rw [htask] at hp
      cases hp
    · rw [hobserver] at hp
      cases hp
  have hlocking := hbefore.invariant (I := Locking) (fun _ _ _ hinv hst => hst.locking hinv) hstart
  obtain ⟨P, _, hP, htriple⟩ := hlocking.task _ hlock
  have hsecured : Secured τ := by
    refine ⟨htriple _ hP, fun kind p hp => ?_, hlocking.observer⟩
    rw [hlock, Option.some.injEq, Prod.mk.injEq] at hp
    rw [← hp.2]
    exact ⟨fun _ => True, fun _ _ _ h => h, trivial, fun _ _ => trivial⟩
  exact (hafter.invariant (I := Secured) (fun _ _ _ hinv hst => hst.secured hinv)
    hsecured).locked.readOnly

end Runs

end Lifecycle

/-! ### An invitation accepted while the repository is locked -/

namespace Sample
attribute [local instance] Sha256.standard

open Lifecycle

/-- The student was invited to push and the deadline is over. -/
def invited : Lifecycle where
  world :=
    { row :=
        { organization := "org", name := "loops-student", provisioningNonce := 5
          githubRepoId := some 11, state := .invitationPending, invitationUrl := none
          closureDue := false, lockedAt := none, githubId := 7, definition := revision
          deadline := 10 }
      hub := { login := "student", role := .none, invitations := [⟨21, some 7, .write⟩] }
      clock := 11 }
  task := none
  observer := none

/-- One of the answers a call may get. -/
def answer : {β : Type} → Request β → World → Option (β × World)
  | _, .now, w => some (w.clock, w)
  | _, .load, w => some (w.row, w)
  | _, .repository _, w => some (some ⟨11, "loops-student", ⟨1, "org"⟩, true, none, "main"⟩, w)
  | _, .teams _, w => some ([], w)
  | _, .account id, w => some (⟨id, w.hub.login⟩, w)
  | _, .collaborator _ _, w => some (some ⟨some w.hub.role.permission, some w.hub.role.name⟩, w)
  | _, .invitations _, w => some (w.hub.invitations.take 100, w)
  | _, .updateInvitation _ id permission, w =>
    if w.hub.invitations.any fun i => i.id = id then
      some ((), { w with hub := w.hub.update (fun i => i.id = id) permission })
    else none
  | _, .addCollaborator _ login permission, w =>
    if login = w.hub.login ∧ w.hub.role ≠ .none then
      some ((), { w with hub := { w.hub with role := permission.role } })
    else none
  | _, .setLocked, w =>
    some ((), { w with row := { w.row with lockedAt := w.row.lockedAt.or (some w.clock) } })
  | _, _, _ => none

theorem answer_serves {β : Type} {r : Request β} {w w' : World} {a : β}
    (h : answer r w = some (a, w')) : Serves r w a w' := by
  cases r <;> simp only [answer, Option.some.injEq, Prod.mk.injEq, reduceCtorEq] at h
  case now => exact ⟨h.1.symm, h.2.symm⟩
  case load => exact ⟨h.1.symm, h.2.symm⟩
  case repository => exact h.2.symm
  case teams => exact h.2.symm
  case account =>
    obtain ⟨rfl, rfl⟩ := h
    exact ⟨fun _ => rfl, rfl⟩
  case collaborator =>
    obtain ⟨rfl, rfl⟩ := h
    exact ⟨fun _ => Or.inr rfl, rfl⟩
  case invitations => exact ⟨h.1.symm, h.2.symm⟩
  case updateInvitation =>
    split at h
    · rename_i hany
      obtain ⟨i, hi, hid⟩ := List.any_eq_true.mp hany
      simp only [Option.some.injEq, Prod.mk.injEq] at h
      exact ⟨⟨i, hi, of_decide_eq_true hid⟩, h.2.symm⟩
    · cases h
  case addCollaborator =>
    split at h
    · rename_i hrole
      simp only [Option.some.injEq, Prod.mk.injEq] at h
      refine ⟨_, h.2.symm, ?_⟩
      rw [if_pos hrole.1, Hub.Adds, if_pos hrole.2]
    · cases h
  case setLocked => exact h.2.symm

/-- The steps of a run in which every call is answered. -/
def next (σ : Lifecycle) : Event → Option Lifecycle
  | .begin kind =>
    if σ.task.isNone then some { σ with task := some (kind, kind.program) } else none
  | .call =>
    match σ.task with
    | some (kind, .call r k) => (answer r σ.world).map fun e =>
        { σ with world := e.2, task := some (kind, k e.1) }
    | _ => none
  | .finish =>
    match σ.task with
    | some (_, .done ()) => some { σ with task := none }
    | _ => none
  | .close =>
    if σ.world.row.deadline < σ.world.clock then
      some { σ with world := { σ.world with row := { σ.world.row with closureDue := true } } }
    else none
  | .accept invitation =>
    (σ.world.hub.invitations.find? fun i =>
      i.id = invitation && i.invitee = some σ.world.row.githubId).map fun i =>
        { σ with world := { σ.world with hub := { σ.world.hub with
          role := i.permission
          invitations := σ.world.hub.invitations.filter fun j => j.id ≠ i.id } } }
  | _ => none

theorem next_step (σ : Lifecycle) (e : Event) (τ : Lifecycle) (h : next σ e = some τ) :
    Lifecycle.Step σ e τ := by
  cases e with
  | begin kind =>
    rw [next] at h
    split at h
    · rename_i hfree
      rw [← Option.some.inj h]
      exact .begin σ kind (Option.isNone_iff_eq_none.mp hfree)
    · cases h
  | call =>
    rw [next] at h
    split at h
    · rename_i kind β r k htask
      obtain ⟨e, he, rfl⟩ := Option.map_eq_some_iff.mp h
      exact .call σ kind _ _ _ htask (.answered (answer_serves he))
    · cases h
  | finish =>
    rw [next] at h
    split at h
    · rename_i kind htask
      rw [← Option.some.inj h]
      exact .finish σ kind htask
    · cases h
  | close =>
    rw [next] at h
    split at h
    · rename_i hdue
      rw [← Option.some.inj h]
      exact .close σ hdue
    · cases h
  | accept invitation =>
    obtain ⟨i, hi, rfl⟩ := Option.map_eq_some_iff.mp h
    have hfound := List.find?_some hi
    rw [Bool.and_eq_true, decide_eq_true_eq, decide_eq_true_eq] at hfound
    rw [← hfound.1]
    exact .accept σ i (List.mem_of_find?_eq_some hi) hfound.2
  | _ => cases h

/-- The student accepts after the invitation was restricted. -/
def locking : List Event :=
  [.close, .begin .lock, .call, .call, .call, .call, .call, .call, .accept 21, .call, .call, .call,
    .call, .call, .call]

/-- The lock task returned. -/
def locked : Lifecycle where
  world :=
    { row := { invited.world.row with closureDue := true, lockedAt := some 11 }
      hub := { login := "student", role := .read, invitations := [] }
      clock := 11 }
  task := some (.lock, .done ())
  observer := none

theorem replay_locking : Transition.replay next invited locking = some locked := rfl

/-- A provisioning task finds the repository closed. -/
def retrying : List Event := [.finish, .begin (.provision 1 2), .call, .call, .call]

/-- The provisioning task failed before it invited anybody. -/
def refused : Lifecycle :=
  { locked with task := some (.provision 1 2,
      .fail (.message "assignment closed before invitation")) }

theorem replay_retrying : Transition.replay next locked retrying = some refused := rfl

theorem locked_forever_refused : World.ReadOnly refused.world :=
  locked_forever rfl rfl (Transition.run_of_replay next_step replay_locking) rfl
    (Transition.run_of_replay next_step replay_retrying)

end Sample

end Grading

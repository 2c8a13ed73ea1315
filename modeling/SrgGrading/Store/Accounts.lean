import SrgGrading.Store.Identity

/-!
# Accounts along every run

Any number of requests sign in, sign out, begin and complete logins, change the
administrators and clean up, interleaved statement by statement.

* `sessions_bounded`: no account ever has more than five sessions.
* `sessions_authentic`: a token that is accepted was given out for that account,
  less than twelve hours ago.
* `sessions_revoked`: a token that was signed out is never accepted again.
* `logins_once`: a login is completed at most once, by the browser that began it.
* `admins_audited`: the administrators are those the audit trail says.
-/

open Fallible

namespace Grading

namespace Identity

abbrev Sys := Isolation.State Statement Error (Option String) Call Db Writes Lock

abbrev Event := Isolation.Event (Option String) Call

section Runs
variable [Sha256]

abbrev Sys.Step (collate : String → String → Bool) : Sys → Event → Sys → Prop :=
  Isolation.Step (service collate)

omit [Sha256] in
/-- Nothing is in progress, and the tables are as they may be. -/
structure Sys.Initial (σ : Sys) : Prop where
  idle : σ.running = []
  inv : σ.db.Inv

variable {collate : String → String → Bool} {σ τ : Sys} {taken : List (Sys × Event)}

abbrev Changes (collate : String → String → Bool) : Sys → Sys → Event → Prop :=
  Isolation.Discipline.Changes (discipline collate) Call.Post

theorem Sys.Initial.sound (h : σ.Initial) (collate : String → String → Bool) :
    (discipline collate).Sound Call.Post σ :=
  .idle h.inv h.idle

/-- **The sessions of an account** are never more than five. -/
theorem sessions_bounded (h0 : σ.Initial) (hrun : Transition.Run (Sys.Step collate) σ taken τ)
    (githubId : Int) : (τ.db.sessionsOf githubId).length ≤ 5 :=
  ((h0.sound collate).run proved hrun).1.inv.bounded githubId

/-! ### Sessions are authentic -/

/-- A row of a session, and the call that made it. -/
def Made (taken : List (Sys × Event)) (row : SessionRow) : Prop :=
  ∃ p ∈ taken, ∃ now githubId login previous token csrf,
    p.2 = .commit ⟨now, .newSession githubId login previous token csrf⟩ (some token) ∧
    row = sessionRow now githubId token csrf

theorem Call.Post.made {c : Call} {a : Option String} {v : At} (h : c.Post a v) :
    ∀ row ∈ v.own.sessions.added, ∃ now githubId login previous token csrf,
      c = ⟨now, .newSession githubId login previous token csrf⟩ ∧ a = some token ∧
      row = sessionRow now githubId token csrf := by
  obtain ⟨now, op⟩ := c
  by_cases hop : op.adds = some .sessions
  · obtain ⟨githubId, login, previous, token, csrf, rfl⟩ := Op.of_adds hop
    intro row hrow
    rw [h.1.2.added, List.mem_singleton] at hrow
    exact ⟨now, githubId, login, previous, token, csrf, rfl, h.1.1, hrow⟩
  · intro row hrow
    rw [show v.own.sessions.added = [] from h.2 .sessions hop] at hrow
    cases hrow

/-- Every session there ever was is one a committed call has made. -/
theorem issued_made (h0 : σ.Initial) (hnone : σ.db.issued = [])
    (hrun : Transition.Run (Sys.Step collate) σ taken τ) : ∀ row ∈ τ.db.issued, Made taken row := by
  refine Isolation.Discipline.Sound.history (P := fun taken τ => ∀ row ∈ τ.db.issued, Made taken row)
    proved (h0.sound collate) ?_ ?_ hrun
  · rw [hnone]
    exact fun row hrow => nomatch hrow
  · intro taken s e t _ ih hchanges row hrow
    have hold : row ∈ s.db.issued → Made (taken ++ [(s, e)]) row := by
      intro hmem
      obtain ⟨p, hp, hmade⟩ := ih row hmem
      exact ⟨p, List.mem_append_left _ hp, hmade⟩
    cases hchanges with
    | commit w _ hcall hpost _ hdb =>
      rw [hdb] at hrow
      rcases List.mem_append.mp hrow with hmem | hnew
      · exact hold hmem
      · obtain ⟨now, githubId, login, previous, token, csrf, rfl, rfl, hrow⟩ := hpost.made row hnew
        exact ⟨_, List.mem_append_right _ (List.mem_singleton_self _), now, githubId, login,
          previous, token, csrf, rfl, hrow⟩
    | other _ hdb =>
      rcases hdb with hsame | ⟨clock, _, hsame⟩
      · exact hold (hsame ▸ hrow)
      · rw [hsame] at hrow
        exact hold hrow

theorem session_row {db : Db} {now : Time} {raw : String} {s : Session}
    (h : session db now raw = some s) : ∃ row ∈ db.sessions, row.tokenHash = digestOf raw ∧
      now < row.expiresAt ∧ s.githubId = row.githubId ∧ s.csrf = row.csrf ∧
      (s.admin = true ↔ row.githubId ∈ db.admins) := by
  unfold session at h
  split at h
  · rename_i row hfind
    have hmem := List.mem_of_find?_eq_some hfind
    have hrow := List.find?_some hfind
    rw [Bool.and_eq_true, decide_eq_true_eq, decide_eq_true_eq] at hrow
    obtain ⟨user, _, rfl⟩ := Option.map_eq_some_iff.mp h
    exact ⟨row, hmem, hrow.1, hrow.2, rfl, rfl, List.contains_iff_mem⟩
  · cases h

/-- **Who is signed in** has the token of a session made for the account less than
twelve hours ago, with its CSRF token, and is an administrator if in the table. -/
theorem sessions_authentic (h0 : σ.Initial) (hnone : σ.db.issued = [])
    (hrun : Transition.Run (Sys.Step collate) σ taken τ) {now : Time} {raw : String} {s : Session}
    (h : session τ.db now raw = some s) :
    (∃ p ∈ taken, ∃ began login previous token, p.2 = .commit
      ⟨began, .newSession s.githubId login previous token s.csrf⟩ (some token) ∧
      digestOf token = digestOf raw ∧ now < began + hours 12) ∧
    (s.admin = true ↔ s.githubId ∈ τ.db.admins) := by
  obtain ⟨row, hrow, hhash, hvalid, hid, hcsrf, hadmin⟩ := session_row h
  have hinv := ((h0.sound collate).run proved hrun).1.inv
  obtain ⟨p, hp, began, githubId, login, previous, token, csrf, hcommit, rfl⟩ :=
    issued_made h0 hnone hrun row (hinv.issued row hrow)
  rw [hid, hcsrf]
  exact ⟨⟨p, hp, began, login, previous, token, hcommit, hhash, hvalid⟩, hadmin⟩

/-- **Signing out is for good.** A token given out before the call to sign it out
began is never accepted after that call has committed. -/
theorem sessions_revoked {s₀ : Sys} {before : List (Sys × Event)} {now : Time} {raw : String}
    (h0 : σ.Initial) (hbefore : Transition.Run (Sys.Step collate) σ before s₀)
    (hgiven : ∃ p ∈ before, ∃ began githubId login previous csrf, p.2 = .commit
      ⟨began, .newSession githubId login previous raw csrf⟩ (some raw))
    (hnew : ∀ t ∈ s₀.running, t.call ≠ ⟨now, .logout raw⟩)
    (hrun : Transition.Run (Sys.Step collate) s₀ taken τ)
    (hout : ∃ p ∈ taken, p.2 = .commit ⟨now, .logout raw⟩ none) (later : Time) :
    session τ.db later raw = none := by
  have hs₀ := ((h0.sound collate).run proved hbefore).1
  have hissued : s₀.db.Knows (digestOf raw) := by
    obtain ⟨p, hp, began, githubId, login, previous, csrf, hcommit⟩ := hgiven
    obtain ⟨past, u, rest, hpast, hst, hrest⟩ := hbefore.mem_step hp
    have hp₀ := ((h0.sound collate).run proved hpast).1
    obtain ⟨hu, _, hchanges⟩ := hp₀.step proved hst
    have hu₀ : u.db.Knows (digestOf raw) := by
      rw [hcommit] at hchanges
      cases hchanges with
      | commit w _ hcall hpost _ hdb =>
        rw [hdb]
        refine ⟨sessionRow began githubId raw csrf, List.mem_append_right _ ?_, rfl⟩
        have hadded : w.own.sessions.added = [sessionRow began githubId raw csrf] := hpost.1.2.added
        rw [hadded]
        exact List.mem_singleton_self _
      | other hnot _ => exact absurd rfl (hnot _ _)
    exact hu₀.mono (hu.run proved hrest).2
  obtain ⟨p, hp, hcommit⟩ := hout
  obtain ⟨past, u, rest, hpast, hst, hrest⟩ := hrun.mem_step hp
  have hp₀ := (hs₀.run proved hpast).1
  obtain ⟨hu, _, hchanges⟩ := hp₀.step proved hst
  have hgone : u.db.Knows (digestOf raw) ∧ u.db.sessionsBy (digestOf raw) = [] := by
    rw [hcommit] at hchanges
    cases hchanges with
    | commit w hw hcall hpost _ hdb =>
      have hbegan := hs₀.since proved hpast w hw fun t ht hsame => hnew t ht (hsame.trans hcall)
      have hdone := hpost.1 (hissued.mono hbegan)
      rw [hdb]
      exact ⟨hdone.1.mono hpost.always, hdone.2⟩
    | other hnot _ => exact absurd rfl (hnot _ _)
  have hτ : τ.db.sessionsBy (digestOf raw) = [] :=
    List.sublist_nil.mp (hgone.2 ▸ ((hu.run proved hrest).2.ended _ hgone.1))
  cases hsession : session τ.db later raw with
  | none => rfl
  | some s =>
    obtain ⟨row, hrow, hhash, _⟩ := session_row hsession
    have hmem : row ∈ τ.db.sessionsBy (digestOf raw) :=
      List.mem_filter.mpr ⟨hrow, decide_eq_true hhash⟩
    rw [hτ] at hmem
    cases hmem

/-! ### Logins are completed once -/

/-- A login of some state begins. -/
def begins (stateHash : String) : Event → Bool
  | .commit ⟨_, .beginLogin state _ _⟩ _ => digestOf state = stateHash
  | _ => false

/-- A login of some state is completed. -/
def completes (stateHash : String) : Event → Bool
  | .commit ⟨_, .consumeLogin state _⟩ _ => digestOf state = stateHash
  | _ => false

omit [Sha256] in
/-- Whether a login can still be completed. -/
def Db.awaits (db : Db) (stateHash : String) : Nat := if db.loginsBy stateHash = [] then 0 else 1

omit [Sha256] in
theorem Db.awaits_mono {db db' : Db} {stateHash : String}
    (h : (db'.loginsBy stateHash).Sublist (db.loginsBy stateHash)) :
    db'.awaits stateHash ≤ db.awaits stateHash := by
  unfold Db.awaits
  by_cases hnil : db.loginsBy stateHash = []
  · rw [hnil] at h
    rw [if_pos hnil, if_pos (List.sublist_nil.mp h)]
  · rw [if_neg hnil]
    split <;> omega

/-- A row of a login, and the call that made it. -/
def Begun (taken : List (Sys × Event)) (row : LoginState) : Prop :=
  ∃ p ∈ taken, ∃ now state browser verifier a,
    p.2 = .commit ⟨now, .beginLogin state browser verifier⟩ a ∧
    row = loginRow now state browser verifier

/-- The logins of a history: each is one that began, and of a state no more were
completed than began. -/
structure Logins (taken : List (Sys × Event)) (τ : Sys) : Prop where
  begun : ∀ row ∈ τ.db.logins, Begun taken row
  count : ∀ h, (taken.countP fun p => completes h p.2) + τ.db.awaits h ≤
    taken.countP fun p => begins h p.2

theorem Begun.more {row : LoginState} {more : List (Sys × Event)}
    (h : Begun taken row ∨ Begun more row) : Begun (taken ++ more) row := by
  rcases h with ⟨q, hq, hmade⟩ | ⟨q, hq, hmade⟩
  · exact ⟨q, List.mem_append_left _ hq, hmade⟩
  · exact ⟨q, List.mem_append_right _ hq, hmade⟩

/-- One more event. -/
theorem Logins.snoc {s t : Sys} {e : Event} (ih : Logins taken s)
    (hrows : ∀ row ∈ t.db.logins, row ∈ s.db.logins ∨ Begun [(s, e)] row)
    (hcount : ∀ k, (completes k e).toNat + t.db.awaits k ≤ (begins k e).toNat + s.db.awaits k) :
    Logins (taken ++ [(s, e)]) t := by
  refine ⟨fun row hrow => Begun.more ((hrows row hrow).imp_left (ih.begun row)), fun k => ?_⟩
  have hone : ∀ b : Bool, (if b = true then 1 else 0) = b.toNat := by decide
  rw [List.countP_append, List.countP_append, List.countP_singleton, List.countP_singleton, hone,
    hone]
  change _ + (completes k e).toNat + _ ≤ _ + (begins k e).toNat
  have hbefore := ih.count k
  have hstep := hcount k
  omega

/-- A commit that adds no login. -/
theorem Call.Post.fewer {c : Call} {a : Option String} {v : At} (h : c.Post a v)
    (hop : c.op.adds ≠ some .logins) :
    (∀ row ∈ v.current.logins, row ∈ v.db.logins) ∧
      ∀ stateHash, v.current.awaits stateHash ≤ v.db.awaits stateHash := by
  have hadded : v.own.logins.added = [] := h.2 .logins hop
  refine ⟨fun row hrow => (Delta.mem_apply hrow).resolve_right ?_, fun stateHash => ?_⟩
  · rw [hadded]
    exact List.not_mem_nil
  · refine Db.awaits_mono (Delta.filter_apply_sublist fun row hrow => ?_)
    rw [hadded] at hrow
    cases hrow

theorem begins_beginLogin (k : String) (now : Time) (state browser verifier : String)
    (a : Option String) : begins k (.commit ⟨now, .beginLogin state browser verifier⟩ a) =
      decide (digestOf state = k) := rfl

theorem completes_consumeLogin (k : String) (now : Time) (state browser : String)
    (a : Option String) : completes k (.commit ⟨now, .consumeLogin state browser⟩ a) =
      decide (digestOf state = k) := rfl

/-- A login that begins. -/
theorem Logins.begin {s t : Sys} {a : Option String} {v : At} {now : Time}
    {state browser verifier : String} (ih : Logins taken s)
    (h : Call.Post ⟨now, .beginLogin state browser verifier⟩ a v) (hs : s.db = v.db)
    (ht : t.db = v.current) :
    Logins (taken ++ [(s, .commit ⟨now, .beginLogin state browser verifier⟩ a)]) t := by
  have hadded : v.own.logins.added = [loginRow now state browser verifier] := h.1
  refine ih.snoc (fun row hrow => ?_) fun k => ?_
  · rw [ht] at hrow
    rw [hs]
    refine (Delta.mem_apply hrow).imp_right fun hnew => ?_
    rw [hadded, List.mem_singleton] at hnew
    exact ⟨_, List.mem_singleton_self _, now, state, browser, verifier, a, rfl, hnew⟩
  · rw [begins_beginLogin]
    change 0 + _ ≤ _
    by_cases heq : digestOf state = k
    · have hone : t.db.awaits k ≤ 1 := by
        unfold Db.awaits
        split <;> omega
      rw [decide_eq_true heq, Bool.toNat_true]
      omega
    · have hless : v.current.awaits k ≤ v.db.awaits k := by
        refine Db.awaits_mono (Delta.filter_apply_sublist fun row hrow =>
          decide_eq_false fun hhash => heq ?_)
        rw [hadded, List.mem_singleton] at hrow
        rw [← hhash, hrow]
        rfl
      rw [decide_eq_false heq, ht, hs, Bool.toNat_false]
      omega

/-- A login that is completed: it was there before, and is gone now. -/
theorem Logins.complete {s t : Sys} {a : Option String} {v : At} {now : Time}
    {state browser : String} (ih : Logins taken s)
    (h : Call.Post ⟨now, .consumeLogin state browser⟩ a v) (hs : s.db = v.db)
    (ht : t.db = v.current) :
    Logins (taken ++ [(s, .commit ⟨now, .consumeLogin state browser⟩ a)]) t := by
  obtain ⟨hrows, hless⟩ := h.fewer fun h => nomatch h
  refine ih.snoc (fun row hrow => Or.inl ?_) fun k => ?_
  · rw [ht] at hrow
    rw [hs]
    exact hrows row hrow
  · rw [completes_consumeLogin]
    change _ ≤ 0 + _
    by_cases heq : digestOf state = k
    · have hgone : t.db.awaits k = 0 := by
        rw [ht, Db.awaits, ← heq, if_pos h.1.gone]
      have hthere : s.db.awaits k = 1 := by
        obtain ⟨row, hrow, hstate, _⟩ := h.1.found
        have hmem : row ∈ v.db.loginsBy k :=
          List.mem_filter.mpr ⟨hrow, decide_eq_true (hstate.trans heq)⟩
        rw [hs, Db.awaits, if_neg (List.ne_nil_of_mem hmem)]
      rw [decide_eq_true heq, hgone, hthere, Bool.toNat_true]
    · rw [decide_eq_false heq, ht, hs, Bool.toNat_false, Nat.zero_add, Nat.zero_add]
      exact hless k

/-- What a commit does to the logins. -/
theorem Logins.commit {s t : Sys} {c : Call} {a : Option String} {v : At} (ih : Logins taken s)
    (h : c.Post a v) (hs : s.db = v.db) (ht : t.db = v.current) :
    Logins (taken ++ [(s, .commit c a)]) t := by
  obtain ⟨now, op⟩ := c
  have hother : op.adds ≠ some .logins → (∀ k, begins k (.commit ⟨now, op⟩ a) = false) →
      (∀ k, completes k (.commit ⟨now, op⟩ a) = false) →
      Logins (taken ++ [(s, .commit ⟨now, op⟩ a)]) t := by
    intro hop hbegins hcompletes
    obtain ⟨hrows, hless⟩ := h.fewer hop
    refine ih.snoc (fun row hrow => Or.inl ?_) fun k => ?_
    · rw [ht] at hrow
      rw [hs]
      exact hrows row hrow
    · rw [hbegins, hcompletes, ht, hs, Bool.toNat_false, Nat.zero_add, Nat.zero_add]
      exact hless k
  cases op with
  | beginLogin state browser verifier => exact ih.begin h hs ht
  | consumeLogin state browser => exact ih.complete h hs ht
  | newSession githubId login previous token csrf =>
    exact hother (fun h => nomatch h) (fun _ => rfl) fun _ => rfl
  | logout raw => exact hother (fun h => nomatch h) (fun _ => rfl) fun _ => rfl
  | adminChange id grant recovery operator reason =>
    exact hother (fun h => nomatch h) (fun _ => rfl) fun _ => rfl
  | cleanupLogins => exact hother (fun h => nomatch h) (fun _ => rfl) fun _ => rfl
  | cleanupSessions => exact hother (fun h => nomatch h) (fun _ => rfl) fun _ => rfl

theorem logins_of_run (h0 : σ.Initial) (hnone : σ.db.logins = [])
    (hrun : Transition.Run (Sys.Step collate) σ taken τ) : Logins taken τ := by
  refine Isolation.Discipline.Sound.history (P := Logins) proved (h0.sound collate) ?_ ?_ hrun
  · refine ⟨fun row hrow => ?_, fun k => ?_⟩
    · rw [hnone] at hrow
      cases hrow
    · rw [Db.awaits, Db.loginsBy, hnone]
      exact Nat.le_refl 0
  · intro taken s e t _ ih hchanges
    cases hchanges with
    | commit w _ hcall hpost _ hdb => exact ih.commit hpost rfl hdb
    | other hnot hdb =>
      have hlogins : t.db.logins = s.db.logins := by
        rcases hdb with hsame | ⟨clock, _, hsame⟩
        · rw [hsame]
        · rw [hsame]
      have hnone : ∀ k, begins k e = false ∧ completes k e = false := by
        intro k
        cases e with
        | commit c a => exact absurd rfl (hnot c a)
        | start c => exact ⟨rfl, rfl⟩
        | look c => exact ⟨rfl, rfl⟩
        | execute c => exact ⟨rfl, rfl⟩
        | abort c => exact ⟨rfl, rfl⟩
        | elapse => exact ⟨rfl, rfl⟩
      refine ih.snoc (fun row hrow => Or.inl (hlogins ▸ hrow)) fun k => ?_
      rw [(hnone k).1, (hnone k).2, Db.awaits, Db.awaits, Db.loginsBy, hlogins]
      exact Nat.le_refl _

/-- **A login is completed** at most as often as one of its state began, and only
with the verifier of one that the same browser began within five minutes. -/
theorem logins_once (h0 : σ.Initial) (hnone : σ.db.logins = [])
    (hrun : Transition.Run (Sys.Step collate) σ taken τ) :
    (∀ h, (taken.countP fun p => completes h p.2) ≤ taken.countP fun p => begins h p.2) ∧
    ∀ before p after now state browser a, taken = before ++ p :: after →
      p.2 = .commit ⟨now, .consumeLogin state browser⟩ a →
      ∃ q ∈ before, ∃ began state' browser' verifier b,
        q.2 = .commit ⟨began, .beginLogin state' browser' verifier⟩ b ∧
        digestOf state' = digestOf state ∧ digestOf browser' = digestOf browser ∧
        now < began + minutes 5 ∧ a = some verifier := by
  refine ⟨fun k => ?_, ?_⟩
  · have hcount := (logins_of_run h0 hnone hrun).count k
    omega
  · rintro before p after now state browser a rfl hcommit
    obtain ⟨hpast, u, hst, _⟩ := hrun.split
    obtain ⟨_, _, hchanges⟩ := ((h0.sound collate).run proved hpast).1.step proved hst
    rw [hcommit] at hchanges
    cases hchanges with
    | commit w _ hcall hpost _ _ =>
      obtain ⟨row, hrow, hstate, hbrowser, hvalid, ha⟩ := hpost.1.found
      obtain ⟨q, hq, began, state', browser', verifier, b, hbegin, rfl⟩ :=
        (logins_of_run h0 hnone hpast).begun row hrow
      exact ⟨q, hq, began, state', browser', verifier, b, hbegin, hstate, hbrowser, hvalid, ha⟩
    | other hnot _ => exact absurd rfl (hnot _ _)

/-! ### The administrators -/

omit [Sha256] in
/-- The rows a committed change of the administrators has in the audit trail. -/
def auditOf : Event → List AuditEvent
  | .commit ⟨_, .adminChange id grant _ operator reason⟩ _ => [adminEvent id grant operator reason]
  | _ => []

omit [Sha256] in
/-- A revocation with `--recovery-override`. -/
def overrides : Event → Bool
  | .commit ⟨_, .adminChange _ false true _ _⟩ _ => true
  | _ => false

omit [Sha256] in
theorem auditOf_of_adds {now : Time} {op : Op} (hop : op.adds ≠ some .admins)
    (a : Option String) : auditOf (.commit ⟨now, op⟩ a) = [] := by
  cases op with
  | adminChange id grant recovery operator reason => exact absurd rfl hop
  | newSession githubId login previous token csrf => rfl
  | logout raw => rfl
  | beginLogin state browser verifier => rfl
  | consumeLogin state browser => rfl
  | cleanupLogins => rfl
  | cleanupSessions => rfl

omit [Sha256] in
theorem auditOf_other {e : Event} (h : ∀ c a, e ≠ .commit c a) : auditOf e = [] := by
  cases e with
  | commit c a => exact absurd rfl (h c a)
  | start c => rfl
  | look c => rfl
  | execute c => rfl
  | abort c => rfl
  | elapse => rfl

omit [Sha256] in
theorem overrides_other {e : Event} (h : ∀ c a, e ≠ .commit c a) : overrides e = false := by
  cases e with
  | commit c a => exact absurd rfl (h c a)
  | start c => rfl
  | look c => rfl
  | execute c => rfl
  | abort c => rfl
  | elapse => rfl

/-- What a commit does to the administrators and the audit trail. -/
theorem Call.Post.administers {c : Call} {a : Option String} {v : At} (h : c.Post a v) :
    v.current.audit = v.db.audit ++ auditOf (.commit c a) ∧
      (v.db.admins ≠ [] → overrides (.commit c a) = false → v.current.admins ≠ []) := by
  obtain ⟨now, op⟩ := c
  by_cases hop : op.adds = some .admins
  · obtain ⟨id, grant, recovery, operator, reason, rfl⟩ := Op.of_adds hop
    refine ⟨congrArg (v.db.audit ++ ·) h.1.2, fun hne hover => ?_⟩
    cases grant with
    | true =>
      have hmem : id ∈ v.current.admins := (h.1.1.table id).mpr (by rw [if_pos rfl])
      exact List.ne_nil_of_mem hmem
    | false =>
      cases recovery with
      | true => cases hover
      | false => exact h.1.1.last rfl hne
  · obtain ⟨htable, htrail⟩ := h.unchanged hop
    rw [htable, htrail, auditOf_of_adds hop, List.append_nil]
    exact ⟨rfl, fun hne _ => hne⟩

omit [Sha256] in
/-- What is no commit changes neither. -/
theorem unchanged_other {s t : Sys}
    (hdb : t.db = s.db ∨ ∃ clock, s.db.clock ≤ clock ∧ t.db = { s.db with clock }) :
    t.db.audit = s.db.audit ∧ t.db.admins = s.db.admins := by
  rcases hdb with hsame | ⟨clock, _, hsame⟩
  · rw [hsame]
    exact ⟨rfl, rfl⟩
  · rw [hsame]
    exact ⟨rfl, rfl⟩

/-- The trail has a row for each committed change, in their order. -/
theorem audit_of_run (h : (discipline collate).Sound Call.Post σ)
    (hrun : Transition.Run (Sys.Step collate) σ taken τ) :
    τ.db.audit = σ.db.audit ++ taken.flatMap fun p => auditOf p.2 := by
  refine Isolation.Discipline.Sound.history (P := fun taken τ =>
    τ.db.audit = σ.db.audit ++ taken.flatMap fun p => auditOf p.2) proved h ?_ ?_ hrun
  · rw [List.flatMap_nil, List.append_nil]
  · rintro taken s e t _ haudit hchanges
    rw [List.flatMap_append, List.flatMap_singleton, ← List.append_assoc, ← haudit]
    cases hchanges with
    | commit w _ hcall hpost _ hdb =>
      rw [hdb]
      exact hpost.administers.1
    | other hnot hdb =>
      rw [(unchanged_other hdb).1, auditOf_other hnot, List.append_nil]

/-- Without the override, an administrator is left wherever there is one. -/
theorem admins_of_run (h : (discipline collate).Sound Call.Post σ)
    (hrun : Transition.Run (Sys.Step collate) σ taken τ) (hne : σ.db.admins ≠ [])
    (hall : ∀ p ∈ taken, overrides p.2 = false) : τ.db.admins ≠ [] := by
  refine Isolation.Discipline.Sound.history (P := fun taken τ =>
    (∀ p ∈ taken, overrides p.2 = false) → τ.db.admins ≠ []) proved h (fun _ => hne) ?_ hrun hall
  rintro taken s e t _ hlast hchanges hall
  have hbefore := hlast fun p hp => hall p (List.mem_append_left _ hp)
  have hlate := hall (s, e) (List.mem_append_right _ (List.mem_singleton_self _))
  cases hchanges with
  | commit w _ hcall hpost _ hdb =>
    rw [hdb]
    exact hpost.administers.2 hbefore hlate
  | other hnot hdb =>
    rw [(unchanged_other hdb).2]
    exact hbefore

/-- **The administrators** are those the audit trail says, which has a row for each
committed change, in their order; and once there is one, there always is without the
override. -/
theorem admins_audited {s : Sys} {before : List (Sys × Event)} (h0 : σ.Initial)
    (hbefore : Transition.Run (Sys.Step collate) σ before s)
    (hrun : Transition.Run (Sys.Step collate) s taken τ) :
    (∀ id, id ∈ τ.db.admins ↔ granted τ.db.audit id = true) ∧
    τ.db.audit = σ.db.audit ++ (before ++ taken).flatMap (fun p => auditOf p.2) ∧
    (s.db.admins ≠ [] → (∀ p ∈ taken, overrides p.2 = false) → τ.db.admins ≠ []) := by
  have hσ := h0.sound collate
  have hs := (hσ.run proved hbefore).1
  exact ⟨(hs.run proved hrun).1.inv.audited, audit_of_run hσ (hbefore.trans hrun),
    admins_of_run hs hrun⟩

end Runs

end Identity

/-! ### One account -/

namespace Sample

open Identity

attribute [local instance] Sha256.standard

def textOrder (a b : String) : Bool := decide (a ≤ b)

/-- Empty tables. -/
def noAccounts (clock : Time) : Db := ⟨[], [], [], [], [], clock, []⟩

def signingIn : Call := ⟨0, .newSession 7 "ada" none "token" "csrf"⟩

def signingOut : Call := ⟨0, .logout "token"⟩

def noSys (clock : Time) : Sys := ⟨noAccounts clock, []⟩

theorem noSys_initial (clock : Time) : (noSys clock).Initial where
  idle := rfl
  inv := ⟨fun _ => Nat.zero_le 5, fun _ hrow => (nomatch hrow), fun _ =>
    ⟨fun h => (nomatch h), fun h => (nomatch h)⟩⟩

/-- What `signingIn` has written, with the sessions it deletes and adds. -/
def signingWrites (trimmed : List String) (added : List SessionRow) : Writes :=
  ⟨⟨[7], [⟨7, "ada"⟩]⟩, ⟨trimmed, added⟩, .blank, .blank, []⟩

/-- A statement of a call on the tables without others. -/
abbrev Executes (db : Db) (c : Call) {β : Type} (r : Statement β) (own : Writes) (keys : List Lock)
    (a : β) (own' : Writes) (taken : List Lock) : Prop :=
  (service textOrder).exec c r ⟨db, db, db, own, keys⟩ a own' taken

/-- `signingIn` on tables that have never seen its token. -/
theorem run_signingIn {db : Db} (hclock : db.clock = 0)
    (hissued : ∀ row ∈ db.issued, row.tokenHash ≠ digestOf "token")
    (hsessions : ∀ row ∈ db.sessions, row.tokenHash ≠ digestOf "token") :
    ∃ trimmed taken s, Transition.Run (Sys.Step textOrder) ⟨db, []⟩
      (taken ++ [(s, .commit signingIn (some "token"))])
      ⟨(signingWrites trimmed [sessionRow 0 7 "token" "csrf"]).apply db, []⟩ := by
  have hupsert : Executes db signingIn (.upsertUser 7 "ada") .blank (claims signingIn.op) ()
      (signingWrites [] []) [.user 7] := ⟨by decide, rfl, rfl⟩
  have htrim : ∃ trimmed, ∀ keys, Executes db signingIn (.trimSessions 7) (signingWrites [] []) keys
      () (signingWrites trimmed []) (trimmed.map .session) := by
    let v : At := ⟨db, db, db, signingWrites [] [], []⟩
    exact ⟨Delta.deletable SessionRow.tokenHash v.seen.sessions v.current.sessions
      (Statement.oldest textOrder v.seen.sessions 7), fun _ => ⟨rfl, rfl⟩⟩
  obtain ⟨trimmed, htrim⟩ := htrim
  have hinsert : ∀ keys, Executes db signingIn (.insertSession (sessionRow 0 7 "token" "csrf"))
      (signingWrites trimmed []) keys () (signingWrites trimmed [sessionRow 0 7 "token" "csrf"])
      [.session (digestOf "token")] := by
    refine fun keys => ⟨fun row hrow => ?_, ⟨⟨7, "ada"⟩, ?_, rfl⟩, rfl, rfl⟩
    · exact hsessions row ((Delta.mem_apply hrow).resolve_right List.not_mem_nil)
    · exact List.mem_append_right _ (List.mem_singleton_self _)
  have hends : Isolation.Ends (service textOrder) signingIn db
      (body signingIn.now signingIn.op) .blank (claims signingIn.op) (some "token")
      (signingWrites trimmed [sessionRow 0 7 "token" "csrf"]) :=
    .call hupsert (.call (htrim _) (.call (hinsert _) .done))
  have henter : enter signingIn db := by
    refine ⟨hclock.symm, fun h hclaim row hrow => ?_⟩
    rw [Lock.token.inj (List.mem_singleton.mp hclaim)]
    exact hissued row hrow
  exact ⟨trimmed, Isolation.run_of_ends henter hends⟩

theorem run_signingOut (db : Db) (h : db.clock = 0) : ∃ (taken : List (Sys × Event)) (s : Sys)
    (w : Writes), Transition.Run (Sys.Step textOrder) ⟨db, []⟩
      (taken ++ [(s, .commit signingOut none)]) ⟨w.apply db, []⟩ := by
  have hdelete : ∃ own taken, Executes db signingOut (.deleteSession (digestOf "token")) .blank []
      () own taken := ⟨_, _, rfl, rfl⟩
  obtain ⟨w, more, hdelete⟩ := hdelete
  have hends : Isolation.Ends (service textOrder) signingOut db
      (body signingOut.now signingOut.op) .blank (claims signingOut.op) none w :=
    .call hdelete .done
  have henter : (service textOrder).enter signingOut db := ⟨h.symm, fun _ hclaim => (nomatch hclaim)⟩
  obtain ⟨taken, s, hrun⟩ := Isolation.run_of_ends henter hends
  exact ⟨taken, s, w, hrun⟩

/-- The tables after `signingIn`. -/
def adaSignedIn : Db := (signingWrites [] [sessionRow 0 7 "token" "csrf"]).apply (noAccounts 0)

theorem run_adaSignedIn : ∃ taken s, Transition.Run (Sys.Step textOrder) (noSys 0)
    (taken ++ [(s, .commit signingIn (some "token"))]) ⟨adaSignedIn, []⟩ := by
  have hrun := @run_signingIn (noAccounts 0) rfl (fun _ hrow => (nomatch hrow))
    fun _ hrow => (nomatch hrow)
  obtain ⟨trimmed, hrun⟩ := hrun
  exact hrun

/-- An account that was signed in five times. -/
def fiveSessions : List SessionRow :=
  [⟨"a", 7, "old", 1⟩, ⟨"b", 7, "old", 2⟩, ⟨"c", 7, "old", 3⟩, ⟨"d", 7, "old", 4⟩, ⟨"e", 7, "old", 5⟩]

def fullAccount : Sys :=
  ⟨{ noAccounts 0 with sessions := fiveSessions, issued := fiveSessions }, []⟩

theorem fullAccount_initial : fullAccount.Initial where
  idle := rfl
  inv := ⟨fun _ => List.length_filter_le _ fiveSessions, fun _ hrow => hrow, fun _ =>
    ⟨fun h => (nomatch h), fun h => (nomatch h)⟩⟩

/-- **The sixth session of an account**: one of the others has to go. -/
theorem sessions_bounded_ada : ∃ taken, ∃ τ : Sys, Transition.Run (Sys.Step textOrder) fullAccount
    taken τ ∧ sessionRow 0 7 "token" "csrf" ∈ τ.db.sessions ∧
    (τ.db.sessionsOf 7).length ≤ 5 ∧ ∃ row ∈ fullAccount.db.sessions, row ∉ τ.db.sessions := by
  have hshort : ∀ row ∈ fiveSessions, Text.len row.tokenHash ≠ 64 := by decide
  have hfresh : ∀ row ∈ fiveSessions, row.tokenHash ≠ digestOf "token" := by
    intro row hrow heq
    have hlen := validHex_digest ("token".toList.flatMap String.utf8EncodeChar)
    rw [Text.validHex, Bool.and_eq_true, decide_eq_true_eq] at hlen
    exact hshort row hrow (heq ▸ hlen.1)
  obtain ⟨trimmed, taken, s, hrun⟩ := @run_signingIn fullAccount.db rfl hfresh hfresh
  have hbounded := sessions_bounded fullAccount_initial hrun 7
  have hadded : sessionRow 0 7 "token" "csrf" ∈ ((signingWrites trimmed
      [sessionRow 0 7 "token" "csrf"]).apply fullAccount.db).sessions :=
    List.mem_append_right _ (List.mem_singleton_self _)
  refine ⟨_, _, hrun, hadded, hbounded, ?_⟩
  by_contra hall
  push Not at hall
  -- six different sessions would be left
  have hsix : (sessionRow 0 7 "token" "csrf" :: fiveSessions).Nodup := by
    refine List.nodup_cons.mpr ⟨fun hmem => ?_, by decide⟩
    have hold : ∀ row ∈ fiveSessions, row.csrf = "old" := by decide
    exact absurd (hold _ hmem) (by decide)
  have hless := (List.subperm_of_subset hsix fun row hrow => ?_).length_le.trans hbounded
  · exact absurd hless (by decide)
  · refine List.mem_filter.mpr ?_
    rcases List.mem_cons.mp hrow with rfl | hmem
    · exact ⟨hadded, decide_eq_true rfl⟩
    · have hseven : ∀ row ∈ fiveSessions, row.githubId = 7 := by decide
      exact ⟨hall row hmem, decide_eq_true (hseven row hmem)⟩

theorem session_ada : session adaSignedIn 0 "token" = some ⟨7, "ada", "csrf", false⟩ := by
  have hrow : adaSignedIn.sessions = [sessionRow 0 7 "token" "csrf"] := rfl
  have husers : adaSignedIn.users = [⟨7, "ada"⟩] := rfl
  have hvalid : (0 : Time) < 0 + hours 12 := by decide
  rw [session, hrow, husers]
  simp only [List.find?_cons, sessionRow, decide_true, Bool.true_and, decide_eq_true hvalid]
  rfl

theorem sessions_authentic_ada : ∃ taken, Transition.Run (Sys.Step textOrder) (noSys 0) taken
    ⟨adaSignedIn, []⟩ ∧ ∃ p ∈ taken, ∃ began login previous token, p.2 = .commit
      ⟨began, .newSession 7 login previous token "csrf"⟩ (some token) ∧
      digestOf token = digestOf "token" ∧ 0 < began + hours 12 := by
  obtain ⟨taken, s, hrun⟩ := run_adaSignedIn
  exact ⟨_, hrun, (sessions_authentic (noSys_initial 0) rfl hrun session_ada).1⟩

/-- A session, and its end. -/
theorem sessions_revoked_ada : ∃ before taken, ∃ τ : Sys, Transition.Run (Sys.Step textOrder)
    (noSys 0) (before ++ taken) τ ∧ ∀ later, session τ.db later "token" = none := by
  obtain ⟨before, s, hbefore⟩ := run_adaSignedIn
  obtain ⟨taken, s', w, hrun⟩ := run_signingOut adaSignedIn rfl
  refine ⟨_, _, _, hbefore.trans hrun, sessions_revoked (noSys_initial 0) hbefore
    ⟨_, List.mem_append_right _ (List.mem_singleton_self _), 0, 7, "ada", none, "csrf", rfl⟩
    (fun _ ht => (nomatch ht)) hrun ⟨_, List.mem_append_right _ (List.mem_singleton_self _), rfl⟩⟩

def loggingIn : Call := ⟨0, .beginLogin "state" "browser" "verifier"⟩

def loggedIn : Call := ⟨0, .consumeLogin "state" "browser"⟩

def loginWrites : Writes :=
  ⟨.blank, .blank, ⟨[], [loginRow 0 "state" "browser" "verifier"]⟩, .blank, []⟩

theorem run_login : ∃ (taken : List (Sys × Event)) (s : Sys) (w : Writes),
    Transition.Run (Sys.Step textOrder) (noSys 0) (taken ++ [(s, .commit loggedIn (some "verifier"))])
      ⟨w.apply (loginWrites.apply (noAccounts 0)), []⟩ := by
  have hinsert : Executes (noAccounts 0) loggingIn
      (.insertLogin (loginRow 0 "state" "browser" "verifier")) .blank [] () loginWrites
      [.login (digestOf "state")] := ⟨fun _ hrow => (nomatch hrow), rfl, rfl⟩
  have hbegins : Isolation.Ends (service textOrder) loggingIn (noAccounts 0)
      (body loggingIn.now loggingIn.op) .blank (claims loggingIn.op) none loginWrites :=
    .call hinsert .done
  have hdelete : ∃ own taken, Executes (loginWrites.apply (noAccounts 0)) loggedIn
      (.deleteLogin (digestOf "state") (digestOf "browser") 0) .blank [] "verifier" own taken :=
    ⟨_, _, _, .head _, .head _, rfl, rfl, by decide, rfl, rfl, rfl⟩
  obtain ⟨w, more, hdelete⟩ := hdelete
  have hends : Isolation.Ends (service textOrder) loggedIn (loginWrites.apply (noAccounts 0))
      (body loggedIn.now loggedIn.op) .blank (claims loggedIn.op) (some "verifier") w :=
    .call hdelete .done
  have henter : (service textOrder).enter loggingIn (noAccounts 0) :=
    ⟨rfl, fun _ hclaim => (nomatch hclaim)⟩
  have henter' : (service textOrder).enter loggedIn (loginWrites.apply (noAccounts 0)) :=
    ⟨rfl, fun _ hclaim => (nomatch hclaim)⟩
  obtain ⟨before, s, hbefore⟩ := Isolation.run_of_ends henter hbegins
  obtain ⟨taken, s', hrun⟩ := Isolation.run_of_ends henter' hends
  refine ⟨(before ++ [(s, .commit loggingIn none)]) ++ taken, s', w, ?_⟩
  rw [List.append_assoc]
  exact hbefore.trans hrun

theorem logins_once_ada : ∃ (before : List (Sys × Event)) (p : Sys × Event) (τ : Sys),
    Transition.Run (Sys.Step textOrder) (noSys 0) (before ++ p :: []) τ ∧
    p.2 = .commit loggedIn (some "verifier") ∧
    ∃ q ∈ before, ∃ began state browser verifier b,
      q.2 = .commit ⟨began, .beginLogin state browser verifier⟩ b ∧
      digestOf state = digestOf "state" ∧ digestOf browser = digestOf "browser" ∧
      0 < began + minutes 5 ∧ some "verifier" = some verifier := by
  obtain ⟨before, s, w, hrun⟩ := run_login
  exact ⟨before, _, _, hrun, rfl, (logins_once (noSys_initial 0) rfl hrun).2 before _ [] 0 "state"
    "browser" (some "verifier") rfl rfl⟩

def granting : Call := ⟨0, .adminChange 7 true false "operator" "term starts"⟩

def grantWrites : Writes := ⟨.blank, .blank, .blank, ⟨[], [7]⟩,
  [adminEvent 7 true "operator" "term starts"]⟩

theorem run_granting : ∃ taken s, Transition.Run (Sys.Step textOrder) (noSys 0)
    (taken ++ [(s, .commit granting none)]) ⟨grantWrites.apply (noAccounts 0), []⟩ := by
  have hready : check (decide (0 < (7 : Int)) && !Text.blank "term starts" && !Text.blank "operator")
      "identity, operator and reason are required" = .ok () := by decide
  have hlock : Executes (noAccounts 0) granting .lockAdmins .blank [] () .blank [.admins] := ⟨rfl, rfl⟩
  have hinsert : Executes (noAccounts 0) granting (.insertAdmin 7) .blank [.admins] ()
      ⟨.blank, .blank, .blank, ⟨[], [7]⟩, []⟩ [.admin 7] := ⟨by decide, rfl, rfl⟩
  have haudit : Executes (noAccounts 0) granting
      (.insertAudit (adminEvent 7 true "operator" "term starts"))
      ⟨.blank, .blank, .blank, ⟨[], [7]⟩, []⟩ [.admin 7, .admins] () grantWrites [] := ⟨rfl, rfl⟩
  have hends : Isolation.Ends (service textOrder) granting (noAccounts 0)
      (body granting.now granting.op) .blank (claims granting.op) none grantWrites := by
    rw [granting, body, hready]
    exact .call hlock (.call hinsert (.call haudit .done))
  have henter : (service textOrder).enter granting (noAccounts 0) :=
    ⟨rfl, fun _ hclaim => (nomatch hclaim)⟩
  exact Isolation.run_of_ends henter hends

def revoking : Call := ⟨0, .adminChange 7 false false "operator" "term over"⟩

/-- The only administrator is not revoked. -/
theorem run_revoking : ∃ taken s, Transition.Run (Sys.Step textOrder)
    ⟨grantWrites.apply (noAccounts 0), []⟩ (taken ++ [(s, .abort revoking)])
    ⟨grantWrites.apply (noAccounts 0), []⟩ ∧
    ∀ x ∈ taken ++ [(s, .abort revoking)], ∀ c a, x.2 ≠ .commit c a := by
  have hready : check (decide (0 < (7 : Int)) && !Text.blank "term over" && !Text.blank "operator")
      "identity, operator and reason are required" = .ok () := by decide
  have hlock : Executes (grantWrites.apply (noAccounts 0)) revoking .lockAdmins .blank [] () .blank
      [.admins] := ⟨rfl, rfl⟩
  have hcount : Executes (grantWrites.apply (noAccounts 0)) revoking (.countOthers 7) .blank
      [.admins] 0 .blank [] := ⟨rfl, rfl, rfl⟩
  have hfails : Isolation.Reaches (service textOrder) revoking (grantWrites.apply (noAccounts 0))
      (body revoking.now revoking.op) .blank (claims revoking.op)
      (.fail (.message "refusing to revoke final administrator without --recovery-override")) .blank
      [.admins] := by
    rw [revoking, body, hready]
    exact .call hlock (.call hcount .refl)
  have henter : (service textOrder).enter revoking (grantWrites.apply (noAccounts 0)) :=
    ⟨rfl, fun _ hclaim => (nomatch hclaim)⟩
  exact Isolation.run_of_fails henter hfails

/-- **The first administrator**, whom nobody can revoke without the override. -/
theorem admins_audited_ada : ∃ before, ∃ s : Sys, ∃ taken u, Transition.Run (Sys.Step textOrder)
    (noSys 0) before s ∧ s.db.admins = [7] ∧ ∃ τ : Sys, Transition.Run (Sys.Step textOrder) s
    (taken ++ [(u, .abort revoking)]) τ ∧ τ.db.admins ≠ [] ∧
    (7 ∈ τ.db.admins ↔ granted τ.db.audit 7 = true) := by
  obtain ⟨before, s, hbefore⟩ := run_granting
  obtain ⟨taken, u, hrun, hnone⟩ := run_revoking
  have haudited := admins_audited (noSys_initial 0) hbefore hrun
  exact ⟨_, _, taken, u, hbefore, rfl, _, hrun,
    haudited.2.2 (List.cons_ne_nil _ _) fun p hp => overrides_other (hnone p hp), haudited.1 7⟩

end Sample

end Grading

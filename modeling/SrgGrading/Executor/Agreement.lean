import SrgGrading.Executor.Approval
import SrgGrading.Executor.Results

/-!
# Results the server accepts

The executor builds a result and the server checks it, each with bounds of its
own.  A finding is reported for every protected file that was deleted or changed
and for every file that was added; the server takes no more than 10000.

* `Manifest.length_check`: how many findings a check has.
* `Session.accepted_iff`: the result of an execution is accepted unless the
  submission departs from its manifest in more files than that.
-/

open Fallible

namespace Grading

/-! ### Departures -/

namespace Manifest

/-- What the server takes of a finding. -/
def Small (f : Finding) : Prop := Text.len f.path ≤ 1024 ∧ Text.len f.reason ≤ 256

section Additions
variable {manifest : Manifest} {snapshot : Snapshot}

theorem length_additions : (manifest.additions snapshot).length =
    snapshot.files.entries.countP fun e => (manifest.unexpected e.1 e.2).isSome := by
  unfold additions
  induction snapshot.files.entries with
  | nil => rfl
  | cons e l ih =>
    obtain ⟨path, blob⟩ := e
    rw [List.countP_cons, ← ih]
    cases hreason : manifest.unexpected path blob with
    | none =>
      rw [List.filterMap_cons_none (by simp [hreason])]
      rfl
    | some reason =>
      rw [List.filterMap_cons_some (b := ⟨path, reason⟩) (by simp [hreason])]
      rfl

theorem len_le_of_safePath {path : String} (h : safePath path = .ok ()) : Text.len path ≤ 1024 := by
  unfold safePath at h
  simp only [bind_ok, check_ok, Bool.and_eq_true, decide_eq_true_eq] at h
  obtain ⟨_, ⟨⟨⟨_, hlen⟩, _⟩, _⟩, _⟩ := h
  exact hlen

theorem len_le_of_size {s : String} {n : Nat} (h : (stringJson s).size ≤ n) : Text.len s ≤ n := by
  have hle := Json.le_strSize s.toList
  rw [utf8Len_toList] at hle
  rw [stringJson, Json.size_str] at h
  omega

theorem additions_small (hvalid : snapshot.validateStructure = .ok ()) :
    ∀ f ∈ manifest.additions snapshot, Small f := by
  intro f hf
  obtain ⟨blob, hblob, hreason⟩ := mem_additions.mp hf
  have hlen := len_le_of_size (unexpected_reason hreason)
  exact ⟨len_le_of_safePath (Snapshot.validateStructure_ok hvalid hblob).1, by omega⟩

end Additions

variable [Sha256]

/-- Whether a protected file is missing from a snapshot, or another one there. -/
def departs (snapshot : Snapshot) (e : String × ProtectedFile) : Bool :=
  match snapshot.files.get? e.1 with
  | none => true
  | some blob => blob.mode ≠ e.2.mode || blob.bytes.map digest ≠ .ok e.2.sha256

/-- The protected files that depart, and the files that have no place there. -/
def departures (manifest : Manifest) (snapshot : Snapshot) : Nat :=
  manifest.files.entries.countP (departs snapshot) +
    snapshot.files.entries.countP fun e => (manifest.unexpected e.1 e.2).isSome

variable {manifest : Manifest} {snapshot : Snapshot} {found : List Finding}

/-- There are no more departures than files. -/
theorem departures_le : manifest.departures snapshot ≤ manifest.files.size + snapshot.files.size :=
  Nat.add_le_add List.countP_le_length List.countP_le_length

theorem isSome_changed {e : String × ProtectedFile} {reason : Option String}
    (h : changed e.2 (snapshot.files.get? e.1) = .ok reason) :
    reason.isSome = departs snapshot e := by
  unfold departs
  cases hblob : snapshot.files.get? e.1 with
  | none =>
    rw [hblob] at h
    cases h
    rfl
  | some blob =>
    rw [hblob, changed] at h
    split at h
    · rename_i hmode
      cases h
      simp [hmode]
    · rename_i hmode
      rw [not_not] at hmode
      simp only [bind_ok, pure_ok] at h
      obtain ⟨bytes, hbytes, rfl⟩ := h
      dsimp only
      rw [hbytes]
      by_cases hsum : digest bytes = e.2.sha256
      · simp [hmode, hsum, Except.map]
      · simp [hmode, hsum, Except.map]

theorem length_changes {l : List (String × ProtectedFile)} (h : changes snapshot l = .ok found) :
    found.length = l.countP (departs snapshot) := by
  induction l generalizing found with
  | nil =>
    cases h
    rfl
  | cons e l ih =>
    obtain ⟨path, expected⟩ := e
    simp only [changes, bind_ok, pure_ok] at h
    obtain ⟨reason, hreason, later, hlater, rfl⟩ := h
    have hsome : reason.isSome = departs snapshot (path, expected) := isSome_changed hreason
    rw [List.length_append, ih hlater, List.countP_cons, ← hsome]
    cases reason with
    | none => exact Nat.zero_add _
    | some reason => exact Nat.add_comm _ _

/-- **The findings of a check** are the departures. -/
theorem length_check (h : manifest.check snapshot = .ok found) :
    found.length = manifest.departures snapshot := by
  simp only [check, bind_ok, pure_ok] at h
  obtain ⟨_, _, _, _, changed, hchanged, rfl⟩ := h
  rw [List.length_append, length_changes hchanged, length_additions, departures]

theorem check_total (hmanifest : manifest.validate = .ok ())
    (hvalid : snapshot.validateStructure = .ok ()) :
    ∃ found, manifest.check snapshot = .ok found := by
  obtain ⟨changed, hchanged⟩ := changes_total hvalid manifest.files.entries
  exact ⟨_, (check_spec hmanifest hvalid).mpr ⟨changed, hchanged, rfl⟩⟩

theorem changes_small {l : List (String × ProtectedFile)}
    (hfiles : ∀ e ∈ l, manifest.validateFile e = .ok ()) (h : changes snapshot l = .ok found) :
    ∀ f ∈ found, Small f := by
  induction l generalizing found with
  | nil =>
    cases h
    intro f hf
    cases hf
  | cons e l ih =>
    obtain ⟨path, expected⟩ := e
    obtain ⟨hfirst, hrest⟩ := List.forall_mem_cons.mp hfiles
    simp only [changes, bind_ok, pure_ok] at h
    obtain ⟨reason, hreason, later, hlater, rfl⟩ := h
    intro f hf
    rcases List.mem_append.mp hf with hhere | hlaterMem
    · rw [Option.mem_toList, Option.map_eq_some_iff] at hhere
      obtain ⟨text, rfl, rfl⟩ := hhere
      have hlen := len_le_of_size (changed_reason hreason)
      exact ⟨len_le_of_safePath (validateFile_ok.mp hfirst).1, by dsimp only; omega⟩
    · exact ih hrest hlater f hlaterMem

/-- **Every finding is small.** -/
theorem check_small (h : manifest.check snapshot = .ok found) : ∀ f ∈ found, Small f := by
  simp only [check, bind_ok, pure_ok] at h
  obtain ⟨_, hmanifest, _, hvalid, changed, hchanged, rfl⟩ := h
  simp only [validate, bind_ok, each_ok] at hmanifest
  obtain ⟨_, _, _, _, hfiles⟩ := hmanifest
  intro f hf
  rcases List.mem_append.mp hf with hf | hf
  · exact changes_small hfiles hchanged f hf
  · exact additions_small hvalid f hf

end Manifest

/-! ### Sessions -/

namespace Executor

open Transcripts

/-- Whose output is pushed. -/
inductive Party
  | student
  | controller

/-- Students see what their own commands print, in a public run. -/
def Party.visible (lease : Lease) : Party → Bool
  | .student => lease.baseline.isNone
  | .controller => false

/-- What the loop that serves the requests of the script comes to. -/
inductive Turn
  /-- A request cannot be read, or not be run, or not be answered. -/
  | refused (e : Error)
  /-- No time remains for a request. -/
  | outOfTime
  /-- The job of a request, and whether the deadline has passed when it ended. -/
  | ran (job : JobWatch) (polls : List Poll) (late : Bool)

/-- How the run of a script ends. -/
inductive Ending
  | failed (e : Error)
  /-- The job of the script ended first. -/
  | controller (job : JobWatch) (polls : List Poll)
  /-- The loop ended first. -/
  | served (turns : List Turn)

section Outcomes
variable (fromStr : List Char → Option Output)

/-- `serve`: the error or the status it ends with, if it does. -/
def serve : List Turn → Option (Except Error RunStatus)
  | [] => none
  | .refused e :: _ => some (.error e)
  | .outOfTime :: _ => some (.ok .timedOut)
  | .ran job polls late :: rest =>
    match waitJob polls with
    | none => none
    | some outcome =>
      match (({ job with workflow := true }).wait fromStr outcome []).1 with
      | .error e => some (.error e)
      | .ok (.failed status) =>
        if status = .timedOut && !late then serve rest else some (.ok status)
      | .ok _ => serve rest

def Ending.outcome : Ending → Option (Except Error JobOutcome)
  | .failed e => some (.error e)
  | .controller job polls =>
    (waitJob polls).map fun outcome => (({ job with workflow := false }).wait fromStr outcome []).1
  | .served turns => (serve fromStr turns).map fun r => r.map JobOutcome.failed

end Outcomes

/-- An executor with its configuration, the answers it gets, the run of the
script, and the texts that are pushed meanwhile, in any order. -/
structure Session where
  config : Config
  now : Time
  verify : Seed → Except Error Unit
  source : Except Error (List UInt8)
  decode : List UInt8 → Except Error Snapshot
  stage : Snapshot → Except Error Unit
  fromStr : List Char → Option Output
  ending : Ending
  outcome : Except Error JobOutcome
  ended : ending.outcome fromStr = some outcome
  decodeScore : String → Except Error ScriptScore
  texts : List (Party × String)
  describe : Error → String × String

namespace Session

variable [Sha256]

/-- What an execution of a lease meets. -/
def surroundings (x : Session) (lease : Lease) : Surroundings where
  approve := x.config.approve x.now
  verify := x.verify
  source := x.source
  decode := x.decode
  stage := x.stage
  controller := x.outcome
  decodeScore := x.decodeScore
  pushes := x.texts.map fun p => (p.1.visible lease, p.2)
  describe := x.describe

/-- The result of a lease. -/
def result (x : Session) (lease : Lease) : RunResult := (x.surroundings lease).execute lease

/-- The execution comes to check a snapshot, which is well formed. -/
structure Checks (x : Session) (lease : Lease) (snapshot : Snapshot) : Prop where
  seed : (x.surroundings lease).verifySeed lease = .ok ()
  download : ∃ bytes, x.source = .ok bytes ∧ digest bytes = lease.sourceDigest ∧
    x.decode bytes = .ok snapshot
  sha : snapshot.sha = lease.sha
  wellFormed : snapshot.validateStructure = .ok ()

end Session

/-! ### Outcomes -/

theorem waitJob_failed {polls : List Poll} {status : RunStatus}
    (h : waitJob polls = some (.ok (.failed status))) : status = .timedOut := by
  induction polls with
  | nil => cases h
  | cons p rest ih =>
    unfold waitJob at h
    split at h
    · cases h
      rfl
    · split at h
      · cases h
      · cases h
        rfl
      · split at h
        · split at h
          · cases h
          · split at h
            · cases h
            · split at h
              · cases h
              · cases h
        · exact ih h

theorem wait_failed {job : JobWatch} {fromStr : List Char → Option Output}
    {outcome : Except Error JobOutcome} {logs : List RunLog} {status : RunStatus}
    (h : (job.wait fromStr outcome logs).1 = .ok (.failed status)) :
    outcome = .ok (.failed status) := by
  unfold JobWatch.wait at h
  split at h
  · split at h
    · cases h
    · split at h
      · cases h
      · rename_i o _
        unfold Output.outcome at h
        dsimp only at h
        split at h
        · cases h
        · split at h
          · cases h
          · split at h <;> cases h
  · exact h

theorem serve_ok {fromStr : List Char → Option Output} {turns : List Turn} {status : RunStatus}
    (h : serve fromStr turns = some (.ok status)) : status = .timedOut := by
  induction turns with
  | nil => cases h
  | cons turn rest ih =>
    cases turn with
    | refused e => cases h
    | outOfTime =>
      cases h
      rfl
    | ran job polls late =>
      unfold serve at h
      split at h
      · cases h
      · rename_i outcome houtcome
        split at h
        · cases h
        · rename_i s hs
          split at h
          · exact ih h
          · cases h
            rw [wait_failed hs] at houtcome
            exact waitJob_failed houtcome
        · exact ih h

/-- **A run that is cut short is out of time.** -/
theorem Ending.outcome_failed {fromStr : List Char → Option Output} {ending : Ending}
    {status : RunStatus} (h : ending.outcome fromStr = some (.ok (.failed status))) :
    status = .timedOut := by
  cases ending with
  | failed e => cases h
  | controller job polls =>
    obtain ⟨outcome, houtcome, hwait⟩ := Option.map_eq_some_iff.mp h
    rw [wait_failed hwait] at houtcome
    exact waitJob_failed houtcome
  | served turns =>
    obtain ⟨r, hr, heq⟩ := Option.map_eq_some_iff.mp h
    cases r with
    | error e => cases heq
    | ok s =>
      cases heq
      exact serve_ok hr

/-! ### What the server accepts -/

/-- How the status, the findings and the score of a result go together. -/
structure Settled (r : RunResult) : Prop where
  scored : r.status = .completed ∨ r.status = .invalidated → r.findings = [] ∧
    ∃ s, r.score = some s ∧ s.invalidated = decide (r.status = .invalidated)
  failed : ¬(r.status = .completed ∨ r.status = .invalidated) → r.score = none ∧
    (r.status = .integrityFailed ∨ r.findings = [])

theorem settled_initial (lease : Lease) : Settled (initialResult lease) where
  scored h := by rcases h with h | h <;> cases h
  failed _ := ⟨rfl, Or.inr rfl⟩

section Settling
variable {w : Surroundings} {lease : Lease} {r : RunResult}
  (hcontroller : ∀ status, w.controller = .ok (.failed status) → status = .timedOut)

include hcontroller

theorem workflow_failed {status : RunStatus} (h : w.workflow lease = .ok (.failed status)) :
    status = .infrastructureFailed ∨ status = .timedOut := by
  unfold Surroundings.workflow at h
  simp only [bind_ok] at h
  obtain ⟨outcome, houtcome, h⟩ := h
  cases outcome with
  | output code output =>
    dsimp only at h
    split at h
    · simp only [bind_ok, pure_ok] at h
      obtain ⟨_, _, _, _, _, _, heq⟩ := h
      cases heq
    · cases h
      exact Or.inl rfl
  | studentFailure reason =>
    cases h
    exact Or.inl rfl
  | failed s =>
    cases h
    exact Or.inr (hcontroller status houtcome)

theorem grade_settled {snapshot : Snapshot} (h : w.grade lease snapshot = .ok r) : Settled r := by
  unfold Surroundings.grade at h
  simp only [bind_ok] at h
  obtain ⟨_, _, outcome, houtcome, h⟩ := h
  cases outcome with
  | scored score =>
    cases h
    constructor
    · intro _
      refine ⟨rfl, score, rfl, ?_⟩
      dsimp only
      cases score.invalidated <;> rfl
    · intro hstatus
      exfalso
      apply hstatus
      dsimp only
      cases score.invalidated
      · exact Or.inl rfl
      · exact Or.inr rfl
  | failed status =>
    cases h
    rcases workflow_failed hcontroller houtcome with rfl | rfl
    · exact ⟨fun hs => (by rcases hs with hs | hs <;> cases hs), fun _ => ⟨rfl, Or.inr rfl⟩⟩
    · exact ⟨fun hs => (by rcases hs with hs | hs <;> cases hs), fun _ => ⟨rfl, Or.inr rfl⟩⟩

variable [Sha256]

theorem executeInner_settled (h : w.executeInner lease = .ok r) : Settled r := by
  unfold Surroundings.executeInner at h
  split at h
  · cases h
    exact settled_initial lease
  · simp only [bind_ok] at h
    obtain ⟨_, _, _, _, _, _, _, _, _, _, h⟩ := h
    split at h
    · cases h
      exact ⟨fun hs => (by rcases hs with hs | hs <;> cases hs), fun _ => ⟨rfl, Or.inl rfl⟩⟩
    · split at h
      · cases h
        exact ⟨fun hs => (by rcases hs with hs | hs <;> cases hs), fun _ => ⟨rfl, Or.inl rfl⟩⟩
      · exact grade_settled hcontroller h

theorem execute_settled : Settled (w.execute lease) := by
  unfold Surroundings.execute
  split
  · rename_i result hresult
    have h := executeInner_settled hcontroller hresult
    exact ⟨h.scored, h.failed⟩
  · have h := settled_initial lease
    exact ⟨h.scored, h.failed⟩

end Settling

section Hidden
variable {visible : Bool} {text : String} {logs : List RunLog}

/-- No log is for students. -/
def Hidden (logs : List RunLog) : Prop := ∀ log ∈ logs, log.studentVisible = false

theorem push_hidden (h : Hidden logs) : Hidden (push false text logs) := by
  unfold push
  split
  · exact h
  · dsimp only
    split
    · exact h
    · intro log hlog
      rcases List.mem_append.mp hlog with hold | hnew
      · exact h log hold
      · rw [List.mem_singleton.mp hnew]

theorem foldl_hidden {pushes : List (Bool × String)} (hpushes : ∀ p ∈ pushes, p.1 = false)
    (h : Hidden logs) : Hidden (pushes.foldl (fun logs p => push p.1 p.2 logs) logs) := by
  induction pushes generalizing logs with
  | nil => exact h
  | cons p rest ih =>
    obtain ⟨hp, hrest⟩ := List.forall_mem_cons.mp hpushes
    refine ih hrest ?_
    dsimp only
    rw [hp]
    exact push_hidden h

end Hidden

variable [Sha256]

/-- The logs of a private run are not for students. -/
theorem Session.result_hidden (x : Session) {lease : Lease} (h : lease.baseline.isNone = false) :
    Hidden (x.result lease).logs := by
  have hcaptured : Hidden (x.surroundings lease).captured := by
    refine foldl_hidden ?_ fun log hlog => (by cases hlog)
    intro p hp
    obtain ⟨⟨party, text⟩, _, rfl⟩ := List.mem_map.mp hp
    cases party
    · exact h
    · rfl
  unfold Session.result Surroundings.execute
  split
  · exact hcaptured
  · dsimp only
    rw [h]
    exact push_hidden hcaptured

/-- **What the server checks** of a result that was built for the lease. -/
theorem validate_iff {w : Surroundings} {lease : Lease} {r : RunResult}
    (hrevision : lease.revision.validate = .ok ()) (hbuilt : Built w lease r)
    (hlogs : LogsBounded r.logs) (hhidden : lease.baseline.isNone = false → Hidden r.logs)
    (hsettled : Settled r) (hsmall : ∀ f ∈ r.findings, Manifest.Small f) :
    (∃ points, r.validate lease = .ok points) ↔ r.findings.length ≤ 10000 := by
  have hversion : r.schemaVersion = 1 := congrArg RunResult.schemaVersion hbuilt.same
  have htoken : r.leaseToken = lease.leaseToken := congrArg RunResult.leaseToken hbuilt.same
  have hrun : r.runId = lease.runId := congrArg RunResult.runId hbuilt.same
  have hsha : r.sha = lease.sha := congrArg RunResult.sha hbuilt.same
  have hdigest : r.revisionDigest = lease.revisionDigest :=
    congrArg RunResult.revisionDigest hbuilt.same
  have himage : r.image = lease.revision.assignment.image := congrArg RunResult.image hbuilt.same
  have hresources : r.resources = lease.revision.assignment.resources :=
    congrArg RunResult.resources hbuilt.same
  constructor
  · rintro ⟨points, h⟩
    unfold RunResult.validate at h
    simp only [bind_ok, check_ok, Bool.and_eq_true, decide_eq_true_eq] at h
    obtain ⟨_, _, _, _, _, _, _, ⟨hcount, _⟩, _⟩ := h
    exact hcount
  · intro hcount
    have hall : (r.findings.all fun f =>
        Text.len f.path ≤ 1024 && Text.len f.reason ≤ 256) = true := by
      rw [List.all_eq_true]
      intro f hf
      obtain ⟨hpath, hreason⟩ := hsmall f hf
      simp only [hpath, hreason, decide_true, Bool.and_self]
    have hvisible : (lease.baseline.isNone ||
        r.logs.all fun log => !log.studentVisible) = true := by
      cases hbaseline : lease.baseline.isNone with
      | true => rfl
      | false =>
        rw [Bool.false_or, List.all_eq_true]
        intro log hlog
        rw [hhidden hbaseline log hlog]
        rfl
    unfold RunResult.validate
    simp only [bind_ok, check_ok, Bool.and_eq_true, decide_eq_true_eq]
    by_cases hscoring : r.status = .completed ∨ r.status = .invalidated
    · obtain ⟨hfindings, s, hscore, hinvalidated⟩ := hsettled.scored hscoring
      have hvalid := hbuilt.score s hscore
      refine ⟨if s.invalidated then none else some s.points, (), hrevision, (),
        ⟨⟨⟨⟨hversion, htoken⟩, hrun⟩, hsha⟩, hdigest⟩, (), ⟨himage, hresources⟩, (),
        ⟨hcount, hall⟩, (), ⟨hlogs.count, hlogs.total⟩, (), hvisible, ?_⟩
      rw [if_neg (by rcases hscoring with h | h <;> simp [h])]
      simp only [bind_ok, check_ok, fetchOne_ok, decide_eq_true_eq, pure_ok]
      exact ⟨(), hfindings, s, hscore, (), hvalid, (), hinvalidated, rfl⟩
    · obtain ⟨hscore, hfindings⟩ := hsettled.failed hscoring
      refine ⟨none, (), hrevision, (), ⟨⟨⟨⟨hversion, htoken⟩, hrun⟩, hsha⟩, hdigest⟩, (),
        ⟨himage, hresources⟩, (), ⟨hcount, hall⟩, (), ⟨hlogs.count, hlogs.total⟩, (), hvisible, ?_⟩
      rw [if_pos (by simpa using hscoring)]
      simp only [bind_ok, check_ok, pure_ok, hscore, Option.isNone_none, Bool.or_eq_true,
        decide_eq_true_eq]
      exact ⟨(), trivial, (), hfindings, trivial⟩

/-! ### Agreement -/

section Agreement
variable {x : Session} {lease : Lease}

omit [Sha256] in
theorem grade_findings {w : Surroundings} {snapshot : Snapshot} {r : RunResult}
    (h : w.grade lease snapshot = .ok r) : r.findings = [] := by
  unfold Surroundings.grade at h
  simp only [bind_ok] at h
  obtain ⟨_, _, outcome, _, h⟩ := h
  cases outcome with
  | scored score =>
    cases h
    rfl
  | failed status =>
    cases h
    rfl

variable (x lease) in
/-- The findings of a result are those of the check, or few. -/
theorem Session.findings_cases : (x.result lease).findings = [] ∨
    (x.result lease).findings = [unsafeTree] ∨
      ∃ snapshot, x.Checks lease snapshot ∧
        lease.revision.manifest.check snapshot = .ok (x.result lease).findings := by
  unfold Session.result Surroundings.execute
  split
  · rename_i result hresult
    dsimp only
    unfold Surroundings.executeInner at hresult
    split at hresult
    · cases hresult
      exact Or.inl rfl
    · simp only [bind_ok, check_ok, decide_eq_true_eq] at hresult
      obtain ⟨_, hseed, bytes, hbytes, _, hdigest, snapshot, hsnapshot, _, hsha, h⟩ := hresult
      split at h
      · cases h
        exact Or.inr (Or.inl rfl)
      · rename_i findings hfindings
        split at h
        · cases h
          refine Or.inr (Or.inr ⟨snapshot, ⟨hseed, ⟨bytes, hbytes, hdigest, hsnapshot⟩, hsha, ?_⟩,
            hfindings⟩)
          simp only [Manifest.check, bind_ok] at hfindings
          obtain ⟨_, _, _, hvalid, _⟩ := hfindings
          exact hvalid
        · exact Or.inl (grade_findings h)
  · exact Or.inl rfl

/-- **What is checked is reported.** -/
theorem Session.findings_of_checks (happrove : x.config.approve x.now lease = .ok ())
    {snapshot : Snapshot} (hchecks : x.Checks lease snapshot) {found : List Finding}
    (hfound : lease.revision.manifest.check snapshot = .ok found) :
    (x.result lease).findings = found := by
  obtain ⟨hseed, ⟨bytes, hbytes, hdigest, hsnapshot⟩, hsha, _⟩ := hchecks
  have hinner : (x.surroundings lease).executeInner lease =
      if found ≠ [] then
        .ok { initialResult lease with status := .integrityFailed, findings := found }
      else (x.surroundings lease).grade lease snapshot :=
    Surroundings.executeInner_of_found happrove hseed hbytes hdigest hsnapshot hsha hfound
  unfold Session.result Surroundings.execute
  rw [hinner]
  by_cases hne : found = []
  · rw [if_neg (not_not.mpr hne), hne]
    cases hgrade : (x.surroundings lease).grade lease snapshot with
    | ok r =>
      have hnone : r.findings = [] := grade_findings hgrade
      exact hnone
    | error e => rfl
  · rw [if_pos hne]

/-- The server counts the findings. -/
theorem Session.validate_result_iff (happrove : x.config.approve x.now lease = .ok ()) :
    (∃ points, (x.result lease).validate lease = .ok points) ↔
      (x.result lease).findings.length ≤ 10000 := by
  have hcontroller : ∀ status, (x.surroundings lease).controller = .ok (.failed status) →
      status = .timedOut := by
    intro status h
    have houtcome : x.outcome = .ok (.failed status) := h
    have hended := x.ended
    rw [houtcome] at hended
    exact Ending.outcome_failed hended
  obtain ⟨hbuilt, hlogs⟩ := execute_built (x.surroundings lease) lease
  refine validate_iff (Config.approve_ok happrove).2 hbuilt hlogs x.result_hidden
    (execute_settled hcontroller) ?_
  rcases x.findings_cases lease with hnil | hone | ⟨snapshot, _, hcheck⟩
  · intro f hf
    rw [hnil] at hf
    cases hf
  · intro f hf
    rw [hone] at hf
    rw [List.mem_singleton.mp hf]
    exact ⟨by decide +kernel, by decide +kernel⟩
  · exact Manifest.check_small hcheck

/-- What is checked is counted. -/
theorem Session.length_of_checks (happrove : x.config.approve x.now lease = .ok ())
    {snapshot : Snapshot} (hchecks : x.Checks lease snapshot) :
    (x.result lease).findings.length = lease.revision.manifest.departures snapshot := by
  have hmanifest := (Revision.validate_ok (Config.approve_ok happrove).2).2.1
  obtain ⟨found, hfound⟩ := Manifest.check_total hmanifest hchecks.wellFormed
  rw [x.findings_of_checks happrove hchecks hfound, Manifest.length_check hfound]

/-- **Executor and server agree on a result** unless the execution checks a
submission that departs from its manifest in more than 10000 files. -/
theorem Session.accepted_iff (x : Session) (lease : Lease)
    (happrove : x.config.approve x.now lease = .ok ()) :
    (∃ points, (x.result lease).validate lease = .ok points) ↔
      ∀ snapshot, x.Checks lease snapshot →
        lease.revision.manifest.departures snapshot ≤ 10000 := by
  rw [x.validate_result_iff happrove]
  constructor
  · intro hcount snapshot hchecks
    rw [← x.length_of_checks happrove hchecks]
    exact hcount
  · intro hdepartures
    rcases x.findings_cases lease with hnil | hone | ⟨snapshot, hchecks, _⟩
    · rw [hnil]
      exact Nat.zero_le _
    · rw [hone]
      exact Nat.le_of_ble_eq_true rfl
    · rw [x.length_of_checks happrove hchecks]
      exact hdepartures snapshot hchecks

end Agreement

end Executor

/-! ### A manifest in other words -/

namespace Revision

variable {r : Revision} {m : Manifest}

theorem size_with_manifest : ({ r with manifest := m } : Revision).toJson.size +
    r.manifest.toJson.size = r.toJson.size + m.toJson.size := by
  unfold Revision.toJson
  simp only [List.cons_append, Json.size_obj_cons, member, Json.membersSize_cons]
  omega

/-- A revision stays valid with another manifest of the same template. -/
theorem validate_with_manifest (h : r.validate = .ok ())
    (hcaching : r.grader.bind Grader.caching = none) (hm : m.validate = .ok ())
    (htemplate : m.templateRevision = r.assignment.templateRevision)
    (hpublic : m.files.keys.any (isPublicTest r.assignment) = true)
    (hsize : r.toJson.size + m.toJson.size ≤ 1900000) :
    ({ r with manifest := m } : Revision).validate = .ok () := by
  have hadd := size_with_manifest (r := r) (m := m)
  unfold Revision.validate at h ⊢
  simp only [bind_ok, check_ok, fetchOne_ok, decide_eq_true_eq] at h ⊢
  obtain ⟨_, hid, _, hassignment, _, htests, grader, hgrader, _, hvalid, h⟩ := h
  refine ⟨(), hid, (), hassignment, (), htests, grader, hgrader, (), hvalid, ?_⟩
  rw [hgrader, Option.bind_some] at hcaching
  rw [hcaching] at h ⊢
  simp only [bind_ok, check_ok, decide_eq_true_eq] at h ⊢
  obtain ⟨_, himage, _, hprofile, _⟩ := h
  refine ⟨(), himage, (), hprofile, (), hm, (), htemplate, (), hpublic, ?_⟩
  rw [length_toVec]
  omega

end Revision

namespace Sample

open Executor

attribute [local instance] Sha256.standard

def sharedImage : String :=
  "r/x/y@sha256:cccccccccccccccccccccccccccccccccccccccccccccccccccccccccccccccc"

/-- A small exercise, on the image of a registry. -/
def sharedRevision : Revision :=
  { openRevision with
    assignment := { openRevision.assignment with image := sharedImage }
    grader := openRevision.grader.map fun g => { g with image := sharedImage } }

def sharedGrader : Grader where
  caching := none
  repository := "o/g"
  revision := "bbbbbbbbbbbbbbbbbbbbbbbbbbbbbbbbbbbbbbbb"
  image := sharedImage
  sourceDigest := some "dddddddddddddddddddddddddddddddddddddddddddddddddddddddddddddddd"
  workflow := some ⟨["/g"], none⟩

theorem size_sharedRevision : sharedRevision.toJson.size ≤ 21000 := by
  have hmanifest : sharedRevision.manifest.toJson.size ≤ 1000 := by decide +kernel
  have hsize := Revision.size_of_texts (r := sharedRevision) (g := sharedGrader) rfl rfl
    (by decide +kernel) (by decide +kernel) (by decide +kernel) (by decide +kernel)
    (by decide +kernel)
  exact hsize.trans (Nat.add_le_add_right hmanifest 20000)

theorem sharedRevision_valid : sharedRevision.validate = .ok () := by
  have hgrader : sharedGrader.validate = .ok () := by decide +kernel
  have hassignment : sharedRevision.assignment.validate = .ok () := by decide +kernel
  have hmanifest : sharedRevision.manifest.validate = .ok () := by decide +kernel
  exact Revision.validate_of_parts (g := sharedGrader) rfl rfl (by decide +kernel) hassignment
    hgrader hmanifest ⟨rfl, rfl, rfl, rfl⟩ (by decide +kernel)
    (size_sharedRevision.trans (by decide))

/-- A protected file whose name is one character. -/
def page (i : Nat) : String := String.ofList [Char.ofNat (0x4e00 + i)]

def blank : ProtectedFile :=
  ⟨"100644", "eeeeeeeeeeeeeeeeeeeeeeeeeeeeeeeeeeeeeeeeeeeeeeeeeeeeeeeeeeeeeeee"⟩

theorem toNat_page {i : Nat} (h : i < 9999) : (Char.ofNat (0x4e00 + i)).toNat = 0x4e00 + i :=
  Utf8.toNat_ofNat (Or.inl (by omega))

theorem toList_page (i : Nat) : (page i).toList = [Char.ofNat (0x4e00 + i)] := String.toList_ofList

theorem page_lt {i j : Nat} (hij : i < j) (hj : j < 9999) : page i < page j := by
  have hlt : Char.ofNat (0x4e00 + i) < Char.ofNat (0x4e00 + j) := by
    apply UInt32.lt_iff_toNat_lt.mpr
    change (Char.ofNat (0x4e00 + i)).toNat < (Char.ofNat (0x4e00 + j)).toNat
    rw [toNat_page (hij.trans hj), toNat_page hj]
    omega
  rw [String.lt_iff_toList_lt, toList_page, toList_page]
  exact List.Lex.rel hlt

theorem pub_lt_page {i : Nat} (hi : i < 9999) : "pub/a" < page i := by
  have hlt : 'p' < Char.ofNat (0x4e00 + i) := by
    apply UInt32.lt_iff_toNat_lt.mpr
    change 'p'.toNat < (Char.ofNat (0x4e00 + i)).toNat
    rw [toNat_page hi]
    have hp : 'p'.toNat = 112 := rfl
    omega
  have hpub : "pub/a".toList = ['p', 'u', 'b', '/', 'a'] := rfl
  rw [String.lt_iff_toList_lt, toList_page, hpub]
  exact List.Lex.rel hlt

/-- A public test, and as many other files as a template may have with it. -/
def bookFiles : OrderedMap String ProtectedFile where
  entries := ("pub/a", blank) :: (List.range 9999).map fun i => (page i, blank)
  sorted := by
    rw [List.pairwise_cons]
    constructor
    · intro e he
      obtain ⟨i, hi, rfl⟩ := List.mem_map.mp he
      exact pub_lt_page (List.mem_range.mp hi)
    · rw [List.pairwise_map]
      exact List.pairwise_lt_range.imp_of_mem fun _ hj hij =>
        page_lt hij (List.mem_range.mp hj)

def book : Manifest := ⟨1, openTemplate.sha, [], bookFiles⟩

theorem mem_bookFiles {e : String × ProtectedFile} (h : e ∈ bookFiles.entries) :
    e = ("pub/a", blank) ∨ ∃ i < 9999, e = (page i, blank) := by
  rcases List.mem_cons.mp h with hpub | hpage
  · exact Or.inl hpub
  · obtain ⟨i, hi, rfl⟩ := List.mem_map.mp hpage
    exact Or.inr ⟨i, List.mem_range.mp hi, rfl⟩

/-- A path of one character that is not special. -/
theorem safePath_singleton {c : Char} (h : 0xa0 ≤ c.toNat) :
    safePath (String.ofList [c]) = .ok () := by
  have hne : ∀ d : Char, d.toNat < 0xa0 → c ≠ d := by
    rintro d hd rfl
    omega
  have hempty : String.ofList [c] ≠ "" := by
    intro heq
    have hlist := congrArg String.toList heq
    rw [String.toList_ofList] at hlist
    cases hlist
  have hlen : Text.len (String.ofList [c]) ≤ 1024 := by
    have hbytes := Json.utf8Len_le_length [c]
    rw [← utf8Len_toList, String.toList_ofList]
    rw [List.length_singleton] at hbytes
    omega
  have hcontains : ∀ d : Char, d.toNat < 0xa0 → Text.contains (String.ofList [c]) d = false := by
    intro d hd
    unfold Text.contains
    rw [String.toList_ofList, List.contains_eq_mem, decide_eq_false_iff_not, List.mem_singleton]
    exact (hne d hd).symm
  have hcontrol : Text.isControl c = false := by
    unfold Text.isControl
    rw [Bool.or_eq_false_iff, Bool.and_eq_false_iff]
    exact ⟨decide_eq_false (by omega), Or.inr (decide_eq_false (by omega))⟩
  have hsplit : Text.split (String.ofList [c]) '/' = [String.ofList [c]] := by
    unfold Text.split
    rw [String.toList_ofList, List.splitOn, List.splitOnP_eq_singleton]
    · rfl
    · intro d hd
      rw [List.mem_singleton.mp hd, beq_eq_false_iff_ne]
      exact hne '/' (by decide)
  have hpart : ∀ s : String, s.toList.length ≠ 1 ∨ s.toList = ['.'] → String.ofList [c] ≠ s := by
    rintro s hs rfl
    rw [String.toList_ofList] at hs
    rcases hs with hs | hs
    · exact hs rfl
    · exact hne '.' (by decide) (List.cons.inj hs).1
  have hgit : Text.eqIgnoreAsciiCase (String.ofList [c]) ".git" = false := by
    unfold Text.eqIgnoreAsciiCase
    rw [decide_eq_false_iff_not, String.toList_ofList]
    intro heq
    have hlength := congrArg List.length heq
    rw [List.length_map, List.length_map, List.length_singleton] at hlength
    exact absurd hlength (by decide)
  unfold safePath
  simp only [bind_ok, check_ok, hsplit, List.all_cons, List.all_nil, Bool.and_true,
    Bool.and_eq_true, decide_eq_true_eq, Bool.not_eq_true', hgit]
  refine ⟨(), ⟨⟨⟨hempty, hlen⟩, ?_⟩, ?_⟩, ⟨⟨hempty, hpart "." (Or.inr rfl)⟩,
    hpart ".." (Or.inl (by decide))⟩, trivial⟩
  · rw [hcontains '\\' (by decide), hcontains '\x00' (by decide), hcontains ':' (by decide)]
    rfl
  · rw [String.toList_ofList, List.any_cons, hcontrol]
    rfl

theorem blank_checked : Text.validHex blank.sha256 64 = true ∧ regularMode blank.mode = true ∧
    blank.toJson.size = 93 := by
  decide +kernel

theorem book_valid : book.validate = .ok () := by
  unfold Manifest.validate
  simp only [bind_ok, check_ok, each_ok]
  obtain ⟨hdigest, hmode, _⟩ := blank_checked
  refine ⟨(), by decide, (), fun area harea => (by cases harea), fun e he => ?_⟩
  rcases mem_bookFiles he with rfl | ⟨i, hi, rfl⟩
  · exact Manifest.validateFile_ok.mpr ⟨by decide, rfl, hdigest, hmode⟩
  · refine Manifest.validateFile_ok.mpr ⟨safePath_singleton ?_, rfl, hdigest, hmode⟩
    rw [toNat_page hi]
    omega

theorem size_pages (l : List Nat) :
    Json.membersSize ((l.map fun i => (page i, blank)).map fun e => member e.1 e.2.toJson) ≤
      121 * l.length := by
  have hblank := blank_checked.2.2
  induction l with
  | nil => exact Nat.zero_le _
  | cons i l ih =>
    have hkey := Json.strSize_le_length (page i).toList
    rw [toList_page, List.length_singleton] at hkey
    rw [List.map_cons, List.map_cons, Json.membersSize_cons, member, List.length_cons]
    dsimp only
    rw [toList_page]
    omega

theorem size_entries (l : List Nat) : Json.membersSize
    ((("pub/a", blank) :: l.map fun i => (page i, blank)).map fun e => member e.1 e.2.toJson) ≤
      121 * l.length + 202 := by
  have hpages := size_pages l
  have hpub : Json.strSize "pub/a".toList = 7 := by decide
  have hblank := blank_checked.2.2
  rw [List.map_cons, Json.membersSize_cons, member]
  dsimp only
  omega

theorem length_entries (l : List Nat) :
    (("pub/a", blank) :: l.map fun i => (page i, blank)).length = l.length + 1 := by
  rw [List.length_cons, List.length_map]

/-- The book fits into an exercise. -/
theorem size_book : book.toJson.size ≤ 1300000 := by
  have hsize := Manifest.size_le book
  have hfiles : Json.membersSize (book.files.entries.map fun e => member e.1 e.2.toJson) ≤
      121 * (List.range 9999).length + 202 := size_entries (List.range 9999)
  rw [List.length_range] at hfiles
  have hrevision := size_stringJson_le book.templateRevision
  have hlen : Text.len book.templateRevision = 40 := by decide
  have hfixed : (natJson book.schemaVersion).size = 1 ∧ (stringsJson book.editable).size = 2 := by
    decide
  omega

def bookRevision : Revision := { sharedRevision with manifest := book }

theorem bookRevision_valid : bookRevision.validate = .ok () := by
  have hshared := size_sharedRevision
  have hbook := size_book
  refine Revision.validate_with_manifest sharedRevision_valid rfl book_valid rfl ?_ (by omega)
  exact List.any_eq_true.mpr ⟨"pub/a", List.mem_cons_self, by decide⟩

/-! ### An executor and its leases -/

def sharedConfig : Config :=
  ⟨"grading", "gvisor", "staging", some ⟨"r/x", [sharedImage], ⟨1, 1, 1⟩, 1⟩⟩

/-- A public lease of a revision, for a submission. -/
def leaseOf (r : Revision) (snapshot : Snapshot) : Lease where
  schemaVersion := 1
  taskId := 0
  runId := 1
  leaseToken := 2
  expiresAt := 0
  sha := snapshot.sha
  revisionDigest := r.digest
  sourceDigest := digest (toVec snapshot.toJson)
  revision := r
  baseline := none

theorem approve_leaseOf {r : Revision} (snapshot : Snapshot) (hvalid : r.validate = .ok ())
    (hassignment : r.assignment = sharedRevision.assignment)
    (hgrader : r.grader = sharedRevision.grader) :
    sharedConfig.approve 0 (leaseOf r snapshot) = .ok () := by
  unfold Config.approve leaseOf
  simp only [bind_ok, check_ok, hassignment, hgrader]
  refine ⟨(), by simp, (), hvalid, (), by decide +kernel, (), by decide +kernel, ?_⟩
  decide +kernel

/-- An executor that downloads a submission. -/
def downloading (snapshot : Snapshot) : Session where
  config := sharedConfig
  now := 0
  verify _ := .ok ()
  source := .ok (toVec snapshot.toJson)
  decode _ := .ok snapshot
  stage _ := .ok ()
  fromStr _ := none
  ending := .served [.outOfTime]
  outcome := .ok (.failed .timedOut)
  ended := rfl
  decodeScore _ := .error .json
  texts := []
  describe _ := ("submission_download", "unavailable")

/-- A submission that lacks the files of the template, and has one of its own. -/
def emptied : Snapshot := ⟨openTemplate.sha, .ofList [("solution", ⟨"100644", ""⟩)]⟩

theorem get?_emptied {path : String} (h : path ≠ "solution") : emptied.files.get? path = none := by
  have hentries : emptied.files.entries = [("solution", ⟨"100644", ""⟩)] := rfl
  unfold OrderedMap.get?
  rw [hentries, List.find?_cons_of_neg (by simpa using h.symm)]
  rfl

theorem bookFiles_ne {e : String × ProtectedFile} (h : e ∈ book.files.entries) :
    e.1 ≠ "solution" := by
  intro heq
  have hlength := congrArg (fun path => path.toList.length) heq
  rcases mem_bookFiles h with rfl | ⟨i, _, rfl⟩
  · exact absurd hlength (by decide)
  · dsimp only at hlength
    rw [toList_page, List.length_singleton] at hlength
    exact absurd hlength (by decide)

theorem departs_emptied {e : String × ProtectedFile} (h : e ∈ book.files.entries) :
    Manifest.departs emptied e = true := by
  unfold Manifest.departs
  rw [get?_emptied (bookFiles_ne h)]

theorem countP_emptied : book.files.entries.countP (Manifest.departs emptied) = 10000 := by
  have hlength := length_entries (List.range 9999)
  rw [List.length_range] at hlength
  rw [List.countP_eq_length.mpr fun _ => departs_emptied]
  exact hlength

theorem unexpected_emptied : (book.unexpected "solution" ⟨"100644", ""⟩).isSome = true := by
  have hadded : book.files.contains "solution" = false := by
    unfold OrderedMap.contains
    rw [List.any_eq_false]
    intro e he
    rw [decide_eq_true_eq]
    exact bookFiles_ne he
  unfold Manifest.unexpected
  rw [hadded]
  rfl

/-- All files of the template are missing, and one is added. -/
theorem departures_emptied : book.departures emptied = 10001 := by
  have hentries : emptied.files.entries = [("solution", ⟨"100644", ""⟩)] := rfl
  rw [Manifest.departures, countP_emptied, hentries, List.countP_singleton,
    if_pos unexpected_emptied]

theorem emptied_checks : (downloading emptied).Checks (leaseOf bookRevision emptied) emptied where
  seed := rfl
  download := ⟨_, rfl, rfl, rfl⟩
  sha := rfl
  wellFormed := by decide

/-- The server rejects a result because of its findings. -/
theorem findings_rejected : ¬∀ (x : Session) (lease : Lease),
    x.config.approve x.now lease = .ok () →
    (∀ bytes snapshot, x.source = .ok bytes → x.decode bytes = .ok snapshot →
      snapshot.files.size ≤ 512) →
    ∃ points, (x.result lease).validate lease = .ok points := by
  intro h
  have happrove : (downloading emptied).config.approve (downloading emptied).now
      (leaseOf bookRevision emptied) = .ok () :=
    approve_leaseOf emptied bookRevision_valid rfl rfl
  have hsize : ∀ bytes snapshot, (downloading emptied).source = .ok bytes →
      (downloading emptied).decode bytes = .ok snapshot → snapshot.files.size ≤ 512 := by
    intro bytes snapshot _ hdecode
    cases hdecode
    decide
  have haccepted := h _ _ happrove hsize
  rw [Session.validate_result_iff happrove,
    Session.length_of_checks happrove emptied_checks] at haccepted
  have hdepartures : (leaseOf bookRevision emptied).revision.manifest.departures emptied = 10001 :=
    departures_emptied
  omega

/-- A submission that keeps the only protected file is graded until its time is over. -/
theorem accepted_openTemplate : ∃ points,
    ((downloading openTemplate).result (leaseOf sharedRevision openTemplate)).validate
      (leaseOf sharedRevision openTemplate) = .ok points := by
  have happrove : (downloading openTemplate).config.approve (downloading openTemplate).now
      (leaseOf sharedRevision openTemplate) = .ok () :=
    approve_leaseOf openTemplate sharedRevision_valid rfl rfl
  refine (Session.accepted_iff _ _ happrove).mpr fun snapshot hchecks => ?_
  obtain ⟨_, ⟨_, _, _, hdecode⟩, _, _⟩ := hchecks
  cases hdecode
  have hfiles : sharedRevision.manifest.files.size + openTemplate.files.size ≤ 10000 := by decide
  exact Manifest.departures_le.trans hfiles

end Sample

end Grading

import SrgGrading.Store.Closure

/-!
# Which receipt is graded

`close` freezes the newest submission.  `record` gives a receipt no submission
of its own when the newest one has its SHA, so the newest submission can be
older than the latest receipt it stands for; a receipt recorded late can then
fall between the two.

* `newest_concat`: how an insertion changes the newest submission.
* `freezesLatest_step`: a receipt keeps the latest SHA unless it overtakes.
* `freezes_latest_iff`: over any series of receipts.
-/

open Fallible Relational

namespace Grading

/-- The arguments of a call of `record`. -/
structure Receipt where
  now : Time
  fresh : Nat → Uuid
  tie : Uuid → Nat
  repository : Uuid
  sha : String
  received : Time
  source : EventSource
  delivery : Option Uuid

/-- The receipt is recorded. -/
def Records (s : Store) (a : Receipt) (s' : Store) : Prop :=
  ∃ out, Submissions.record s a.now a.fresh a.tie a.repository a.sha a.received a.source a.delivery
    = .ok (s', out)

/-- The receipt is one of `repository`, and it counts. -/
def Receipt.countsFor (a : Receipt) (s : Store) (repository : Uuid) : Prop :=
  a.repository = repository ∧
    ∃ p, s.fetchPinned repository = .ok p ∧ Submissions.eligible p a.received a.source = true

/-- The event with the greatest `received_at`. -/
def Latest (events : List SubmissionEvent) (e : SubmissionEvent) : Prop :=
  e ∈ events ∧ ∀ f ∈ events, f.receivedAt ≤ e.receivedAt

/-- `close` would freeze a submission with the SHA of the latest eligible event. -/
def FreezesLatest (s : Store) (repository : Uuid) : Prop :=
  ∀ e, Latest (s.eligibleEvents repository) e →
    ∀ now, ∀ r ∈ (Submissions.freeze s now repository).repositories, r.id = repository →
      ∃ x ∈ s.submissions, r.finalSubmissionId = some x.id ∧ x.sha = e.sha

/-- The receipt gets a submission that becomes the newest, and an eligible
receipt later than it is already recorded. -/
def Overtakes (repository : Uuid) (s : Store) (a : Receipt) : Prop :=
  a.countsFor s repository ∧
    (∃ x, s.newest repository = some x ∧ x.sha ≠ a.sha ∧ x.receivedAt < timestamptz a.received) ∧
    ∃ e ∈ s.eligibleEvents repository, timestamptz a.received < e.receivedAt

/-! ### One receipt -/

section Step
variable {s s' : Store} {a : Receipt} {repository : Uuid}

/-- What a receipt does to the submissions and eligible events of a repository. -/
inductive ReceiptCase (s s' : Store) (a : Receipt) (repository : Uuid) : Prop
  | other (hnot : ¬ a.countsFor s repository)
      (hevents : s'.eligibleEvents repository = s.eligibleEvents repository)
      (hsubs : s'.submissionsOf repository = s.submissionsOf repository)
  | merged (e : SubmissionEvent) (x : Submission) (hcounts : a.countsFor s repository)
      (he : e.receivedAt = timestamptz a.received ∧ e.sha = a.sha)
      (hevents : s'.eligibleEvents repository = s.eligibleEvents repository ++ [e])
      (hsubs : s'.submissionsOf repository = s.submissionsOf repository)
      (hx : s.newest repository = some x) (hsha : x.sha = a.sha)
  | inserted (e : SubmissionEvent) (y : Submission) (hcounts : a.countsFor s repository)
      (he : e.receivedAt = timestamptz a.received ∧ e.sha = a.sha)
      (hy : y.receivedAt = timestamptz a.received ∧ y.sha = a.sha)
      (hevents : s'.eligibleEvents repository = s.eligibleEvents repository ++ [e])
      (hsubs : s'.submissionsOf repository = s.submissionsOf repository ++ [y])
      (hsha : ∀ x, s.newest repository = some x → x.sha ≠ a.sha)

theorem Records.cases (h : Records s a s') (repository : Uuid) :
    ReceiptCase s s' a repository := by
  obtain ⟨out, h⟩ := h
  obtain ⟨p, hp, hevents, hsubs⟩ := record_cases h
  by_cases hrep : a.repository = repository
  · subst hrep
    have hevents' : s'.eligibleEvents a.repository = s.eligibleEvents a.repository ++
        [⟨a.fresh 0, a.repository, a.sha, timestamptz a.received, a.source,
          Submissions.eligible p a.received a.source, a.delivery⟩].filter fun e => e.eligible := by
      rw [Store.eligibleEvents, hevents, List.filter_append, Store.eligibleEvents]
      congr 1
      rw [List.filter_singleton, List.filter_singleton, decide_eq_true rfl, Bool.true_and]
    by_cases hyes : Submissions.eligible p a.received a.source = true
    · have hcounts : a.countsFor s a.repository := ⟨rfl, p, hp, hyes⟩
      rw [List.filter_singleton, hyes] at hevents'
      rcases hsubs with ⟨hsame, hmerge⟩ | ⟨_, hdiff, hnew⟩
      · obtain ⟨x, hx, hsha⟩ := hmerge hyes
        refine .merged ⟨a.fresh 0, a.repository, a.sha, timestamptz a.received, a.source, _,
          a.delivery⟩ x hcounts ⟨rfl, rfl⟩ hevents' ?_ hx hsha
        rw [Store.submissionsOf, hsame, Store.submissionsOf]
      · refine .inserted ⟨a.fresh 0, a.repository, a.sha, timestamptz a.received, a.source, _,
          a.delivery⟩ ⟨a.fresh 1, a.repository, a.fresh 0, a.sha, timestamptz a.received, none⟩
          hcounts ⟨rfl, rfl⟩ ⟨rfl, rfl⟩ hevents' ?_ hdiff
        rw [Store.submissionsOf, hnew, List.filter_append, List.filter_singleton,
          decide_eq_true rfl]
        rfl
    · have hno : ¬ a.countsFor s a.repository := by
        rintro ⟨_, q, hq, hyes'⟩
        rw [hp] at hq
        cases hq
        exact hyes hyes'
      rw [Bool.not_eq_true] at hyes
      rw [List.filter_singleton, hyes] at hevents'
      refine .other hno (hevents'.trans (List.append_nil _)) ?_
      rcases hsubs with ⟨hsame, _⟩ | ⟨hyes', _⟩
      · rw [Store.submissionsOf, hsame, Store.submissionsOf]
      · rw [hyes] at hyes'
        cases hyes'
  · refine .other (fun hc => hrep hc.1) ?_ ?_
    · rw [Store.eligibleEvents, hevents, List.filter_append, List.filter_singleton,
        decide_eq_false hrep, Bool.false_and]
      exact List.append_nil _
    · rcases hsubs with ⟨hsame, _⟩ | ⟨_, _, hnew⟩
      · rw [Store.submissionsOf, hsame, Store.submissionsOf]
      · rw [Store.submissionsOf, hnew, List.filter_append, List.filter_singleton,
          decide_eq_false hrep]
        exact List.append_nil _

end Step

/-! ### The newest submission -/

/-- The order of `newest`. -/
def Submission.order (x : Submission) : Int ×ₗ Uuid := toLex (x.receivedAt, x.id)

theorem newest_eq {s : Store} {repository : Uuid} :
    s.newest repository = (s.submissionsOf repository).argmax Submission.order := rfl

/-- **A submission inserted last** becomes the newest when it is later. -/
theorem newest_concat {s s' : Store} {repository : Uuid} {x y : Submission}
    (hsubs : s'.submissionsOf repository = s.submissionsOf repository ++ [y])
    (hx : s.newest repository = some x) (hne : x.receivedAt ≠ y.receivedAt) :
    s'.newest repository = if x.receivedAt < y.receivedAt then some y else some x := by
  rw [newest_eq] at hx
  rw [newest_eq, hsubs, List.argmax_concat, hx]
  have hlt : x.order < y.order ↔ x.receivedAt < y.receivedAt := by
    rw [Submission.order, Submission.order, Prod.Lex.toLex_lt_toLex]
    simp only [hne, false_and, or_false]
  simp only [hlt]

theorem newest_concat_none {s s' : Store} {repository : Uuid} {y : Submission}
    (hsubs : s'.submissionsOf repository = s.submissionsOf repository ++ [y])
    (hx : s.newest repository = none) : s'.newest repository = some y := by
  rw [newest_eq] at hx
  rw [newest_eq, hsubs, List.argmax_concat, hx]

/-- Every submission has an eligible event of its time, and where there is such
an event there is a submission. -/
structure Traced (s : Store) (repository : Uuid) : Prop where
  event : ∀ x ∈ s.submissionsOf repository,
    ∃ e ∈ s.eligibleEvents repository, e.receivedAt = x.receivedAt
  submission : ∀ e ∈ s.eligibleEvents repository, s.submissionsOf repository ≠ []

section Step
variable {s s' : Store} {a : Receipt} {repository : Uuid}

theorem Records.traced (h : Records s a s') (ht : Traced s repository) :
    Traced s' repository := by
  rcases h.cases repository with ⟨_, hevents, hsubs⟩ | ⟨e, x, _, _, hevents, hsubs, hx, _⟩ |
    ⟨e, y, _, he, hy, hevents, hsubs, _⟩
  · exact ⟨by rw [hsubs, hevents]; exact ht.event, by rw [hsubs, hevents]; exact ht.submission⟩
  · constructor
    · rw [hsubs, hevents]
      intro z hz
      obtain ⟨f, hf, hfz⟩ := ht.event z hz
      exact ⟨f, List.mem_append_left _ hf, hfz⟩
    · rw [hsubs]
      intro _ _ hnil
      have hmem := List.argmax_mem (newest_eq ▸ hx)
      rw [hnil] at hmem
      cases hmem
  · constructor
    · rw [hsubs, hevents]
      intro z hz
      rcases List.mem_append.mp hz with h1 | h1
      · obtain ⟨f, hf, hfz⟩ := ht.event z h1
        exact ⟨f, List.mem_append_left _ hf, hfz⟩
      · rw [List.mem_singleton] at h1
        exact ⟨e, List.mem_append_right _ (List.mem_singleton_self e), by rw [h1, he.1, hy.1]⟩
    · rw [hsubs]
      intro _ _
      exact List.append_ne_nil_of_right_ne_nil _ (List.cons_ne_nil _ _)

/-- The newest submission has the SHA of the latest event. -/
def NewestLatest (s : Store) (repository : Uuid) : Prop :=
  ∀ e, Latest (s.eligibleEvents repository) e →
    ∃ x, s.newest repository = some x ∧ x.sha = e.sha

/-- What `freeze` writes, by the newest submission. -/
theorem freezesLatest_iff (hk : Keys s) (hr : ∃ r ∈ s.repositories, r.id = repository) :
    FreezesLatest s repository ↔ NewestLatest s repository := by
  constructor
  · intro h e he
    obtain ⟨r, hr, hid⟩ := hr
    have hmem : r.closeWith ((s.newest repository).map Submission.id) ∈
        (Submissions.freeze s 0 repository).repositories := by
      rw [freeze_repositories]
      exact mem_updateWhere_of_pos hr (decide_eq_true hid)
    obtain ⟨x, hx, hfinal, hsha⟩ := h e he 0 _ hmem hid
    obtain ⟨y, hy, hyx⟩ := Option.map_eq_some_iff.mp
      (show (s.newest repository).map Submission.id = some x.id from hfinal)
    rw [hk.submissions.eq (Store.newest_mem hy).1 hx hyx] at hy
    exact ⟨x, hy, hsha⟩
  · intro h e he now r hr hid
    obtain ⟨x, hx, hsha⟩ := h e he
    refine ⟨x, (Store.newest_mem hx).1, ?_, hsha⟩
    rw [freeze_repositories] at hr
    obtain ⟨q, _, rfl⟩ := mem_updateWhere.mp hr
    have hq : q.id = repository := by
      split at hid <;> exact hid
    rw [if_pos (decide_eq_true hq), hx]
    rfl

theorem Records.exists_repository (h : Records s a s') (hr : ∃ r ∈ s.repositories, r.id = repository) :
    ∃ r ∈ s'.repositories, r.id = repository := by
  obtain ⟨_, h⟩ := h
  obtain ⟨r, hr, hid⟩ := hr
  obtain ⟨r', hr', hid', _⟩ := (Continues.record h).repositories.old hr
  exact ⟨r', hr', hid'.trans hid⟩

theorem Records.keys (h : Records s a s') (hk : Keys s) : Keys s' := by
  obtain ⟨_, h⟩ := h
  exact (Continues.record h).keys hk

theorem exists_latest {events : List SubmissionEvent} (h : events ≠ []) :
    ∃ e, Latest events e := by
  cases hmax : events.argmax SubmissionEvent.receivedAt with
  | none => exact absurd (List.argmax_eq_none.mp hmax) h
  | some e => exact ⟨e, List.argmax_mem hmax, fun f hf => List.le_of_mem_argmax hf hmax⟩

/-- The latest of the earlier events, if the last one is not it. -/
theorem Latest.of_concat {events : List SubmissionEvent} {e f : SubmissionEvent}
    (hf : Latest (events ++ [e]) f) (hne : f ≠ e) : Latest events f := by
  refine ⟨?_, fun g hg => hf.2 g (List.mem_append_left _ hg)⟩
  rcases List.mem_append.mp hf.1 with h1 | h1
  · exact h1
  · exact absurd (List.mem_singleton.mp h1) hne

/-- The latest of the earlier events, if the last one is not later. -/
theorem Latest.concat {events : List SubmissionEvent} {e f : SubmissionEvent}
    (hf : Latest events f) (hle : e.receivedAt ≤ f.receivedAt) : Latest (events ++ [e]) f := by
  refine ⟨List.mem_append_left _ hf.1, fun g hg => ?_⟩
  rcases List.mem_append.mp hg with h1 | h1
  · exact hf.2 g h1
  · rw [List.mem_singleton.mp h1]
    exact hle

/-! How the newest submission and the latest event change with a receipt. -/

section Concat
variable {e g : SubmissionEvent} {x y : Submission}

/-- The newest submission stands for the receipt too. -/
theorem newestLatest_merged (hfl : NewestLatest s repository)
    (hevents : s'.eligibleEvents repository = s.eligibleEvents repository ++ [e])
    (hnewest : s'.newest repository = s.newest repository) (hx : s.newest repository = some x)
    (hsha : x.sha = e.sha) : NewestLatest s' repository := by
  intro f hf
  rw [hevents] at hf
  rw [hnewest]
  by_cases hfe : f = e
  · exact ⟨x, hx, by rw [hfe, hsha]⟩
  · exact hfl f (hf.of_concat hfe)

/-- The receipt is later than the others, and has the newest submission. -/
theorem newestLatest_later
    (hevents : s'.eligibleEvents repository = s.eligibleEvents repository ++ [e])
    (hnewest : s'.newest repository = some y) (hsha : y.sha = e.sha)
    (hlast : ∀ f ∈ s.eligibleEvents repository, f.receivedAt < e.receivedAt) :
    NewestLatest s' repository := by
  intro f hf
  rw [hevents] at hf
  have hfe : f = e := by
    by_contra hne
    have hle := hf.2 e (List.mem_append_right _ (List.mem_singleton_self e))
    exact absurd (hlast f (hf.of_concat hne).1) (not_lt.mpr hle)
  exact ⟨y, hnewest, by rw [hfe, hsha]⟩

/-- There is a later event, and the newest submission stays. -/
theorem newestLatest_earlier (hfl : NewestLatest s repository)
    (hevents : s'.eligibleEvents repository = s.eligibleEvents repository ++ [e])
    (hnewest : s'.newest repository = s.newest repository)
    (hg : g ∈ s.eligibleEvents repository) (hlt : e.receivedAt < g.receivedAt) :
    NewestLatest s' repository := by
  intro f hf
  rw [hevents] at hf
  have hfe : f ≠ e := by
    rintro rfl
    exact absurd (hf.2 g (List.mem_append_left _ hg)) (not_le.mpr hlt)
  rw [hnewest]
  exact hfl f (hf.of_concat hfe)

/-- There is a later event, which has the SHA of the submission that was the newest. -/
theorem not_newestLatest (hfl : NewestLatest s repository)
    (hevents : s'.eligibleEvents repository = s.eligibleEvents repository ++ [e])
    (hnewest : s'.newest repository = some y) (hx : s.newest repository = some x)
    (hsha : x.sha ≠ y.sha) (hg : g ∈ s.eligibleEvents repository)
    (hlt : e.receivedAt < g.receivedAt) : ¬ NewestLatest s' repository := by
  intro hnew
  obtain ⟨m, hm⟩ := exists_latest (List.ne_nil_of_mem hg)
  obtain ⟨x', hx', hmsha⟩ := hfl m hm
  have hlatest : Latest (s'.eligibleEvents repository) m := by
    rw [hevents]
    exact hm.concat (le_of_lt (lt_of_lt_of_le hlt (hm.2 g hg)))
  obtain ⟨y', hy', hysha⟩ := hnew m hlatest
  rw [hx, Option.some_inj] at hx'
  rw [hnewest, Option.some_inj] at hy'
  exact hsha (by rw [hx', hmsha, ← hysha, ← hy'])

end Concat

/-- **A receipt keeps the latest SHA unless it overtakes.** -/
theorem freezesLatest_step (hk : Keys s) (ht : Traced s repository)
    (hr : ∃ r ∈ s.repositories, r.id = repository) (h : Records s a s')
    (hd : Keyed SubmissionEvent.receivedAt (s'.eligibleEvents repository))
    (hfl : FreezesLatest s repository) :
    FreezesLatest s' repository ↔ ¬ Overtakes repository s a := by
  rw [freezesLatest_iff hk hr] at hfl
  rw [freezesLatest_iff (h.keys hk) (h.exists_repository hr)]
  rcases h.cases repository with ⟨hnot, hevents, hsubs⟩ |
    ⟨e, x, hcounts, he, hevents, hsubs, hx, hsha⟩ | ⟨e, y, hcounts, he, hy, hevents, hsubs, hsha⟩
  · -- a receipt that does not count changes nothing
    refine ⟨fun _ ho => hnot ho.1, fun _ => ?_⟩
    rw [NewestLatest, newest_eq, hsubs, hevents]
    exact hfl
  · have hnewest : s'.newest repository = s.newest repository := by
      rw [newest_eq, hsubs, newest_eq]
    refine ⟨?_, fun _ => newestLatest_merged hfl hevents hnewest hx (hsha.trans he.2.symm)⟩
    rintro _ ⟨_, ⟨x', hx', hsha', _⟩, _⟩
    rw [hx, Option.some_inj] at hx'
    exact hsha' (hx' ▸ hsha)
  · have hye : y.sha = e.sha := hy.2.trans he.2.symm
    cases hx : s.newest repository with
    | none =>
      -- the first submission of the repository
      have hnil : s.eligibleEvents repository = [] := by
        by_contra hne
        obtain ⟨d, hdmem⟩ := List.exists_mem_of_ne_nil _ hne
        exact ht.submission d hdmem (List.argmax_eq_none.mp (newest_eq ▸ hx))
      refine ⟨?_, fun _ => newestLatest_later hevents (newest_concat_none hsubs hx) hye ?_⟩
      · rintro _ ⟨_, ⟨x', hx', _⟩, _⟩
        rw [hx] at hx'
        cases hx'
      · rw [hnil]
        exact fun f hf => absurd hf List.not_mem_nil
    | some x =>
      have hxsha := hsha x hx
      obtain ⟨d, hdmem, hdx⟩ := ht.event x (List.argmax_mem (newest_eq ▸ hx))
      rw [hevents, Keyed, List.map_append, List.nodup_append] at hd
      -- received times differ, so an old event is not the new one
      have hold : ∀ f ∈ s.eligibleEvents repository, f.receivedAt ≠ e.receivedAt := fun f hf =>
        hd.2.2 _ (List.mem_map_of_mem hf) _ (List.mem_singleton_self _)
      have hne : x.receivedAt ≠ y.receivedAt := by
        rw [← hdx, hy.1, ← he.1]
        exact hold d hdmem
      have hnewest := newest_concat hsubs hx hne
      by_cases hlt : x.receivedAt < y.receivedAt
      · rw [if_pos hlt] at hnewest
        by_cases hlater : ∃ g ∈ s.eligibleEvents repository, timestamptz a.received < g.receivedAt
        · -- it overtakes
          obtain ⟨g, hg, hgt⟩ := hlater
          rw [← he.1] at hgt
          have hbroken := not_newestLatest hfl hevents hnewest hx (hy.2 ▸ hxsha) hg hgt
          exact ⟨fun hnew => absurd hnew hbroken, fun hno =>
            absurd ⟨hcounts, ⟨x, hx, hxsha, hy.1 ▸ hlt⟩, g, hg, he.1 ▸ hgt⟩ hno⟩
        · -- it is the latest itself
          refine ⟨fun _ ho => hlater ho.2.2, fun _ => newestLatest_later hevents hnewest hye ?_⟩
          intro f hf
          refine lt_of_le_of_ne (not_lt.mp fun hgt => ?_) (hold f hf)
          exact hlater ⟨f, hf, he.1 ▸ hgt⟩
      · -- an older submission: the newest stays, and so does the latest event
        rw [if_neg hlt, ← hx] at hnewest
        refine ⟨?_, fun _ => newestLatest_earlier hfl hevents hnewest hdmem ?_⟩
        · rintro _ ⟨_, ⟨x', hx', _, hlt'⟩, _⟩
          rw [hx, Option.some_inj] at hx'
          rw [← hx', ← hy.1] at hlt'
          exact hlt hlt'
        · rw [he.1, ← hy.1, hdx]
          exact lt_of_le_of_ne (not_lt.mp hlt) hne.symm

theorem Records.keyed_events (h : Records s a s')
    (hd : Keyed SubmissionEvent.receivedAt (s'.eligibleEvents repository)) :
    Keyed SubmissionEvent.receivedAt (s.eligibleEvents repository) := by
  have hconcat : ∀ e, s'.eligibleEvents repository = s.eligibleEvents repository ++ [e] →
      Keyed SubmissionEvent.receivedAt (s.eligibleEvents repository) := by
    intro e he
    rw [he, Keyed, List.map_append, List.nodup_append] at hd
    exact hd.1
  rcases h.cases repository with ⟨_, hevents, _⟩ | ⟨e, _, _, _, hevents, _⟩ |
    ⟨e, _, _, _, _, hevents, _⟩
  · rw [← hevents]
    exact hd
  · exact hconcat e hevents
  · exact hconcat e hevents

end Step

/-! ### A series of receipts -/

section Series
variable {s s' : Store} {taken : List (Store × Receipt)} {repository : Uuid}

/-- What every receipt keeps. -/
structure Receiving (s : Store) (repository : Uuid) : Prop where
  keys : Keys s
  traced : Traced s repository
  row : ∃ r ∈ s.repositories, r.id = repository ∧ r.closureDue = false

theorem Records.receiving {a : Receipt} (h : Records s a s') (hs : Receiving s repository) :
    Receiving s' repository := by
  refine ⟨h.keys hs.keys, h.traced hs.traced, ?_⟩
  obtain ⟨_, h⟩ := h
  obtain ⟨r, hr, hid, hopen⟩ := hs.row
  obtain ⟨r', hr', hid', _, hsame, _⟩ := (Continues.record h).repositories.old hr
  exact ⟨r', hr', hid'.trans hid, hsame.trans hopen⟩

theorem receiving_of_run (hrun : Transition.Run Records s taken s') (hs : Receiving s repository) :
    Receiving s' repository :=
  hrun.invariant (I := fun s => Receiving s repository)
    (fun _ _ _ ht h => Records.receiving h ht) hs

/-- A repository without a receipt. -/
theorem freezesLatest_of_nil (h : s.eligibleEvents repository = []) :
    FreezesLatest s repository := by
  intro e he
  rw [h] at he
  cases he.1

theorem freezesLatest_iff_of_run (hs : Receiving s repository)
    (hnone : s.eligibleEvents repository = []) (hrun : Transition.Run Records s taken s')
    (hd : Keyed SubmissionEvent.receivedAt (s'.eligibleEvents repository)) :
    ((∀ p ∈ taken, FreezesLatest p.1 repository) ∧ FreezesLatest s' repository) ↔
      ∀ p ∈ taken, ¬ Overtakes repository p.1 p.2 := by
  refine hrun.exact_of_step (fun t a => ¬ Overtakes repository t a)
    (I := fun t => FreezesLatest t repository) (J := fun t => Receiving t repository)
    (Q := fun t => Keyed SubmissionEvent.receivedAt (t.eligibleEvents repository))
    (fun _ _ _ ht h => Records.receiving h ht) (fun _ _ _ h => Records.keyed_events h)
    (fun t a u ht hd hfl h => ?_) hs (freezesLatest_of_nil hnone) hd
  obtain ⟨r, hr, hid, _⟩ := ht.row
  exact freezesLatest_step ht.keys ht.traced ⟨r, hr, hid⟩ h hd hfl

/-- `close` freezes what `freeze` does. -/
theorem close_freezesLatest (hk : Keys s) {r : StudentRepository} (hr : r ∈ s.repositories)
    (hid : r.id = repository) (hopen : r.closureDue = false) (hfl : FreezesLatest s repository)
    {now : Time} {fresh : Nat → Uuid} (h : Submissions.close s now fresh repository = .ok s')
    {r' : StudentRepository} (hr' : r' ∈ s'.repositories) (hid' : r'.id = repository)
    (hclosed : r'.closureDue = true) {e : SubmissionEvent}
    (he : Latest (s.eligibleEvents repository) e) :
    ∃ x ∈ s.submissions, r'.finalSubmissionId = some x.id ∧ x.sha = e.sha := by
  obtain ⟨p, _, _, _, _, hc | ⟨_, _, hrep, _⟩⟩ := close_cases hk.repositories h
  · obtain ⟨r'', hr'', hid'', _, hsame, _⟩ := hc.repositories.old hr
    have hrr : r'' = r' :=
      (hc.keys hk).repositories.eq hr'' hr' (hid''.trans (hid.trans hid'.symm))
    rw [← hrr, hsame, hopen] at hclosed
    cases hclosed
  · refine hfl e he now r' ?_ hid'
    rw [freeze_repositories, ← hrep]
    exact hr'

/-- **Which receipt is graded.**  Along a series of receipts with different
times, closing would freeze the SHA of the latest eligible one at every moment
exactly when none of them overtakes; and then a `close` after them does. -/
theorem freezes_latest_iff (hk : Keys s) {r : StudentRepository} (hr : r ∈ s.repositories)
    (hopen : r.closureDue = false) (hsubs : s.submissionsOf r.id = [])
    (hevents : s.eligibleEvents r.id = []) (hrun : Transition.Run Records s taken s')
    (hd : Keyed SubmissionEvent.receivedAt (s'.eligibleEvents r.id)) :
    (((∀ p ∈ taken, FreezesLatest p.1 r.id) ∧ FreezesLatest s' r.id) ↔
      ∀ p ∈ taken, ¬ Overtakes r.id p.1 p.2) ∧
    ((∀ p ∈ taken, ¬ Overtakes r.id p.1 p.2) →
      ∀ now fresh s'', Submissions.close s' now fresh r.id = .ok s'' →
        ∀ r' ∈ s''.repositories, r'.id = r.id → r'.closureDue = true →
          ∀ e, Latest (s'.eligibleEvents r.id) e →
            ∃ x ∈ s'.submissions, r'.finalSubmissionId = some x.id ∧ x.sha = e.sha) := by
  have hs : Receiving s r.id := by
    refine ⟨hk, ⟨fun x hx => ?_, fun e he => ?_⟩, r, hr, rfl, hopen⟩
    · rw [hsubs] at hx
      cases hx
    · rw [hevents] at he
      cases he
  have hiff := freezesLatest_iff_of_run hs hevents hrun hd
  refine ⟨hiff, fun hno now fresh s'' hclose r' hr' hid' hclosed e he => ?_⟩
  have hs' := receiving_of_run hrun hs
  obtain ⟨q, hq, hqid, hqopen⟩ := hs'.row
  exact close_freezesLatest hs'.keys hq hqid hqopen (hiff.mpr hno).2 hclose hr' hid' hclosed he

end Series

/-! ### A push recorded late -/

namespace Sample

attribute [local instance] Sha256.standard

/-- A push recorded at once. -/
def receipt (n : Nat) (sha : String) (received : Time) : Receipt where
  now := received
  fresh := ids n
  tie := fun _ => 0
  repository := repository.id
  sha := sha
  received := received
  source := .webhook
  delivery := none

/-- Two pushes recorded in order. -/
theorem freezes_latest_two : ∃ s₁ s₂, Records start.store (receipt 10 shaA (second 1)) s₁ ∧
    Records s₁ (receipt 20 shaB (second 2)) s₂ ∧ FreezesLatest s₂ repository.id := by
  have key : (match Submissions.record start.store (second 1) (ids 10) (fun _ => 0) repository.id
      shaA (second 1) .webhook none with
    | .error _ => false
    | .ok p =>
      match Submissions.record p.1 (second 2) (ids 20) (fun _ => 0) repository.id shaB (second 2)
        .webhook none with
      | .error _ => false
      | .ok q => decide (Keyed SubmissionEvent.receivedAt (q.1.eligibleEvents repository.id)) &&
          (p.1.eligibleEvents repository.id).all fun e =>
            decide (e.receivedAt ≤ timestamptz (second 2))) = true := by
    decide +kernel
  split at key
  · cases key
  · rename_i p hp
    split at key
    · cases key
    · rename_i q hq
      rw [Bool.and_eq_true, decide_eq_true_eq, List.all_eq_true] at key
      have h₁ : Records start.store (receipt 10 shaA (second 1)) p.1 := ⟨p.2, hp⟩
      have h₂ : Records p.1 (receipt 20 shaB (second 2)) q.1 := ⟨q.2, hq⟩
      refine ⟨p.1, q.1, h₁, h₂, ?_⟩
      obtain ⟨hiff, _⟩ := freezes_latest_iff (r := repository) initial.keys
        (List.mem_singleton_self _) rfl rfl rfl ((Transition.Run.single h₁).snoc h₂) key.1
      refine (hiff.mpr fun l hl => ?_).2
      rcases List.mem_append.mp hl with h | h
      · rw [List.mem_singleton.mp h]
        rintro ⟨_, ⟨x, hx, _⟩, _⟩
        cases hx
      · rw [List.mem_singleton.mp h]
        rintro ⟨_, _, e, he, hlt⟩
        exact absurd hlt (not_lt_of_ge (of_decide_eq_true (key.2 e he)))

/-- Pushed A, then B, then A again; the second push is recorded last. -/
def reordered : List (Time × Op) :=
  [(second 1, push 10 shaA (second 1)), (second 3, push 20 shaA (second 3)),
    (second 4, push 30 shaB (second 2)), (second 11, close 40)]

/-- **The late push is graded**, and not the latest one. -/
theorem freezes_late_push : ∃ σ, start.play reordered = some σ ∧
    ∃ r ∈ σ.store.repositories, r.closureDue = true ∧
      Keyed SubmissionEvent.receivedAt (σ.store.eligibleEvents r.id) ∧
      ∃ e ∈ σ.store.eligibleEvents r.id,
        (∀ f ∈ σ.store.eligibleEvents r.id, f.receivedAt ≤ e.receivedAt) ∧
        ∃ x ∈ σ.store.submissions, r.finalSubmissionId = some x.id ∧ e.sha = shaA ∧
          x.sha = shaB := by
  have key : (start.play reordered).any (fun σ => decide (∃ r ∈ σ.store.repositories,
      r.closureDue = true ∧
      Keyed SubmissionEvent.receivedAt (σ.store.eligibleEvents r.id) ∧
      ∃ e ∈ σ.store.eligibleEvents r.id,
        (∀ f ∈ σ.store.eligibleEvents r.id, f.receivedAt ≤ e.receivedAt) ∧
        ∃ x ∈ σ.store.submissions, r.finalSubmissionId = some x.id ∧ e.sha = shaA ∧
          x.sha = shaB)) = true := by
    decide +kernel
  obtain ⟨σ, hσ, hkey⟩ := Option.any_eq_true _ _ |>.mp key
  exact ⟨σ, hσ, of_decide_eq_true hkey⟩

end Sample

end Grading

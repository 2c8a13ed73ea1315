import SrgGrading.Core.Revisions
import SrgGrading.Store.Catalog
import SrgGrading.Store.Closure
import SrgGrading.Store.Steady

/-!
# Rollouts change the grading only

A publication with `existing` gives every repository of its exercise a revision
combined from the one it was allocated with and the published one.  The first
never changes, so of several rollouts only the last is left.

* `insert_spec`, `rollOut_spec`: a stored revision is the one it was stored as,
  and every repository gets its own combination.
* `Graded`: what the repositories are graded with, from the rollouts they saw.
* `Sys.rollout_exact`: this along every run.
-/

open Fallible Relational

namespace Grading

/-! ### Combined revisions -/

/-- The parts of a revision a rollout keeps. -/
structure SameExercise (own g : Revision) : Prop where
  courseId : g.courseId = own.courseId
  assignmentId : g.assignmentId = own.assignmentId
  manifest : g.manifest = own.manifest
  tests : g.tests = own.tests
  title : g.assignment.title = own.assignment.title
  opensAt : g.assignment.opensAt = own.assignment.opensAt
  deadline : g.assignment.deadline = own.assignment.deadline
  branch : g.assignment.branch = own.assignment.branch
  template : g.assignment.template = own.assignment.template
  templateRevision : g.assignment.templateRevision = own.assignment.templateRevision
  integrityManifest : g.assignment.integrityManifest = own.assignment.integrityManifest
  publicTests : g.assignment.publicTests = own.assignment.publicTests
  score : g.assignment.score = own.assignment.score

/-- The parts of a revision a rollout replaces. -/
structure SameGrading (source g : Revision) : Prop where
  grader : g.grader = source.grader
  image : g.assignment.image = source.assignment.image
  executionProfile : g.assignment.executionProfile = source.assignment.executionProfile
  resources : g.assignment.resources = source.assignment.resources
  timeoutSeconds : g.assignment.timeoutSeconds = source.assignment.timeoutSeconds
  maxPoints : g.assignment.maxPoints = source.assignment.maxPoints

theorem SameExercise.combine (own revision : Revision) :
    SameExercise own (Exercises.combine own revision) :=
  ⟨rfl, rfl, rfl, rfl, rfl, rfl, rfl, rfl, rfl, rfl, rfl, rfl, rfl⟩

theorem SameGrading.combine (own revision : Revision) :
    SameGrading revision (Exercises.combine own revision) :=
  ⟨rfl, rfl, rfl, rfl, rfl, rfl⟩

/-- The definition a repository allocated with `own` is graded with after the
rollouts of `l`. -/
def graded (own : Revision) (l : List Revision) : Revision :=
  l.getLast?.elim own (Exercises.combine own)

theorem graded_nil (own : Revision) : graded own [] = own := rfl

theorem graded_concat (own revision : Revision) (l : List Revision) :
    graded own (l ++ [revision]) = Exercises.combine own revision := by
  rw [graded, List.getLast?_concat]
  rfl

/-- **Only the last rollout is left.** -/
theorem graded_spec (own : Revision) (l : List Revision) :
    SameExercise own (graded own l) ∧ SameGrading (l.getLast?.getD own) (graded own l) := by
  rw [graded]
  cases l.getLast? with
  | none =>
    exact ⟨⟨rfl, rfl, rfl, rfl, rfl, rfl, rfl, rfl, rfl, rfl, rfl, rfl, rfl⟩,
      ⟨rfl, rfl, rfl, rfl, rfl, rfl⟩⟩
  | some revision => exact ⟨.combine own revision, .combine own revision⟩

/-! ### Stored revisions -/

section Stored
variable [Sha256] {s s' : Store} {C : Revision → Prop}

/-- A row as `insert` writes it. -/
structure AssignmentRevision.Written (v : AssignmentRevision) : Prop where
  digest : v.digest = v.definition.digest
  maxPoints : v.maxPoints = v.definition.assignment.maxPoints

/-- The digests tell the revisions in `C` apart. -/
def Distinct (C : Revision → Prop) : Prop := ∀ a b, C a → C b → a.digest = b.digest → a = b

/-- The rows are as `insert` writes them. -/
def Written (s : Store) : Prop := ∀ v ∈ s.revisions, v.Written

/-- **A revision is found under its digest.** -/
theorem insert_spec (hd : Distinct C) (hw : Written s) {assignment : Uuid} {revision : Revision}
    {hash : String} (h : Exercises.insert s assignment revision = .ok (s', hash))
    (hstored : ∀ v ∈ s'.revisions, C v.definition) (hrevision : C revision) :
    Written s' ∧ s'.repositories = s.repositories ∧
      ∃ g ∈ s'.revisions, g.digest = hash ∧ g.definition = revision := by
  simp only [Exercises.insert, bind_ok] at h
  obtain ⟨_, _, grader, _, _, _, h⟩ := h
  split at h
  · rename_i hknown
    rw [pure_ok, Prod.mk.injEq] at h
    obtain ⟨rfl, rfl⟩ := h
    obtain ⟨g, hg, hdigest⟩ := List.any_eq_true.mp hknown
    rw [decide_eq_true_eq] at hdigest
    refine ⟨hw, rfl, g, hg, hdigest, hd _ _ (hstored g hg) hrevision ?_⟩
    rw [← (hw g hg).digest]
    exact hdigest
  · simp only [bind_ok, pure_ok, Prod.mk.injEq] at h
    obtain ⟨_, _, rfl, rfl⟩ := h
    refine ⟨fun v hv => ?_, rfl, _, List.mem_append_right _ (List.mem_singleton_self _), rfl, rfl⟩
    rcases List.mem_append.mp hv with hold | hnew
    · exact hw v hold
    · rw [List.mem_singleton.mp hnew]
      exact ⟨rfl, rfl⟩

omit [Sha256] in
theorem decode_eq {a b : Revision} (h : a.decode = .ok b) : b = a := by
  simp only [Revision.decode, bind_ok, pure_ok] at h
  obtain ⟨_, _, rfl⟩ := h
  rfl

/-- A repository is graded with `definition`. -/
def GradedWith (s : Store) (r : StudentRepository) (definition : Revision) : Prop :=
  ∃ g ∈ s.revisions, g.digest = r.gradingRevision ∧ g.definition = definition

omit [Sha256] in
theorem GradedWith.mono {r : StudentRepository} {definition : Revision}
    (h : GradedWith s r definition) (hsub : ∀ v ∈ s.revisions, v ∈ s'.revisions) :
    GradedWith s' r definition := by
  obtain ⟨g, hg, hspec⟩ := h
  exact ⟨g, hsub g hg, hspec⟩

omit [Sha256] in
theorem mem_of_grows {rows rows' : List AssignmentRevision}
    (h : Grows AssignmentRevision.digest Eq (fun _ => True) rows rows') :
    ∀ v ∈ rows, v ∈ rows' := by
  intro v hv
  obtain ⟨w, hw, _, rfl⟩ := h.old hv
  exact hw

/-- **Every listed repository gets its own combination**, and no other changes. -/
theorem rollOut_spec (hd : Distinct C) {assignment : Uuid} {revision : Revision} :
    ∀ {l : List (Uuid × Revision)} {s s' : Store}, Written s → (l.map Prod.fst).Nodup →
    Exercises.rollOut assignment revision s l = .ok s' →
    (∀ v ∈ s'.revisions, C v.definition) → (∀ e ∈ l, C (Exercises.combine e.2 revision)) →
    Written s' ∧ ∀ r ∈ s.repositories, ∃ r' ∈ s'.repositories, r'.id = r.id ∧ Regraded r r' ∧
      (∀ own, (r.id, own) ∈ l → GradedWith s' r' (Exercises.combine own revision)) ∧
      (r.id ∉ l.map Prod.fst → r' = r) := by
  intro l
  induction l with
  | nil =>
    intro s s' hw _ h _ _
    rw [Exercises.rollOut, pure_ok] at h
    rw [← h]
    refine ⟨hw, fun r hr => ⟨r, hr, rfl, .refl r, fun own hmem => ?_, fun _ => rfl⟩⟩
    cases hmem
  | cons e rest ih =>
    obtain ⟨repository, definition⟩ := e
    intro s s' hw hnodup h hstored hcombined
    simp only [Exercises.rollOut, bind_ok] at h
    obtain ⟨own, hown, ⟨s₁, hash⟩, h₁, h₂⟩ := h
    rw [decode_eq hown] at h₁
    rw [List.map_cons, List.nodup_cons] at hnodup
    have hlater : ∀ v ∈ s₁.revisions, v ∈ s'.revisions := mem_of_grows (RollsOut.rollOut h₂).revisions
    obtain ⟨hw₁, hsame, g, hg, hdigest, hdefinition⟩ :=
      insert_spec hd hw h₁ (fun v hv => hstored v (hlater v hv))
        (hcombined _ List.mem_cons_self)
    obtain ⟨hw', hrest⟩ := ih (s := s₁.updateRepositories (fun r => r.id = repository) fun r =>
      { r with gradingRevision := hash }) hw₁ hnodup.2 h₂ hstored
      fun e he => hcombined e (List.mem_cons_of_mem _ he)
    refine ⟨hw', fun r hr => ?_⟩
    rw [← hsame] at hr
    by_cases hid : r.id = repository
    · have hupdated : { r with gradingRevision := hash } ∈
          updateWhere (fun r => r.id = repository)
            (fun r : StudentRepository => { r with gradingRevision := hash }) s₁.repositories :=
        mem_updateWhere_of_pos hr (decide_eq_true hid)
      obtain ⟨r', hr', hid', _, _, hkeep⟩ := hrest _ hupdated
      have hfirst : r.id ∉ rest.map Prod.fst := by
        rw [hid]
        exact hnodup.1
      have hr'eq := hkeep hfirst
      refine ⟨r', hr', hid', ?_, fun own' hmem => ?_, fun hnot => ?_⟩
      · rw [hr'eq]
        rfl
      · rcases List.mem_cons.mp hmem with hhead | htail
        · rw [Prod.mk.injEq] at hhead
          rw [hhead.2, hr'eq]
          exact ⟨g, hlater g hg, hdigest, hdefinition⟩
        · exact absurd (List.mem_map.mpr ⟨_, htail, rfl⟩) hfirst
      · rw [List.map_cons, List.mem_cons, not_or] at hnot
        exact absurd hid hnot.1
    · have hkept : r ∈ updateWhere (fun r => r.id = repository)
          (fun r : StudentRepository => { r with gradingRevision := hash }) s₁.repositories :=
        mem_updateWhere_of_neg hr (decide_eq_false hid)
      obtain ⟨r', hr', hid', hregraded, hcombine, hkeep⟩ := hrest r hkept
      refine ⟨r', hr', hid', hregraded, fun own' hmem => ?_, fun hnot => ?_⟩
      · rcases List.mem_cons.mp hmem with hhead | htail
        · rw [Prod.mk.injEq] at hhead
          exact absurd hhead.1 hid
        · exact hcombine own' htail
      · rw [List.map_cons, List.mem_cons, not_or] at hnot
        exact hkeep hnot.2

/-! ### The repositories of an exercise -/

omit [Sha256] in
theorem nodup_pinned (hk : Keyed StudentRepository.id s.repositories) (assignment : Uuid) :
    ((Exercises.pinnedDefinitions s assignment).map Prod.fst).Nodup := by
  have hsub : ∀ l : List StudentRepository, ((l.filterMap fun r =>
      (lookup AssignmentRevision.digest r.revisionDigest s.revisions).map fun v =>
        (r.id, v.definition)).map Prod.fst).Sublist (l.map StudentRepository.id) := by
    intro l
    induction l with
    | nil => exact .slnil
    | cons r l ih =>
      rw [List.filterMap_cons]
      cases lookup AssignmentRevision.digest r.revisionDigest s.revisions with
      | none => exact ih.cons _
      | some v => exact ih.cons_cons _
  have hfilter := List.filter_sublist (p := fun r => decide (r.assignmentId = assignment))
    (l := s.repositories)
  exact hk.sublist ((hsub _).trans (hfilter.map _))

omit [Sha256] in
theorem mem_pinned (hk : Keyed StudentRepository.id s.repositories)
    (hrevisions : Keyed AssignmentRevision.digest s.revisions) (assignment : Uuid)
    {r : StudentRepository} (hr : r ∈ s.repositories) {v : AssignmentRevision}
    (hv : v ∈ s.revisions) (hdigest : v.digest = r.revisionDigest) :
    (r.assignmentId = assignment →
      (r.id, v.definition) ∈ Exercises.pinnedDefinitions s assignment) ∧
    (r.assignmentId ≠ assignment →
      r.id ∉ (Exercises.pinnedDefinitions s assignment).map Prod.fst) := by
  have hlookup := (lookup_eq_some hrevisions).mpr ⟨hv, hdigest⟩
  simp only [Exercises.pinnedDefinitions, List.mem_map, List.mem_filterMap, List.mem_filter,
    decide_eq_true_eq, Option.map_eq_some_iff]
  refine ⟨fun hassignment => ⟨r, ⟨hr, hassignment⟩, v, hlookup, rfl⟩, ?_⟩
  rintro hne ⟨_, ⟨q, ⟨hq, hassignment⟩, _, _, rfl⟩, hid⟩
  rw [hk.eq hq hr hid] at hassignment
  exact hne hassignment

/-! ### What repositories are graded with -/

/-- What was rolled out to a repository, by its identifier and its exercise. -/
abbrev Rollouts := Uuid → String × String → List Revision

/-- Every repository is graded with its own revision after these rollouts. -/
def Graded (s : Store) (rollouts : Rollouts) : Prop :=
  ∀ r ∈ s.repositories, ∃ a ∈ s.assignments, a.id = r.assignmentId ∧
    ∃ v ∈ s.revisions, v.digest = r.revisionDigest ∧
      GradedWith s r (graded v.definition (rollouts r.id a.key))

/-- The constraints of the tables, and that revisions are as they were written. -/
structure Tables (s : Store) : Prop where
  catalogued : Catalogued s
  repositories : Keyed StudentRepository.id s.repositories
  revisions : Keyed AssignmentRevision.digest s.revisions
  written : Written s

/-- What publications roll out to an exercise. -/
def rolledOut (l : List Exercises.Publication) (key : String × String) : List Revision :=
  (l.filter fun p => p.existing && p.key = key).map Exercises.Publication.revision

omit [Sha256] in
theorem rolledOut_cons (p : Exercises.Publication) (l : List Exercises.Publication)
    (key : String × String) : rolledOut (p :: l) key = rolledOut [p] key ++ rolledOut l key := by
  rw [rolledOut, rolledOut, rolledOut, ← List.map_append, ← List.filter_append,
    List.singleton_append]

omit [Sha256] in
/-- `assignmentOf` keeps the assignments, of which one may be that of the exercise. -/
theorem assignmentOf_keeps (hc : Catalogued s) {p : Exercises.Publication} {id out : Uuid}
    (h : Exercises.assignmentOf s id p.revision (s.assignments.find? fun a =>
      a.courseId = p.revision.courseId && a.slug = p.revision.assignmentId) = .ok (s', out)) :
    s'.revisions = s.revisions ∧ s'.repositories = s.repositories ∧
      ∀ a ∈ s.assignments, a ∈ s'.assignments ∧ (a.id = out ↔ p.key = a.key) := by
  obtain ⟨hc', ⟨b, hb, hid⟩, _⟩ := assignmentOf_exercise hc h
  have hbkey : b.key = p.key := key_of_lookup hb
  have hbmem : b ∈ s'.assignments := mem_of_lookup hb
  have hrow : ∀ a ∈ s'.assignments, (a.id = out ↔ p.key = a.key) := by
    intro a ha
    refine ⟨fun haid => ?_, fun hkey => ?_⟩
    · rw [hc'.ids.eq ha hbmem (haid.trans hid.symm), hbkey]
    · rw [hc'.keys.eq ha hbmem (hkey.symm.trans hbkey.symm), hid]
  rw [find_exercise] at h
  cases hprevious : s.exercise p.key with
  | some c =>
    rw [hprevious, Exercises.assignmentOf, pure_ok, Prod.mk.injEq] at h
    obtain ⟨rfl, _⟩ := h
    exact ⟨rfl, rfl, fun a ha => ⟨ha, hrow a ha⟩⟩
  | none =>
    rw [hprevious] at h
    simp only [Exercises.assignmentOf, bind_ok, pure_ok, Prod.mk.injEq] at h
    obtain ⟨_, _, _, _, rfl, _⟩ := h
    refine ⟨rfl, rfl, fun a ha => ?_⟩
    have hmem := List.mem_append_left
      [(⟨id, p.revision.courseId, p.revision.assignmentId, none, false⟩ : AssignmentRow)] ha
    exact ⟨hmem, hrow a hmem⟩

/-- **The rollout of a publication** to the repositories of its assignment `id`. -/
theorem rollOutExisting_graded (hd : Distinct C) {id : Uuid} {p : Exercises.Publication}
    (h : Exercises.rollOutExisting s id p = .ok s')
    (hk : Keyed StudentRepository.id s.repositories)
    (hrevisions : Keyed AssignmentRevision.digest s.revisions) (hw : Written s)
    (hstored : ∀ v ∈ s'.revisions, C v.definition)
    (hcombined : ∀ v ∈ s'.revisions, C (Exercises.combine v.definition p.revision)) :
    Written s' ∧ ∀ r ∈ s.repositories, ∀ v ∈ s.revisions, v.digest = r.revisionDigest →
      ∀ key l, (r.assignmentId = id ↔ p.key = key) → GradedWith s r (graded v.definition l) →
      ∃ r' ∈ s'.repositories, r'.id = r.id ∧ Regraded r r' ∧
        GradedWith s' r' (graded v.definition (l ++ rolledOut [p] key)) := by
  have hlater : ∀ v ∈ s.revisions, v ∈ s'.revisions :=
    mem_of_grows (RollsOut.rollOutExisting h).revisions
  rw [Exercises.rollOutExisting] at h
  by_cases hexisting : p.existing = true
  · rw [if_pos hexisting] at h
    have hpinned : ∀ e ∈ Exercises.pinnedDefinitions s id,
        C (Exercises.combine e.2 p.revision) := by
      intro e he
      simp only [Exercises.pinnedDefinitions, List.mem_filterMap, Option.map_eq_some_iff] at he
      obtain ⟨q, _, v, hv, rfl⟩ := he
      exact hcombined v (hlater v (mem_of_lookup hv))
    obtain ⟨hw', hrolled⟩ := rollOut_spec hd hw (nodup_pinned hk id) h hstored hpinned
    refine ⟨hw', fun r hr v hv hdigest key l hiff hgraded => ?_⟩
    obtain ⟨r', hr', hid, hregraded, hcombine, hkeep⟩ := hrolled r hr
    obtain ⟨hin, hout⟩ := mem_pinned hk hrevisions id hr hv hdigest
    refine ⟨r', hr', hid, hregraded, ?_⟩
    by_cases hkey : p.key = key
    · have hadds : rolledOut [p] key = [p.revision] := by simp [rolledOut, hexisting, hkey]
      rw [hadds, graded_concat]
      exact hcombine v.definition (hin (hiff.mpr hkey))
    · have hnone : rolledOut [p] key = [] := by simp [rolledOut, hkey]
      rw [hnone, List.append_nil, hkeep (hout fun heq => hkey (hiff.mp heq))]
      exact hgraded.mono hlater
  · rw [if_neg hexisting, pure_ok] at h
    subst h
    refine ⟨hw, fun r hr v _ _ key l _ hgraded => ⟨r, hr, rfl, .refl r, ?_⟩⟩
    have hnone : rolledOut [p] key = [] := by simp [rolledOut, hexisting]
    rw [hnone, List.append_nil]
    exact hgraded

/-- **One publication** adds itself to the rollouts of its exercise. -/
theorem publishInTransaction_graded (hd : Distinct C) (ht : Tables s)
    {p : Exercises.Publication} {fresh : Nat → Uuid} {rollouts : Rollouts}
    (hg : Graded s rollouts) (h : Exercises.publishInTransaction s fresh p = .ok s')
    (hstored : ∀ v ∈ s'.revisions, C v.definition) (hp : C p.revision)
    (hcombined : ∀ v ∈ s'.revisions, C (Exercises.combine v.definition p.revision)) :
    Tables s' ∧ Graded s' fun id key => rollouts id key ++ rolledOut [p] key := by
  have hpublishes := Publishes.publishInTransaction h
  have hcatalogued := (publishInTransaction_exercise ht.catalogued h).1
  have hkeyed := hpublishes.repositories.keyed ht.repositories
  have hdigests := hpublishes.revisions.keyed ht.revisions
  simp only [Exercises.publishInTransaction, bind_ok, pure_ok] at h
  obtain ⟨_, _, _, _, _, _, ⟨s₁, id⟩, h₁, ⟨s₂, hash⟩, h₂, s₃, h₃, rfl⟩ := h
  obtain ⟨hrevisions₁, hrepositories₁, hassignment₁⟩ := assignmentOf_keeps ht.catalogued h₁
  have hinsert := RollsOut.insert h₂
  have hrollout := RollsOut.rollOutExisting h₃
  have hlater : ∀ v ∈ s₂.revisions, v ∈ s₃.revisions := mem_of_grows hrollout.revisions
  have hearlier : ∀ v ∈ s.revisions, v ∈ s₂.revisions := by
    rw [← hrevisions₁]
    exact mem_of_grows hinsert.revisions
  have hw₁ : Written s₁ := by
    intro v hv
    rw [hrevisions₁] at hv
    exact ht.written v hv
  obtain ⟨hw₂, hrepositories₂, _⟩ :=
    insert_spec hd hw₁ h₂ (fun v hv => hstored v (hlater v hv)) hp
  have hrepositories : s₂.repositories = s.repositories := hrepositories₂.trans hrepositories₁
  have hkeyed₂ : Keyed StudentRepository.id s₂.repositories := by
    rw [hrepositories]
    exact ht.repositories
  have hdigests₂ : Keyed AssignmentRevision.digest s₂.revisions := by
    refine hinsert.revisions.keyed ?_
    rw [hrevisions₁]
    exact ht.revisions
  obtain ⟨hw₃, hrolled⟩ := rollOutExisting_graded hd h₃ hkeyed₂ hdigests₂ hw₂ hstored hcombined
  -- every assignment keeps its identifier and key
  have hassignment : ∀ a ∈ s.assignments, ∃ a' ∈ s₃.assignments, a'.id = a.id ∧ a'.key = a.key := by
    intro a ha
    have hrows : s₃.assignments = updateWhere (fun a => a.id = id)
        (fun a => { a with currentRevision := some hash, archived := false }) s₁.assignments := by
      rw [hrollout.rest, hinsert.rest]
    rw [hrows]
    refine ⟨_, mem_updateWhere.mpr ⟨a, (hassignment₁ a ha).1, rfl⟩, ?_⟩
    split <;> exact ⟨rfl, rfl⟩
  refine ⟨⟨hcatalogued, hkeyed, hdigests, hw₃⟩, fun r' hr' => ?_⟩
  obtain ⟨r, hr, hid, _⟩ := (hpublishes.repositories.origin hr').resolve_right fun hnew => hnew.1
  obtain ⟨a, ha, haid, v, hv, hdigest, hgraded⟩ := hg r hr
  obtain ⟨a', ha', haid', hakey'⟩ := hassignment a ha
  have hiff : r.assignmentId = id ↔ p.key = a.key := by
    rw [← haid]
    exact (hassignment₁ a ha).2
  have hr₂ : r ∈ s₂.repositories := by
    rw [hrepositories]
    exact hr
  obtain ⟨q, hq, hqid, hregraded, hresult⟩ := hrolled r hr₂ v (hearlier v hv) hdigest a.key
    (rollouts r.id a.key) hiff (hgraded.mono hearlier)
  have hqr : q = r' := hkeyed.eq hq hr' (hqid.trans hid.symm)
  subst hqr
  have hcolumns : q.assignmentId = r.assignmentId ∧ q.revisionDigest = r.revisionDigest := by
    rw [hregraded]
    exact ⟨rfl, rfl⟩
  refine ⟨a', ha', haid'.trans (haid.trans hcolumns.1.symm), v, hlater v (hearlier v hv),
    hdigest.trans hcolumns.2.symm, ?_⟩
  dsimp only
  rw [hqid, hakey']
  exact hresult

/-- **A series of publications** adds each to the rollouts of its exercise. -/
theorem publishAll_graded (hd : Distinct C) : ∀ {l : List Exercises.Publication} {s s' : Store}
    {fresh : Nat → Uuid} {rollouts : Rollouts}, Tables s → Graded s rollouts →
    Exercises.publishAll s fresh l = .ok s' → (∀ v ∈ s'.revisions, C v.definition) →
    (∀ p ∈ l, C p.revision ∧
      ∀ v ∈ s'.revisions, C (Exercises.combine v.definition p.revision)) →
    Tables s' ∧ Graded s' fun id key => rollouts id key ++ rolledOut l key := by
  intro l
  induction l with
  | nil =>
    intro s s' fresh rollouts ht hg h _ _
    rw [Exercises.publishAll, pure_ok] at h
    rw [← h]
    refine ⟨ht, ?_⟩
    simpa only [rolledOut, List.filter_nil, List.map_nil, List.append_nil] using hg
  | cons p rest ih =>
    intro s s' fresh rollouts ht hg h hstored hl
    simp only [Exercises.publishAll, bind_ok] at h
    obtain ⟨s₁, h₁, h₂⟩ := h
    have hlater : ∀ v ∈ s₁.revisions, v ∈ s'.revisions :=
      mem_of_grows (Publishes.publishAll h₂).revisions
    obtain ⟨hp, hcombined⟩ := hl p List.mem_cons_self
    obtain ⟨ht₁, hg₁⟩ := publishInTransaction_graded hd ht hg h₁
      (fun v hv => hstored v (hlater v hv)) hp fun v hv => hcombined v (hlater v hv)
    obtain ⟨ht', hg'⟩ := ih ht₁ hg₁ h₂ hstored fun q hq => hl q (List.mem_cons_of_mem p hq)
    refine ⟨ht', ?_⟩
    simpa only [rolledOut_cons p rest, List.append_assoc] using hg'

omit [Sha256] in
/-- Repositories are graded alike where the catalog keeps its exercises. -/
theorem Graded.of_assignments {rollouts : Rollouts} (hg : Graded s rollouts)
    (hrepositories : s'.repositories = s.repositories) (hrevisions : s'.revisions = s.revisions)
    (hassignments : ∀ a ∈ s.assignments, ∃ a' ∈ s'.assignments, a'.id = a.id ∧ a'.key = a.key) :
    Graded s' rollouts := by
  intro r hr
  rw [hrepositories] at hr
  obtain ⟨a, ha, hid, v, hv, hdigest, hgraded⟩ := hg r hr
  obtain ⟨a', ha', hid', hkey'⟩ := hassignments a ha
  rw [← hrevisions] at hv
  refine ⟨a', ha', hid'.trans hid, v, hv, hdigest, ?_⟩
  rw [hkey']
  refine hgraded.mono fun w hw => ?_
  rw [hrevisions]
  exact hw

omit [Sha256] in
theorem Graded.congr {rollouts rollouts' : Rollouts} (hg : Graded s rollouts)
    (h : ∀ r ∈ s.repositories, ∀ key, rollouts r.id key = rollouts' r.id key) :
    Graded s rollouts' := by
  intro r hr
  obtain ⟨a, ha, hid, v, hv, hdigest, hgraded⟩ := hg r hr
  rw [h r hr a.key] at hgraded
  exact ⟨a, ha, hid, v, hv, hdigest, hgraded⟩

theorem archiveAll_graded (operator reason : String) (l : List (String × String)) :
    ∀ {s : Store} {rollouts : Rollouts}, Tables s → Graded s rollouts →
    Tables (l.foldl (Exercises.archive operator reason) s) ∧
      Graded (l.foldl (Exercises.archive operator reason) s) rollouts := by
  induction l with
  | nil =>
    intro s rollouts ht hg
    exact ⟨ht, hg⟩
  | cons key rest ih =>
    intro s rollouts ht hg
    refine ih ⟨(archive_exercise ht.catalogued key key).1, ht.repositories, ht.revisions,
      ht.written⟩ (hg.of_assignments rfl rfl fun a ha => ?_)
    refine ⟨_, mem_updateWhere.mpr ⟨a, ha, rfl⟩, ?_⟩
    split <;> exact ⟨rfl, rfl⟩

/-- Catalog and revisions stay, and so does what repositories are graded with. -/
structure Kept (s s' : Store) : Prop where
  assignments : s'.assignments = s.assignments
  revisions : s'.revisions = s.revisions
  repositories : Grows StudentRepository.id SameGrade (fun _ => False) s.repositories s'.repositories

omit [Sha256] in
theorem Steady.kept (h : Steady s s') : Kept s s' := ⟨h.assignments, h.revisions, h.repositories⟩

omit [Sha256] in
theorem Kept.refl (s : Store) : Kept s s := (Steady.refl s).kept

omit [Sha256] in
theorem Kept.overrideGrade {now : Time} {fresh : Nat → Uuid} {repository : Uuid} {points : Int}
    {operator reason : String}
    (h : Submissions.overrideGrade s now fresh repository points operator reason = .ok s') :
    Kept s s' := by
  simp only [Submissions.overrideGrade, bind_ok, pure_ok] at h
  obtain ⟨_, _, _, _, _, _, _, _, _, _, rfl⟩ := h
  exact ⟨rfl, rfl, Grows.refl fun r _ => .refl r⟩

omit [Sha256] in
theorem Kept.graded (h : Kept s s') {rollouts : Rollouts} (hg : Graded s rollouts) :
    Graded s' rollouts := by
  intro r' hr'
  obtain ⟨r, hr, hid, hsame⟩ := (h.repositories.origin hr').resolve_right fun hnew => hnew.1
  obtain ⟨a, ha, haid, v, hv, hdigest, g, hg', hgdigest, hdefinition⟩ := hg r hr
  rw [← h.assignments] at ha
  rw [← h.revisions] at hv hg'
  refine ⟨a, ha, haid.trans hsame.same.assignment.symm, v, hv,
    hdigest.trans hsame.same.revision.symm, g, hg', hgdigest.trans hsame.grading.symm, ?_⟩
  rw [hid]
  exact hdefinition

theorem Kept.tables (h : Kept s s') (ht : Tables s) : Tables s' where
  catalogued := ht.catalogued.of_eq h.assignments
  repositories := h.repositories.keyed ht.repositories
  revisions := by
    rw [h.revisions]
    exact ht.revisions
  written := by
    rw [Written, h.revisions]
    exact ht.written

/-! ### Runs -/

/-- What the steps of a run rolled out to a repository that was allocated before. -/
def rolloutsOf (history : List (Sys × (Time × Op))) : Rollouts := fun id key =>
  (history.filter fun p => p.1.store.repositories.any fun r => r.id = id).flatMap fun p =>
    rolledOut (p.1.store.published p.2.1 p.2.2) key

/-- A revision a run stores, publishes or combines. -/
def Considered (history : List (Sys × (Time × Op))) (s : Store) (revision : Revision) : Prop :=
  (∃ v ∈ s.revisions, revision = v.definition) ∨
    ∃ t ∈ history, ∃ p ∈ t.1.store.published t.2.1 t.2.2, revision = p.revision ∨
      ∃ v ∈ s.revisions, revision = Exercises.combine v.definition p.revision

/-- The repositories are graded with what their runs rolled out. -/
structure Sys.Rolled (history : List (Sys × (Time × Op))) (σ : Sys) : Prop where
  tables : Tables σ.store
  graded : Graded σ.store (rolloutsOf history)
  past : ∀ p ∈ history, ∀ r ∈ p.1.store.repositories, ∃ r' ∈ σ.store.repositories, r'.id = r.id

variable {σ τ : Sys} {l : Time × Op} {history : List (Sys × (Time × Op))}

theorem rolloutsOf_concat (id : Uuid) (key : String × String) :
    rolloutsOf (history ++ [(σ, l)]) id key = rolloutsOf history id key ++
      if (σ.store.repositories.any fun r => r.id = id) = true then
        rolledOut (σ.store.published l.1 l.2) key
      else [] := by
  rw [rolloutsOf, rolloutsOf, List.filter_append, List.flatMap_append]
  congr 1
  by_cases hid : (σ.store.repositories.any fun r => r.id = id) = true
  · simp only [List.filter_cons, List.filter_nil, hid, if_true, List.flatMap_singleton]
  · simp only [List.filter_cons, List.filter_nil, if_neg hid, List.flatMap_nil]

/-- The rollouts of a step reach the repositories there are. -/
theorem rolloutsOf_of_mem {r : StudentRepository} (hr : r ∈ σ.store.repositories)
    (key : String × String) : rolloutsOf (history ++ [(σ, l)]) r.id key =
      rolloutsOf history r.id key ++ rolledOut (σ.store.published l.1 l.2) key := by
  rw [rolloutsOf_concat, if_pos (List.any_eq_true.mpr ⟨r, hr, decide_eq_true rfl⟩)]

/-- A step that publishes nothing rolls nothing out. -/
theorem rolloutsOf_of_none (h : σ.store.published l.1 l.2 = []) (id : Uuid)
    (key : String × String) :
    rolloutsOf (history ++ [(σ, l)]) id key = rolloutsOf history id key := by
  have hnone : rolledOut [] key = [] := rfl
  rw [rolloutsOf_concat, h, hnone, ite_self, List.append_nil]

/-- Nothing was rolled out to a repository before it was allocated. -/
theorem Sys.Rolled.unseen (hinv : Sys.Rolled history σ) {id : Uuid}
    (h : ∀ r ∈ σ.store.repositories, r.id ≠ id) (key : String × String) :
    rolloutsOf history id key = [] := by
  have hnone : (history.filter fun p => p.1.store.repositories.any fun r => r.id = id) = [] := by
    rw [List.filter_eq_nil_iff]
    intro p hp hany
    obtain ⟨r, hr, hid⟩ := List.any_eq_true.mp hany
    obtain ⟨r', hr', hid'⟩ := hinv.past p hp r hr
    exact h r' hr' (hid'.trans (of_decide_eq_true hid))
  rw [rolloutsOf, hnone, List.flatMap_nil]

/-- The repositories of the past are still there after a step. -/
theorem Sys.Rolled.past_step (hinv : Sys.Rolled history σ)
    (h : ∀ r ∈ σ.store.repositories, ∃ r' ∈ τ.store.repositories, r'.id = r.id) :
    ∀ p ∈ history ++ [(σ, l)], ∀ r ∈ p.1.store.repositories,
      ∃ r' ∈ τ.store.repositories, r'.id = r.id := by
  intro p hp r hr
  rcases List.mem_append.mp hp with hold | hnew
  · obtain ⟨r₁, hr₁, hid₁⟩ := hinv.past p hold r hr
    obtain ⟨r₂, hr₂, hid₂⟩ := h r₁ hr₁
    exact ⟨r₂, hr₂, hid₂.trans hid₁⟩
  · rw [List.mem_singleton.mp hnew] at hr
    exact h r hr

/-- A step with publications. -/
theorem Sys.Rolled.publishes (hinv : Sys.Rolled history σ) (h : Publishes σ.store τ.store)
    (ht : Tables τ.store) (hg : Graded τ.store fun id key =>
      rolloutsOf history id key ++ rolledOut (σ.store.published l.1 l.2) key) :
    Sys.Rolled (history ++ [(σ, l)]) τ where
  tables := ht
  graded := by
    refine hg.congr fun r' hr' key => ?_
    obtain ⟨r, hr, hid, _⟩ := (h.repositories.origin hr').resolve_right fun hnew => hnew.1
    rw [hid, rolloutsOf_of_mem hr]
  past := hinv.past_step fun r hr => by
    obtain ⟨r', hr', hid, _⟩ := h.repositories.old hr
    exact ⟨r', hr', hid⟩

/-- A step without. -/
theorem Sys.Rolled.kept (hinv : Sys.Rolled history σ)
    (hnone : σ.store.published l.1 l.2 = []) (h : Kept σ.store τ.store) :
    Sys.Rolled (history ++ [(σ, l)]) τ where
  tables := h.tables hinv.tables
  graded := (h.graded hinv.graded).congr fun r _ key => (rolloutsOf_of_none hnone r.id key).symm
  past := hinv.past_step fun r hr => by
    obtain ⟨r', hr', hid, _⟩ := h.repositories.old hr
    exact ⟨r', hr', hid⟩

/-- A step that allocates a repository. -/
theorem Sys.Rolled.allocates (hinv : Sys.Rolled history σ)
    (hnone : σ.store.published l.1 l.2 = []) (h : Allocates σ.store τ.store) :
    Sys.Rolled (history ++ [(σ, l)]) τ := by
  obtain ⟨added, hsteady, rfl | ⟨r, a, e, v, rfl, ha, haid, _, _, _, hv, hdigest, hgrading, hnew⟩⟩ := h
  · rw [List.append_nil] at hsteady
    exact hinv.kept hnone hsteady.kept
  · have htables : Tables { σ.store with repositories := σ.store.repositories ++ [r] } :=
      ⟨hinv.tables.catalogued.of_eq rfl, hinv.tables.repositories.append hnew,
        hinv.tables.revisions, hinv.tables.written⟩
    have hgraded : Graded { σ.store with repositories := σ.store.repositories ++ [r] }
        (rolloutsOf history) := by
      intro q hq
      rcases List.mem_append.mp hq with hold | hlast
      · exact hinv.graded q hold
      · rw [List.mem_singleton.mp hlast]
        refine ⟨a, ha, haid, v, hv, hdigest, v, hv, hdigest.trans hgrading.symm, ?_⟩
        rw [hinv.unseen hnew, graded_nil]
    refine ⟨hsteady.kept.tables htables, ?_, ?_⟩
    · refine (hsteady.kept.graded hgraded).congr fun q _ key => ?_
      exact (rolloutsOf_of_none hnone q.id key).symm
    · refine hinv.past_step fun q hq => ?_
      obtain ⟨q', hq', hid, _⟩ := hsteady.repositories.old (List.mem_append_left [r] hq)
      exact ⟨q', hq', hid⟩

/-- What is presented to `insert` by a step. -/
def Presents (C : Revision → Prop) (history : List (Sys × (Time × Op))) (s : Store) : Prop :=
  (∀ v ∈ s.revisions, C v.definition) ∧
    ∀ t ∈ history, ∀ p ∈ t.1.store.published t.2.1 t.2.2, C p.revision ∧
      ∀ v ∈ s.revisions, C (Exercises.combine v.definition p.revision)

theorem CatalogStep.revisions {now : Time} {op : Op} (h : CatalogStep now op s s') :
    ∀ v ∈ s.revisions, v ∈ s'.revisions := by
  cases h with
  | steady _ h =>
    rw [h.revisions]
    exact fun v hv => hv
  | allocates _ h =>
    obtain ⟨added, h, _⟩ := h
    rw [h.revisions]
    exact fun v hv => hv
  | publish fresh p hop h => exact mem_of_grows (Publishes.publish h).revisions
  | applySet fresh collate set hop h => exact mem_of_grows (Publishes.applySet h).revisions
  | overrideGrade fresh repository points operator reason hop h =>
    simp only [Submissions.overrideGrade, bind_ok, pure_ok] at h
    obtain ⟨_, _, _, _, _, _, _, _, _, _, rfl⟩ := h
    exact fun v hv => hv

/-- **One step** rolls out what it publishes. -/
theorem Sys.Step.rolled (hd : Distinct C) (hinv : Sys.Rolled history σ) (h : Sys.Step σ l τ)
    (hC : Presents C (history ++ [(σ, l)]) τ.store) : Sys.Rolled (history ++ [(σ, l)]) τ := by
  obtain ⟨hstored, hpublished⟩ := hC
  have hthis := hpublished (σ, l) (List.mem_append_right _ (List.mem_singleton_self _))
  cases h.catalog with
  | steady hnone hsteady => exact hinv.kept hnone hsteady.kept
  | allocates hnone hallocates => exact hinv.allocates hnone hallocates
  | publish fresh p hop hpublish =>
    have hlist : σ.store.published l.1 l.2 = if p.dryRun then [] else [p] := by
      rw [hop, Store.published, StoreOp.exec, hpublish]
      rfl
    have hwhole := Publishes.publish hpublish
    simp only [Exercises.publish, bind_ok, pure_ok] at hpublish
    obtain ⟨s₁, h₁, hresult⟩ := hpublish
    by_cases hdry : p.dryRun = true
    · rw [if_pos hdry] at hresult hlist
      refine hinv.kept hlist ?_
      rw [← hresult]
      exact .refl _
    · rw [if_neg hdry] at hresult hlist
      rw [hresult] at h₁
      rw [hlist] at hthis
      obtain ⟨hp, hcombined⟩ := hthis p (List.mem_singleton_self p)
      obtain ⟨ht, hg⟩ :=
        publishInTransaction_graded hd hinv.tables hinv.graded h₁ hstored hp hcombined
      refine hinv.publishes hwhole ht ?_
      rw [hlist]
      exact hg
  | applySet fresh collate set hop happly =>
    have hlist : σ.store.published l.1 l.2 = if set.dryRun then [] else set.publications := by
      rw [hop, Store.published, StoreOp.exec, happly]
      rfl
    have hwhole := Publishes.applySet happly
    simp only [Exercises.applySet, bind_ok, pure_ok] at happly
    obtain ⟨_, _, keep, _, _, _, s₁, h₁, hresult⟩ := happly
    by_cases hdry : set.dryRun = true
    · rw [if_pos hdry] at hresult hlist
      refine hinv.kept hlist ?_
      rw [← hresult]
      exact .refl _
    · rw [if_neg hdry] at hresult hlist
      have harchived : Publishes s₁ τ.store := by
        rw [← hresult]
        exact .archiveAll _ s₁
      have hlater : ∀ v ∈ s₁.revisions, v ∈ τ.store.revisions := mem_of_grows harchived.revisions
      rw [hlist] at hthis
      obtain ⟨ht₁, hg₁⟩ := publishAll_graded hd hinv.tables hinv.graded h₁
        (fun v hv => hstored v (hlater v hv)) fun p hp =>
          ⟨(hthis p hp).1, fun v hv => (hthis p hp).2 v (hlater v hv)⟩
      obtain ⟨ht, hg⟩ := archiveAll_graded set.operator set.reason
        (Exercises.leftOut keep set.expected.entries) ht₁ hg₁
      rw [hresult] at ht hg
      refine hinv.publishes hwhole ht ?_
      rw [hlist]
      exact hg
  | overrideGrade fresh repository points operator reason hop hoverride =>
    have hlist : σ.store.published l.1 l.2 = [] := by
      rw [hop, Store.published, StoreOp.exec, hoverride]
      rfl
    exact hinv.kept hlist (.overrideGrade hoverride)

/-- What is presented up to a step is presented before it. -/
theorem Presents.before (hC : Presents C (history ++ [(σ, l)]) τ.store) (hst : Sys.Step σ l τ) :
    Presents C history σ.store := by
  have hsub := hst.catalog.revisions
  refine ⟨fun v hv => hC.1 v (hsub v hv), fun t ht p hp => ?_⟩
  obtain ⟨hrevision, hcombined⟩ := hC.2 t (List.mem_append_left _ ht) p hp
  exact ⟨hrevision, fun v hv => hcombined v (hsub v hv)⟩

/-- **All along a run** the repositories are graded with what was rolled out. -/
theorem Sys.rolled_of_run (hd : Distinct C) (h0 : Sys.Rolled [] σ)
    (hrun : Transition.Run Sys.Step σ history τ) (hC : Presents C history τ.store) :
    Sys.Rolled history τ := by
  induction hrun with
  | nil => exact h0
  | snoc hr hst ih => exact Sys.Step.rolled hd (ih (hC.before hst)) hst hC

/-- A run keeps the revision of every run that was queued. -/
theorem Sys.runs_keep (hσ : σ.Reachable) (hrun : Transition.Run Sys.Step σ history τ) :
    ∀ g ∈ σ.store.runs, ∃ g' ∈ τ.store.runs, g'.id = g.id ∧
      g'.revisionDigest = g.revisionDigest := by
  intro g hg
  have hkept := hrun.invariant (I := fun υ => υ.Reachable ∧ ∃ g' ∈ υ.store.runs, g'.id = g.id ∧
    g'.revisionDigest = g.revisionDigest) ?_ ⟨hσ, g, hg, rfl, rfl⟩
  · exact hkept.2
  · rintro υ l φ ⟨hυ, g', hg', hid, hrevision⟩ hst
    obtain ⟨g'', hg'', hid', hsame⟩ := (hst.evolves hυ.keys).runs.old hg'
    exact ⟨hυ.tail hst, g'', hg'', hid'.trans hid, hsame.revision.trans hrevision⟩

/-- Tables before any rollout. -/
structure Pristine (s : Store) : Prop where
  tables : Tables s
  unrolled : ∀ r ∈ s.repositories, r.gradingRevision = r.revisionDigest ∧
    (∃ a ∈ s.assignments, a.id = r.assignmentId) ∧ ∃ v ∈ s.revisions, v.digest = r.revisionDigest

theorem Pristine.rolled (h : Pristine σ.store) : Sys.Rolled [] σ where
  tables := h.tables
  graded := by
    intro r hr
    obtain ⟨hgrading, ⟨a, ha, haid⟩, v, hv, hdigest⟩ := h.unrolled r hr
    exact ⟨a, ha, haid, v, hv, hdigest, v, hv, hdigest.trans hgrading.symm, rfl⟩
  past := by
    intro p hp
    cases hp

theorem distinct_of_collisionFree (hcf : CollisionFree fun bytes =>
    ∃ revision, C revision ∧ toVec revision.toJson = bytes) : Distinct C :=
  fun a b ha hb hdigest => Revision.digest_inj hcf ⟨a, ha, rfl⟩ ⟨b, hb, rfl⟩ hdigest

theorem presents_considered (history : List (Sys × (Time × Op))) (s : Store) :
    Presents (Considered history s) history s := by
  refine ⟨fun v hv => Or.inl ⟨v, hv, rfl⟩, fun t ht p hp => ⟨?_, fun v hv => ?_⟩⟩
  · exact Or.inr ⟨t, ht, p, hp, Or.inl rfl⟩
  · exact Or.inr ⟨t, ht, p, hp, Or.inr ⟨v, hv, rfl⟩⟩

/-- **Rollouts change the grading only, and only the last one counts.** -/
theorem Sys.rollout_exact (h0 : σ.Initial) (hp : Pristine σ.store)
    (hrun : Transition.Run Sys.Step σ history τ)
    (hcf : CollisionFree fun bytes =>
      ∃ revision, Considered history τ.store revision ∧ toVec revision.toJson = bytes) :
    (∀ r ∈ τ.store.repositories, ∃ a ∈ τ.store.assignments, a.id = r.assignmentId ∧
      ∃ own ∈ τ.store.revisions, own.digest = r.revisionDigest ∧
      ∃ g ∈ τ.store.revisions, g.digest = r.gradingRevision ∧
        SameExercise own.definition g.definition ∧
        SameGrading ((rolloutsOf history r.id a.key).getLast?.getD own.definition) g.definition ∧
        ∀ rollouts, rollouts.getLast? = (rolloutsOf history r.id a.key).getLast? →
          g.definition = graded own.definition rollouts) ∧
      ∀ p ∈ history, ∀ g ∈ p.1.store.runs, ∃ g' ∈ τ.store.runs, g'.id = g.id ∧
        g'.revisionDigest = g.revisionDigest := by
  have hrolled := Sys.rolled_of_run (distinct_of_collisionFree hcf) hp.rolled hrun
    (presents_considered history τ.store)
  refine ⟨fun r hr => ?_, fun p hmem g hg => ?_⟩
  · obtain ⟨a, ha, haid, own, hown, hdigest, g, hg, hgdigest, hdefinition⟩ := hrolled.graded r hr
    obtain ⟨hexercise, hgrading⟩ := graded_spec own.definition (rolloutsOf history r.id a.key)
    refine ⟨a, ha, haid, own, hown, hdigest, g, hg, hgdigest, ?_, ?_, fun rollouts hlast => ?_⟩
    · rw [hdefinition]
      exact hexercise
    · rw [hdefinition]
      exact hgrading
    · rw [hdefinition, graded, graded, hlast]
  · obtain ⟨before, u, after, hbefore, hstep, hafter⟩ := hrun.mem_step hmem
    have hreachable : p.1.Reachable := ⟨σ, before, h0, hbefore⟩
    have hwhole := (Transition.Run.single hstep).trans hafter
    exact Sys.runs_keep hreachable hwhole g hg

end Stored

/-! ### A rollout -/

namespace Sample
attribute [local instance] Sha256.standard

def loweredRow : AssignmentRevision where
  digest := loweredDigest
  assignmentId := 2
  configRevision := grader.revision
  definition := lowered
  opensAt := timestamptz assignment.opensAt.instant
  deadline := timestamptz assignment.deadline.instant
  maxPoints := 5
  graderSourceDigest := grader.sourceDigest

/-- The deployment with the grader's source in it, and some overrides. -/
def stocked (overrides : List GradeOverride) (audit : List AuditEvent) : Store :=
  { start.store with
    artifacts := [⟨"dddddddddddddddddddddddddddddddddddddddddddddddddddddddddddddddd", 1, "source"⟩]
    overrides, audit }

/-- `lowered` is published for the repositories there are. -/
def lowering : Exercises.Publication :=
  ⟨lowered, some revisionDigest, true, false, "operator", "fewer points"⟩

/-- The deployment after it. -/
def afterLowering (overrides : List GradeOverride) (audit : List AuditEvent) : Store :=
  { stocked overrides audit with
    assignments := [⟨2, "prog", "loops", some loweredDigest, false⟩]
    revisions := [revisionRow, loweredRow]
    repositories := [{ repository with gradingRevision := loweredDigest }]
    audit := audit ++ [⟨"operator", "exercise.publish", "prog/loops",
      "fewer points" ++ "; revision=" ++ loweredDigest ++ "; existing=" ++ toString true⟩] }

/-- `lowered` is stored, or found where it is. -/
theorem insert_lowered (s : Store) (hartifacts : s.artifacts = (stocked [] []).artifacts) :
    Exercises.insert s 2 lowered = .ok
      (if s.revisions.any fun v => v.digest = loweredDigest then s
        else { s with revisions := s.revisions ++ [loweredRow] }, loweredDigest) := by
  simp only [Exercises.insert, bind_ok, lowered_checked.2]
  refine ⟨(), lowered_checked.1, grader, rfl, (), by decide +kernel, ?_⟩
  split
  · rfl
  · simp only [bind_ok, pure_ok]
    refine ⟨(), ?_, rfl⟩
    rw [hartifacts]
    decide +kernel

/-- The deployment while `lowering` is at work. -/
def storing (overrides : List GradeOverride) (audit : List AuditEvent) : Store :=
  { stocked overrides audit with
    assignments := [⟨2, "prog", "loops", some loweredDigest, false⟩]
    revisions := [revisionRow, loweredRow] }

theorem lowering_ok (overrides : List GradeOverride) (audit : List AuditEvent)
    (fresh : Nat → Uuid) : Exercises.publishInTransaction (stocked overrides audit) fresh lowering =
      .ok (afterLowering overrides audit) := by
  have hunknown : ([revisionRow].any fun v => v.digest = loweredDigest) = false := by
    decide +kernel
  have hknown : ([revisionRow, loweredRow].any fun v => v.digest = loweredDigest) = true := by
    decide +kernel
  have hnew : Exercises.insert (stocked overrides audit) 2 lowered =
      .ok ({ stocked overrides audit with revisions := [revisionRow, loweredRow] },
        loweredDigest) := by
    rw [insert_lowered (stocked overrides audit) rfl]
    change Except.ok (if ([revisionRow].any fun v => v.digest = loweredDigest) = true then _ else _,
      _) = _
    rw [hunknown]
    rfl
  have hagain : Exercises.insert (storing overrides audit) 2 lowered =
      .ok (storing overrides audit, loweredDigest) := by
    rw [insert_lowered (storing overrides audit) rfl]
    change Except.ok (if ([revisionRow, loweredRow].any fun v => v.digest = loweredDigest) = true
      then _ else _, _) = _
    rw [hknown]
    rfl
  have hdecoded : revision.decode = .ok revision := by decide +kernel
  have hexpected : ((start.store.assignments.find? fun a => a.courseId = "prog" &&
      a.slug = "loops").bind AssignmentRow.currentRevision) = some revisionDigest := by
    decide +kernel
  simp only [Exercises.publishInTransaction, bind_ok, pure_ok]
  refine ⟨(), lowered_checked.1, (), by decide +kernel, (), ?_,
    (stocked overrides audit, 2), rfl, _, hnew,
    { storing overrides audit with
      repositories := [{ repository with gradingRevision := loweredDigest }] }, ?_, rfl⟩
  · exact congrArg (fun o => check (o = some revisionDigest) _) hexpected
  change Exercises.rollOut 2 lowered (storing overrides audit) [(3, revision)] = _
  simp only [Exercises.rollOut, bind_ok, pure_ok]
  exact ⟨revision, hdecoded, _, hagain, rfl⟩

/-- The deployment with the grader's source. -/
def supplied : Sys := { start with store := stocked [] [] }

/-- The step that publishes `lowered`. -/
def loweringStep : List (Sys × (Time × Op)) := [(supplied, (1, .store (.publish (ids 100) lowering)))]

theorem supplied_initial : supplied.Initial where
  accepts := rfl
  runs := rfl
  tasks := initial.tasks
  taskIds := initial.taskIds
  taskKeys := initial.taskKeys
  repositoryIds := initial.repositoryIds
  submissionIds := initial.submissionIds
  submissionEvents := initial.submissionEvents
  eventIds := initial.eventIds
  revisionDigests := initial.revisionDigests
  submissionRepository := initial.submissionRepository
  finals := initial.finals

theorem supplied_pristine : Pristine supplied.store where
  tables :=
    { catalogued := ⟨by decide +kernel, by decide +kernel⟩
      repositories := by decide
      revisions := by decide
      written := by
        intro v hv
        have hv : v = revisionRow := List.mem_singleton.mp hv
        rw [hv]
        exact ⟨revision_checked.2.symm, rfl⟩ }
  unrolled := by
    intro r hr
    have hr : r = repository := List.mem_singleton.mp hr
    rw [hr]
    exact ⟨rfl, ⟨⟨2, "prog", "loops", some revisionDigest, false⟩, .head _, rfl⟩,
      revisionRow, .head _, rfl⟩

theorem publish_lowering : (StoreOp.publish (ids 100) lowering).exec supplied.store 1 =
    .ok (afterLowering [] []) := by
  simp only [StoreOp.exec, Exercises.publish, bind_ok, pure_ok]
  exact ⟨_, lowering_ok [] [] (ids 100), rfl⟩

theorem loweringStep_run : Transition.Run Sys.Step supplied loweringStep
    { supplied with store := afterLowering [] [], clock := 1 } :=
  .single (Sys.step_of_exec (by decide) rfl publish_lowering)

/-- What is stored, published or combined is `revision` or `lowered`. -/
theorem considered_lowering {a : Revision}
    (h : Considered loweringStep (afterLowering [] []) a) : a = revision ∨ a = lowered := by
  have hpublished : supplied.store.published 1 (.store (.publish (ids 100) lowering)) =
      [lowering] := by
    rw [Store.published, publish_lowering]
    rfl
  have hstored : ∀ v ∈ (afterLowering [] []).revisions, v = revisionRow ∨ v = loweredRow := by
    intro v hv
    have hv : v ∈ [revisionRow, loweredRow] := hv
    simpa only [List.mem_cons, List.not_mem_nil, or_false] using hv
  rcases h with ⟨v, hv, rfl⟩ | ⟨t, ht, p, hp, h⟩
  · rcases hstored v hv with rfl | rfl
    · exact Or.inl rfl
    · exact Or.inr rfl
  · rw [List.mem_singleton.mp ht, hpublished] at hp
    rw [List.mem_singleton.mp hp] at h
    refine Or.inr ?_
    rcases h with rfl | ⟨v, hv, rfl⟩
    · rfl
    · rcases hstored v hv with rfl | rfl <;> rfl

theorem lowering_collisionFree : CollisionFree fun bytes => ∃ revision,
    Considered loweringStep (afterLowering [] []) revision ∧ toVec revision.toJson = bytes := by
  have hne : revision.digest ≠ lowered.digest := by
    rw [revision_checked.2, lowered_checked.2]
    decide +kernel
  rintro x y ⟨a, ha, rfl⟩ ⟨b, hb, rfl⟩ hsum
  have hdigest : a.digest = b.digest := by
    rw [Revision.digest, Revision.digest, digest, digest, hsum]
  rcases considered_lowering ha with rfl | rfl <;> rcases considered_lowering hb with rfl | rfl
  · rfl
  · exact absurd hdigest hne
  · exact absurd hdigest.symm hne
  · rfl

theorem rollout_exact_lowering :
    Transition.Run Sys.Step supplied loweringStep
      { supplied with store := afterLowering [] [], clock := 1 } ∧
    ∀ r ∈ (afterLowering [] []).repositories,
    ∃ a ∈ (afterLowering [] []).assignments, a.id = r.assignmentId ∧
      ∃ own ∈ (afterLowering [] []).revisions, own.digest = r.revisionDigest ∧
      ∃ g ∈ (afterLowering [] []).revisions, g.digest = r.gradingRevision ∧
        SameExercise own.definition g.definition ∧
        SameGrading ((rolloutsOf loweringStep r.id a.key).getLast?.getD own.definition)
          g.definition ∧
        ∀ rollouts, rollouts.getLast? = (rolloutsOf loweringStep r.id a.key).getLast? →
          g.definition = graded own.definition rollouts :=
  ⟨loweringStep_run, (Sys.rollout_exact supplied_initial supplied_pristine loweringStep_run
    lowering_collisionFree).1⟩

end Sample

end Grading

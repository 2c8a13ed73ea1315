import SrgGrading.Store.Publishing

/-!
# Applying a whole catalog

The catalog is a map from course and slug to an assignment.  A publication sets
the entry of its exercise, and archiving marks one; `apply_set` does the first
for every publication and the second for what is left of the courses in scope.

* `publishInTransaction_exercise`, `archive_exercise`: what each does to the map.
* `applySet_exercise`: the map after a set was applied.
* `Sys.applySet_exact`: the set is applied exactly or not at all.
-/

open Fallible Relational

namespace Grading

/-- Course and slug. -/
def AssignmentRow.key (a : AssignmentRow) : String × String := (a.courseId, a.slug)

def Exercises.Publication.key (p : Exercises.Publication) : String × String :=
  (p.revision.courseId, p.revision.assignmentId)

/-- The assignment of a course under a slug. -/
def Store.exercise (s : Store) (key : String × String) : Option AssignmentRow :=
  lookup AssignmentRow.key key s.assignments

/-- The constraints of the table. -/
structure Catalogued (s : Store) : Prop where
  ids : Keyed AssignmentRow.id s.assignments
  keys : Keyed AssignmentRow.key s.assignments

/-- The exercise is in the catalog, at the revision of the publication. -/
def Publishes.Current [Sha256] (s : Store) (p : Exercises.Publication) : Prop :=
  ∃ a, s.exercise p.key = some a ∧ a.currentRevision = some p.revision.digest ∧ a.archived = false

section Rows
variable {s s' : Store} {p : Exercises.Publication}

theorem Catalogued.of_eq (hc : Catalogued s) (h : s'.assignments = s.assignments) :
    Catalogued s' := by
  refine ⟨?_, ?_⟩
  · rw [h]
    exact hc.ids
  · rw [h]
    exact hc.keys

theorem exercise_of_eq (h : s'.assignments = s.assignments) (key : String × String) :
    s'.exercise key = s.exercise key := by
  rw [Store.exercise, h]
  rfl

theorem Catalogued.mem_iff (hc : Catalogued s) {a : AssignmentRow} :
    a ∈ s.assignments ↔ s.exercise a.key = some a := by
  rw [Store.exercise, lookup_eq_some hc.keys]
  exact ⟨fun h => ⟨h, rfl⟩, fun h => h.1⟩

/-- An update that keeps identifiers and keys. -/
theorem Catalogued.update (hc : Catalogued s) {q : AssignmentRow → Bool}
    {f : AssignmentRow → AssignmentRow} (h : s'.assignments = updateWhere q f s.assignments)
    (hf : ∀ a, (f a).id = a.id ∧ (f a).key = a.key) : Catalogued s' := by
  refine ⟨?_, ?_⟩
  · rw [h]
    exact hc.ids.updateWhere fun a _ => (hf a).1
  · rw [h]
    exact hc.keys.updateWhere fun a _ => (hf a).2

theorem exercise_update {q : AssignmentRow → Bool} {f : AssignmentRow → AssignmentRow}
    (h : s'.assignments = updateWhere q f s.assignments) (hf : ∀ a, (f a).key = a.key)
    (key : String × String) :
    s'.exercise key = (s.exercise key).map fun a => if q a then f a else a := by
  rw [Store.exercise, h]
  exact lookup_updateWhere fun a _ => hf a

/-! ### Publishing one exercise -/

theorem find_exercise : s.assignments.find? (fun a =>
    a.courseId = p.revision.courseId && a.slug = p.revision.assignmentId) = s.exercise p.key := by
  rw [Store.exercise, lookup]
  congr 1
  funext a
  simp only [AssignmentRow.key, Exercises.Publication.key, Prod.mk.injEq, Bool.decide_and]

/-- `assignmentOf` finds the assignment or adds it. -/
theorem assignmentOf_exercise (hc : Catalogued s) {id out : Uuid}
    (h : Exercises.assignmentOf s id p.revision (s.assignments.find? fun a =>
      a.courseId = p.revision.courseId && a.slug = p.revision.assignmentId) = .ok (s', out)) :
    Catalogued s' ∧ (∃ a, s'.exercise p.key = some a ∧ a.id = out) ∧
      ∀ key, key ≠ p.key → s'.exercise key = s.exercise key := by
  rw [find_exercise] at h
  cases hprevious : s.exercise p.key with
  | some a =>
    rw [hprevious, Exercises.assignmentOf, pure_ok, Prod.mk.injEq] at h
    obtain ⟨rfl, hid⟩ := h
    exact ⟨hc, ⟨a, hprevious, hid⟩, fun _ _ => rfl⟩
  | none =>
    rw [hprevious] at h
    simp only [Exercises.assignmentOf, bind_ok, ensure_ok, pure_ok, Prod.mk.injEq] at h
    obtain ⟨_, hfresh, _, _, rfl, rfl⟩ := h
    simp only [Bool.not_eq_true', List.any_eq_false, decide_eq_true_eq] at hfresh
    have hnew : ∀ a ∈ s.assignments, a.key ≠ p.key := by
      intro a ha hkey
      obtain ⟨b, hb⟩ := exists_lookup ha hkey
      rw [Store.exercise, hb] at hprevious
      cases hprevious
    let row : AssignmentRow := ⟨id, p.revision.courseId, p.revision.assignmentId, none, false⟩
    have hself : lookup AssignmentRow.key row.key (s.assignments ++ [row]) = some row :=
      lookup_concat_self hnew
    refine ⟨⟨hc.ids.append hfresh, hc.keys.append hnew⟩, ⟨row, hself, rfl⟩, ?_⟩
    intro key hkey
    refine lookup_append_of_ne fun a ha => ?_
    rw [List.mem_singleton.mp ha]
    exact hkey.symm

variable [Sha256]

theorem insert_digest {assignment : Uuid} {revision : Revision} {hash : String}
    (h : Exercises.insert s assignment revision = .ok (s', hash)) : hash = revision.digest := by
  simp only [Exercises.insert, bind_ok] at h
  obtain ⟨_, _, grader, _, _, _, h⟩ := h
  split at h
  · rw [pure_ok, Prod.mk.injEq] at h
    exact h.2.symm
  · simp only [bind_ok, pure_ok, Prod.mk.injEq] at h
    obtain ⟨_, _, _, hhash⟩ := h
    exact hhash.symm

/-- **A publication sets the entry of its exercise** and no other. -/
theorem publishInTransaction_exercise (hc : Catalogued s) {fresh : Nat → Uuid}
    (h : Exercises.publishInTransaction s fresh p = .ok s') :
    Catalogued s' ∧ Publishes.Current s' p ∧
      ∀ key, key ≠ p.key → s'.exercise key = s.exercise key := by
  simp only [Exercises.publishInTransaction, bind_ok, pure_ok] at h
  obtain ⟨_, _, _, _, _, _, ⟨s₁, id⟩, h₁, ⟨s₂, hash⟩, h₂, s₃, h₃, rfl⟩ := h
  obtain ⟨hc₁, ⟨a, ha, hid⟩, hother⟩ := assignmentOf_exercise hc h₁
  have hsame : s₂.assignments = s₁.assignments := by
    rw [(RollsOut.insert h₂).rest]
  have hhash := insert_digest h₂
  have hc₂ : Catalogued s₂ := hc₁.of_eq hsame
  -- the row of `id` is that of the exercise
  have hrow : ∀ b ∈ s₂.assignments, b.id = id → b = a := by
    intro b hb hbid
    rw [hsame] at hb
    have hmem : a ∈ s₁.assignments := mem_of_lookup ha
    exact hc₁.ids.eq hb hmem (hbid.trans hid.symm)
  have hset : s₃.assignments = updateWhere (fun a => a.id = id)
      (fun a => { a with currentRevision := some hash, archived := false }) s₂.assignments := by
    rw [(RollsOut.rollOutExisting h₃).rest]
  have hkeys : ∀ key, s₃.exercise key = (s₁.exercise key).map fun b =>
      if b.id = id then { b with currentRevision := some hash, archived := false } else b := by
    intro key
    rw [exercise_update hset fun _ => rfl, exercise_of_eq hsame]
    simp only [decide_eq_true_eq]
  have hc₃ : Catalogued s₃ := hc₂.update hset fun _ => ⟨rfl, rfl⟩
  refine ⟨hc₃.of_eq rfl, ?_, fun key hkey => ?_⟩
  · have hkey := hkeys p.key
    rw [ha, Option.map_some, if_pos hid] at hkey
    exact ⟨_, hkey, congrArg some hhash, rfl⟩
  · have hall := hkeys key
    rw [← hother key hkey]
    cases hb : s₁.exercise key with
    | none =>
      rw [hb] at hall
      exact hall
    | some b =>
      have hmem : b ∈ s₂.assignments := by
        rw [hsame]
        exact mem_of_lookup hb
      have hne : b.id ≠ id := by
        intro hbid
        have hab := hrow b hmem hbid
        have hkb : b.key = key := key_of_lookup hb
        have hka : a.key = p.key := key_of_lookup ha
        rw [← hkb, hab] at hkey
        exact hkey hka
      rw [hb, Option.map_some, if_neg hne] at hall
      exact hall

/-- What a publication was checked for. -/
theorem publishInTransaction_checked {fresh : Nat → Uuid}
    (h : Exercises.publishInTransaction s fresh p = .ok s') :
    p.revision.validate = .ok () ∧ (s.exercise p.key).bind AssignmentRow.currentRevision =
      p.expected := by
  simp only [Exercises.publishInTransaction, bind_ok, check_ok, decide_eq_true_eq] at h
  obtain ⟨_, hvalid, _, _, _, hexpected, _⟩ := h
  rw [find_exercise] at hexpected
  exact ⟨hvalid, hexpected⟩

/-- **Publications of different exercises** set their entries and no other. -/
theorem publishAll_exercise : ∀ {l : List Exercises.Publication} {s s' : Store}
    {fresh : Nat → Uuid}, Catalogued s → (l.map Exercises.Publication.key).Nodup →
    Exercises.publishAll s fresh l = .ok s' →
    Catalogued s' ∧ (∀ p ∈ l, Publishes.Current s' p) ∧
      (∀ key, key ∉ l.map Exercises.Publication.key → s'.exercise key = s.exercise key) ∧
      ∀ p ∈ l, p.revision.validate = .ok () ∧
        (s.exercise p.key).bind AssignmentRow.currentRevision = p.expected := by
  intro l
  induction l with
  | nil =>
    intro s s' fresh hc _ h
    rw [Exercises.publishAll, pure_ok] at h
    rw [← h]
    exact ⟨hc, (fun p hp => by cases hp), (fun _ _ => rfl), fun p hp => by cases hp⟩
  | cons p rest ih =>
    intro s s' fresh hc hnodup h
    simp only [Exercises.publishAll, bind_ok] at h
    obtain ⟨s₁, h₁, h₂⟩ := h
    rw [List.map_cons, List.nodup_cons] at hnodup
    obtain ⟨hc₁, ⟨a, ha, hcurrent⟩, hother⟩ := publishInTransaction_exercise hc h₁
    obtain ⟨hc', hset, hkeep, hchecked⟩ := ih hc₁ hnodup.2 h₂
    refine ⟨hc', fun q hq => ?_, fun key hkey => ?_, fun q hq => ?_⟩
    · rcases List.mem_cons.mp hq with rfl | hrest
      · -- the later publications are of other exercises
        exact ⟨a, (hkeep q.key hnodup.1).trans ha, hcurrent⟩
      · exact hset q hrest
    · rw [List.map_cons, List.mem_cons, not_or] at hkey
      exact (hkeep key hkey.2).trans (hother key hkey.1)
    · rcases List.mem_cons.mp hq with rfl | hrest
      · exact publishInTransaction_checked h₁
      · have hne : q.key ≠ p.key := by
          intro hkey
          refine hnodup.1 ?_
          rw [← hkey]
          exact List.mem_map_of_mem hrest
        obtain ⟨hvalid, hexpected⟩ := hchecked q hrest
        rw [hother q.key hne] at hexpected
        exact ⟨hvalid, hexpected⟩

end Rows

/-! ### Archiving the rest -/

section Archive
variable {s : Store} {operator reason : String}

theorem archive_exercise (hc : Catalogued s) (k key : String × String) :
    Catalogued (Exercises.archive operator reason s k) ∧
      (Exercises.archive operator reason s k).exercise key =
        (s.exercise key).map fun a => if a.key = k then { a with archived := true } else a := by
  have hrows : (Exercises.archive operator reason s k).assignments =
      updateWhere (fun a => a.courseId = k.1 && a.slug = k.2) (fun a => { a with archived := true })
        s.assignments := rfl
  refine ⟨hc.update hrows fun _ => ⟨rfl, rfl⟩, ?_⟩
  rw [exercise_update hrows fun _ => rfl]
  congr 1
  funext a
  simp only [AssignmentRow.key, Prod.ext_iff, Bool.and_eq_true, decide_eq_true_eq]

/-- **Archiving marks the entries** of the given keys. -/
theorem archiveAll_exercise (operator reason : String) (l : List (String × String)) :
    ∀ {s : Store}, Catalogued s →
    Catalogued (l.foldl (Exercises.archive operator reason) s) ∧
      ∀ key, (l.foldl (Exercises.archive operator reason) s).exercise key =
        (s.exercise key).map fun a => if key ∈ l then { a with archived := true } else a := by
  induction l with
  | nil =>
    intro s hc
    refine ⟨hc, fun key => ?_⟩
    simp
  | cons k rest ih =>
    intro s hc
    obtain ⟨hc', hrest⟩ := ih (archive_exercise hc k k).1
    refine ⟨hc', fun key => ?_⟩
    rw [List.foldl_cons, hrest key, (archive_exercise hc k key).2]
    cases ha : s.exercise key with
    | none => rfl
    | some a =>
      have hkey : a.key = key := key_of_lookup ha
      simp only [Option.map_some, hkey, List.mem_cons, Option.some_inj]
      by_cases hk : key = k
      · simp [hk]
      · simp [hk]

end Archive

/-! ### The checks before -/

theorem desired_spec {expected : OrderedMap String (List Exercises.CatalogEntry)} :
    ∀ {l : List Exercises.Publication} {set keep : List (String × String)},
    Exercises.desired expected set l = .ok keep →
    (∀ p ∈ l, expected.contains p.key.1 = true) ∧ (l.map Exercises.Publication.key).Nodup ∧
      (∀ p ∈ l, p.key ∉ set) ∧
      ∀ key, key ∈ keep ↔ key ∈ set ∨ key ∈ l.map Exercises.Publication.key := by
  intro l
  induction l with
  | nil =>
    intro set keep h
    rw [Exercises.desired, pure_ok] at h
    rw [← h]
    simp
  | cons p rest ih =>
    intro set keep h
    simp only [Exercises.desired, bind_ok, check_ok, Bool.and_eq_true, Bool.not_eq_true',
      List.contains_eq_mem, decide_eq_false_iff_not] at h
    obtain ⟨_, ⟨hscope, hnew⟩, h⟩ := h
    obtain ⟨hscopes, hnodup, hfresh, hkeep⟩ := ih h
    refine ⟨List.forall_mem_cons.mpr ⟨hscope, hscopes⟩, ?_, List.forall_mem_cons.mpr ⟨hnew, ?_⟩, ?_⟩
    · rw [List.map_cons, List.nodup_cons]
      refine ⟨fun hmem => ?_, hnodup⟩
      obtain ⟨q, hq, hkey⟩ := List.mem_map.mp hmem
      refine hfresh q hq ?_
      rw [hkey]
      exact List.mem_cons_self
    · exact fun q hq hmem => hfresh q hq (List.mem_cons_of_mem _ hmem)
    · intro key
      rw [hkeep key, List.map_cons, List.mem_cons, List.mem_cons, or_assoc]
      exact or_left_comm

section Preview
variable {s : Store} {collate : String → String → Bool}

theorem confirmPreview_spec : ∀ {l : List (String × List Exercises.CatalogEntry)},
    Exercises.confirmPreview s collate l = .ok () →
    ∀ e ∈ l, (∃ c ∈ s.courses, c.id = e.1) ∧ Exercises.catalog s collate e.1 = e.2 := by
  intro l
  induction l with
  | nil =>
    intro _ e he
    cases he
  | cons e rest ih =>
    intro h
    simp only [Exercises.confirmPreview, bind_ok, check_ok, decide_eq_true_eq,
      List.any_eq_true] at h
    obtain ⟨_, hcourse, _, hsame, h⟩ := h
    exact List.forall_mem_cons.mpr ⟨⟨hcourse, hsame⟩, ih h⟩

theorem mem_catalog {course : String} {entry : Exercises.CatalogEntry} :
    entry ∈ Exercises.catalog s collate course ↔
      ∃ a ∈ s.assignments, a.courseId = course ∧ ⟨a.slug, a.currentRevision, a.archived⟩ = entry := by
  simp only [Exercises.catalog, List.mem_mergeSort, List.mem_map, List.mem_filter,
    decide_eq_true_eq, and_assoc]

/-- What is left out is what is in the catalog and not kept. -/
theorem mem_leftOut (hc : Catalogued s) {keep : List (String × String)}
    {expected : OrderedMap String (List Exercises.CatalogEntry)}
    (hpreview : ∀ e ∈ expected.entries, Exercises.catalog s collate e.1 = e.2)
    {key : String × String} :
    key ∈ Exercises.leftOut keep expected.entries ↔ expected.contains key.1 = true ∧
      key ∉ keep ∧ ∃ a, s.exercise key = some a ∧ a.archived = false := by
  simp only [Exercises.leftOut, List.mem_flatMap, List.mem_map, List.mem_filter, Bool.and_eq_true,
    Bool.not_eq_true', List.contains_eq_mem, decide_eq_false_iff_not]
  constructor
  · rintro ⟨e, he, entry, ⟨hentry, harchived, hkeep⟩, rfl⟩
    rw [← hpreview e he, mem_catalog] at hentry
    obtain ⟨a, ha, hcourse, rfl⟩ := hentry
    refine ⟨List.any_eq_true.mpr ⟨e, he, decide_eq_true rfl⟩, hkeep, a, ?_, harchived⟩
    rw [hc.mem_iff] at ha
    rw [← ha, AssignmentRow.key, hcourse]
  · rintro ⟨hscope, hkeep, a, ha, harchived⟩
    obtain ⟨e, he, hcourse⟩ := List.any_eq_true.mp hscope
    rw [decide_eq_true_eq] at hcourse
    have hkey : a.key = key := key_of_lookup ha
    have hmem : a ∈ s.assignments := mem_of_lookup ha
    have hslug : (e.1, a.slug) = key := by
      rw [hcourse, ← hkey]
      rfl
    refine ⟨e, he, ⟨a.slug, a.currentRevision, a.archived⟩, ⟨?_, harchived, ?_⟩, hslug⟩
    · rw [← hpreview e he, mem_catalog]
      refine ⟨a, hmem, ?_, rfl⟩
      rw [hcourse, ← hkey]
      rfl
    · rw [hslug]
      exact hkeep

end Preview

/-! ### The result -/

section Result
variable [Sha256] {s s' : Store} {set : Exercises.ApplySet} {fresh : Nat → Uuid}
  {collate : String → String → Bool}

/-- What a set must meet to be applied. -/
structure Applicable (collate : String → String → Bool) (set : Exercises.ApplySet) (s : Store) :
    Prop where
  reason : Text.blank set.reason = false
  preview : ∀ e ∈ set.expected.entries, (∃ c ∈ s.courses, c.id = e.1) ∧
    Exercises.catalog s collate e.1 = e.2
  scope : ∀ p ∈ set.publications, set.expected.contains p.revision.courseId = true
  different : (set.publications.map Exercises.Publication.key).Nodup
  valid : ∀ p ∈ set.publications, p.revision.validate = .ok ()
  expected : ∀ p ∈ set.publications,
    (s.exercise p.key).bind AssignmentRow.currentRevision = p.expected

/-- The assignments after a set was applied to those before. -/
structure Applied (set : Exercises.ApplySet) (s s' : Store) : Prop where
  active : ∀ course, set.expected.contains course = true → ∀ slug,
    (∃ a ∈ s'.assignments, a.courseId = course ∧ a.slug = slug ∧ a.archived = false) ↔
      ∃ p ∈ set.publications, p.revision.courseId = course ∧ p.revision.assignmentId = slug
  current : ∀ p ∈ set.publications, ∀ a ∈ s'.assignments, a.courseId = p.revision.courseId →
    a.slug = p.revision.assignmentId → a.currentRevision = some p.revision.digest
  leftOut : ∀ a ∈ s.assignments, set.expected.contains a.courseId = true →
    (¬ ∃ p ∈ set.publications, p.revision.courseId = a.courseId ∧
      p.revision.assignmentId = a.slug) → { a with archived := true } ∈ s'.assignments
  others : ∀ a, set.expected.contains a.courseId = false →
    (a ∈ s'.assignments ↔ a ∈ s.assignments)

/-- **The map after a set was applied.** -/
theorem applySet_exercise (hc : Catalogued s)
    (h : Exercises.applySet s fresh collate set = .ok s') (hdry : set.dryRun = false) :
    Catalogued s' ∧ (∀ p ∈ set.publications, Publishes.Current s' p) ∧
      ∀ key, key ∉ set.publications.map Exercises.Publication.key →
        s'.exercise key = (s.exercise key).map fun a =>
          if set.expected.contains key.1 then { a with archived := true } else a := by
  simp only [Exercises.applySet, bind_ok, pure_ok, hdry, Bool.false_eq_true, if_false] at h
  obtain ⟨_, _, keep, hdesired, _, hpreview, s₁, hpublished, rfl⟩ := h
  obtain ⟨hscope, hnodup, _, hkeep⟩ := desired_spec hdesired
  obtain ⟨hc₁, hcurrent, hother, _⟩ := publishAll_exercise hc hnodup hpublished
  obtain ⟨hc', harchived⟩ := archiveAll_exercise set.operator set.reason
    (Exercises.leftOut keep set.expected.entries) hc₁
  have hleft : ∀ key, key ∈ Exercises.leftOut keep set.expected.entries ↔
      set.expected.contains key.1 = true ∧ key ∉ keep ∧
        ∃ a, s.exercise key = some a ∧ a.archived = false := fun key =>
    mem_leftOut hc fun e he => (confirmPreview_spec hpreview e he).2
  refine ⟨hc', fun p hp => ?_, fun key hkey => ?_⟩
  · obtain ⟨a, ha, hrevision, hactive⟩ := hcurrent p hp
    have hkept : p.key ∉ Exercises.leftOut keep set.expected.entries := by
      rw [hleft]
      rintro ⟨_, hnot, _⟩
      exact hnot ((hkeep p.key).mpr (Or.inr (List.mem_map_of_mem hp)))
    refine ⟨a, ?_, hrevision, hactive⟩
    rw [harchived, ha, Option.map_some, if_neg hkept]
  · rw [harchived, hother key hkey]
    have hnot : key ∉ keep := by
      rw [hkeep]
      exact fun hmem => hmem.elim (List.not_mem_nil) hkey
    cases ha : s.exercise key with
    | none => rfl
    | some a =>
      rw [Option.map_some, Option.map_some, Option.some_inj]
      by_cases hin : set.expected.contains key.1 = true
      · rw [if_pos hin]
        by_cases hactive : a.archived = false
        · rw [if_pos ((hleft key).mpr ⟨hin, hnot, a, ha, hactive⟩)]
        · -- it was archived before
          have harch : a.archived = true := by simpa using hactive
          split
          · rfl
          · rw [← harch]
      · have hout : key ∉ Exercises.leftOut keep set.expected.entries := by
          rw [hleft]
          exact fun hmem => hin hmem.1
        rw [if_neg hin, if_neg hout]

theorem applySet_applicable (hc : Catalogued s)
    (h : Exercises.applySet s fresh collate set = .ok s') : Applicable collate set s := by
  simp only [Exercises.applySet, bind_ok, check_ok, pure_ok, Bool.not_eq_true'] at h
  obtain ⟨_, hreason, keep, hdesired, _, hpreview, s₁, hpublished, _⟩ := h
  obtain ⟨hscope, hnodup, _, _⟩ := desired_spec hdesired
  obtain ⟨_, _, _, hchecked⟩ := publishAll_exercise hc hnodup hpublished
  exact ⟨hreason, confirmPreview_spec hpreview, hscope, hnodup, fun p hp => (hchecked p hp).1,
    fun p hp => (hchecked p hp).2⟩

theorem applySet_applied (hc : Catalogued s)
    (h : Exercises.applySet s fresh collate set = .ok s') (hdry : set.dryRun = false) :
    Applied set s s' := by
  obtain ⟨hc', hcurrent, hother⟩ := applySet_exercise hc h hdry
  have hscope := (applySet_applicable hc h).scope
  have hmem : ∀ {a : AssignmentRow}, a.key ∈ set.publications.map Exercises.Publication.key ↔
      ∃ p ∈ set.publications, p.revision.courseId = a.courseId ∧
        p.revision.assignmentId = a.slug := by
    intro a
    simp only [List.mem_map, Exercises.Publication.key, AssignmentRow.key, Prod.mk.injEq]
  refine ⟨fun course hcourse slug => ⟨?_, ?_⟩, ?_, ?_, ?_⟩
  · rintro ⟨a, ha, rfl, rfl, hactive⟩
    by_contra hnone
    rw [hc'.mem_iff, hother a.key (hmem.not.mpr hnone)] at ha
    obtain ⟨b, _, hb⟩ := Option.map_eq_some_iff.mp ha
    have hin : set.expected.contains a.key.1 = true := hcourse
    rw [if_pos hin] at hb
    rw [← hb] at hactive
    cases hactive
  · rintro ⟨p, hp, rfl, rfl⟩
    obtain ⟨a, ha, _, hactive⟩ := hcurrent p hp
    have hkey : a.key = p.key := key_of_lookup ha
    rw [AssignmentRow.key, Exercises.Publication.key, Prod.mk.injEq] at hkey
    exact ⟨a, mem_of_lookup ha, hkey.1, hkey.2, hactive⟩
  · intro p hp a ha hcourse hslug
    obtain ⟨b, hb, hrevision, _⟩ := hcurrent p hp
    have hkey : a.key = p.key := by
      rw [AssignmentRow.key, hcourse, hslug]
      rfl
    rw [hc'.mem_iff, hkey, hb, Option.some_inj] at ha
    rw [← ha]
    exact hrevision
  · intro a ha hcourse hnone
    rw [hc.mem_iff] at ha
    have hafter := hother a.key (hmem.not.mpr hnone)
    have hin : set.expected.contains a.key.1 = true := hcourse
    rw [ha, Option.map_some, if_pos hin] at hafter
    exact mem_of_lookup hafter
  · intro a hcourse
    have hnone : a.key ∉ set.publications.map Exercises.Publication.key := by
      rw [hmem]
      rintro ⟨p, hp, hpcourse, _⟩
      have hin := hscope p hp
      rw [hpcourse, hcourse] at hin
      cases hin
    have hout : set.expected.contains a.key.1 = false := hcourse
    rw [hc'.mem_iff, hc.mem_iff, hother a.key hnone, hout]
    simp

/-- **A set is applied exactly or not at all.** -/
theorem Sys.applySet_exact {σ : Sys} {now : Time} (hc : Catalogued σ.store) :
    (∀ s', Exercises.applySet σ.store fresh collate set = .ok s' →
      Applicable collate set σ.store ∧ (set.dryRun = false →
        Applied set σ.store (σ.perform now (.store (.applySet fresh collate set))).store)) ∧
      ((∃ e, Exercises.applySet σ.store fresh collate set = .error e) ∨ set.dryRun = true →
        (σ.perform now (.store (.applySet fresh collate set))).store = σ.store) := by
  refine ⟨fun s' h => ⟨applySet_applicable hc h, fun hdry => ?_⟩, ?_⟩
  · have happlied := applySet_applied hc h hdry
    simp only [Sys.perform, StoreOp.exec, h]
    exact happlied
  · rintro (⟨e, he⟩ | hdry)
    · simp only [Sys.perform, StoreOp.exec, he]
    · cases h : Exercises.applySet σ.store fresh collate set with
      | error e => simp only [Sys.perform, StoreOp.exec, h]
      | ok s' =>
        have hsame : s' = σ.store := by
          simp only [Exercises.applySet, bind_ok, pure_ok, hdry, if_true] at h
          obtain ⟨_, _, _, _, _, _, _, _, hs⟩ := h
          exact hs.symm
        simp only [Sys.perform, StoreOp.exec, h]
        exact hsame

end Result

/-! ### A set that is applied -/

namespace Sample
attribute [local instance] Sha256.standard

/-- The exercise with fewer points. -/
def lowered : Revision := { revision with assignment := { assignment with maxPoints := 5 } }

/-- The digest of `lowered`. -/
def loweredDigest : String := "d35816e3eca7026733d4203c63abc8a2481319256bc387a0d49ac6c5dfe08153"

theorem lowered_checked : lowered.validate = .ok () ∧ lowered.digest = loweredDigest :=
  ⟨revision_with (by decide +kernel) ⟨rfl, rfl, rfl, rfl⟩ (by decide +kernel), by decide +kernel⟩

/-- The deployment with two exercises. -/
def twoExercises : Store :=
  { start.store with
    assignments := [⟨2, "prog", "loops", some revisionDigest, false⟩,
      ⟨7, "prog", "trees", some revisionDigest, false⟩]
    artifacts := [⟨"dddddddddddddddddddddddddddddddddddddddddddddddddddddddddddddddd", 1, "grader"⟩] }

def lower : Exercises.Publication :=
  ⟨lowered, some revisionDigest, false, false, "operator", "fewer points"⟩

/-- The set of this exercise alone. -/
def wholeSet : Exercises.ApplySet where
  expected := .ofList [("prog", [⟨"loops", some revisionDigest, false⟩,
    ⟨"trees", some revisionDigest, false⟩])]
  publications := [lower]
  operator := "operator"
  reason := "apply"
  dryRun := false

theorem lower_ok : ∃ s', Exercises.publishInTransaction twoExercises (ids 100) lower = .ok s' := by
  have hunknown : (twoExercises.revisions.any fun v => v.digest = loweredDigest) = false := by
    decide +kernel
  obtain ⟨s₁, hinsert⟩ : ∃ s₁, Exercises.insert twoExercises 2 lowered =
      .ok (s₁, lowered.digest) := by
    simp only [Exercises.insert, bind_ok, lowered_checked.2, hunknown, Bool.false_eq_true, if_false,
      ensure_ok, pure_ok, Prod.mk.injEq, and_true]
    exact ⟨_, (), lowered_checked.1, grader, rfl, (), by decide +kernel, (), by decide +kernel, rfl⟩
  simp only [Exercises.publishInTransaction, bind_ok, pure_ok]
  exact ⟨_, (), lowered_checked.1, (), by decide +kernel, (), by decide +kernel, (twoExercises, 2),
    rfl, _, hinsert, _, rfl, rfl⟩

/-- The catalog is that of the preview. -/
theorem catalog_twoExercises : Exercises.catalog twoExercises (fun a b => decide (a ≤ b)) "prog" =
    [⟨"loops", some revisionDigest, false⟩, ⟨"trees", some revisionDigest, false⟩] := by
  have hsorted : [(⟨"loops", some revisionDigest, false⟩ : Exercises.CatalogEntry),
      ⟨"trees", some revisionDigest, false⟩].Pairwise
        fun a b => decide (a.slug ≤ b.slug) = true := by
    decide +kernel
  exact List.mergeSort_of_pairwise hsorted

theorem wholeSet_ok : ∃ s', Exercises.applySet twoExercises (ids 100)
    (fun a b => decide (a ≤ b)) wholeSet = .ok s' := by
  obtain ⟨s', hs'⟩ := lower_ok
  have hentries : wholeSet.expected.entries = [("prog", [⟨"loops", some revisionDigest, false⟩,
      ⟨"trees", some revisionDigest, false⟩])] := rfl
  have hpreview : Exercises.confirmPreview twoExercises (fun a b => decide (a ≤ b))
      wholeSet.expected.entries = .ok () := by
    simp only [hentries, Exercises.confirmPreview, catalog_twoExercises, bind_ok, pure_ok, check_ok]
    exact ⟨(), by decide +kernel, (), by decide, trivial⟩
  simp only [Exercises.applySet, bind_ok, pure_ok]
  refine ⟨_, (), by decide +kernel, [("prog", "loops")], by decide +kernel, (), hpreview, s', ?_,
    rfl⟩
  simp only [wholeSet, Exercises.publishAll, bind_ok, pure_ok]
  exact ⟨s', hs', rfl⟩

def twoStart : Sys := ⟨twoExercises, 0, []⟩

/-- **The exercise that is left out is archived**, and the other one has the new
revision. -/
theorem applySet_exact_wholeSet : ∃ s, s = (twoStart.perform 1
      (.store (.applySet (ids 100) (fun a b => decide (a ≤ b)) wholeSet))).store ∧
    Applied wholeSet twoExercises s ∧
    (∃ a ∈ s.assignments, a.slug = "loops" ∧ a.currentRevision = some lowered.digest) ∧
    ⟨7, "prog", "trees", some revisionDigest, true⟩ ∈ s.assignments := by
  have hc : Catalogued twoStart.store := ⟨by decide +kernel, by decide +kernel⟩
  have hscope : wholeSet.expected.contains "prog" = true := by decide +kernel
  have hslug : lowered.assignmentId ≠ "trees" := by decide
  obtain ⟨s', hs'⟩ := wholeSet_ok
  have happlied : Applied wholeSet twoStart.store (twoStart.perform 1
      (.store (.applySet (ids 100) (fun a b => decide (a ≤ b)) wholeSet))).store :=
    ((Sys.applySet_exact hc).1 s' hs').2 rfl
  refine ⟨_, rfl, happlied, ?_, ?_⟩
  · obtain ⟨a, ha, hcourse, hloops, _⟩ := (happlied.active "prog" hscope "loops").mpr
      ⟨lower, List.mem_singleton_self _, rfl, rfl⟩
    exact ⟨a, ha, hloops, happlied.current lower (List.mem_singleton_self _) a ha hcourse hloops⟩
  · refine happlied.leftOut ⟨7, "prog", "trees", some revisionDigest, false⟩
      (List.mem_cons_of_mem _ (List.mem_singleton_self _)) hscope ?_
    rintro ⟨p, hp, _, htrees⟩
    rw [List.mem_singleton.mp hp] at htrees
    exact hslug htrees

end Sample

end Grading

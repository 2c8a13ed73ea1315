import SrgGrading.Store.System

/-!
# What publications write

Publishing writes assignments, adds revisions, changes the grading revision of
repositories and records what it did; `apply_set` is a series of these.

* `Publishes.trans`: publications compose.
* `Publishes.publish`, `Publishes.applySet`: both operations are some.
-/

open Fallible Relational

namespace Grading

/-- A repository, possibly with another grading revision. -/
def Regraded (r r' : StudentRepository) : Prop :=
  r' = { r with gradingRevision := r'.gradingRevision }

/-- What storing and rolling out a revision changes. -/
structure RollsOut (s s' : Store) : Prop where
  rest : s' = { s with revisions := s'.revisions, repositories := s'.repositories }
  repositories : Grows StudentRepository.id Regraded (fun _ => False) s.repositories s'.repositories
  revisions : Grows AssignmentRevision.digest Eq (fun _ => True) s.revisions s'.revisions

/-- What publications change. -/
structure Publishes (s s' : Store) : Prop where
  rest : s' = { s with
    assignments := s'.assignments, revisions := s'.revisions
    repositories := s'.repositories, audit := s'.audit }
  repositories : Grows StudentRepository.id Regraded (fun _ => False) s.repositories s'.repositories
  revisions : Grows AssignmentRevision.digest Eq (fun _ => True) s.revisions s'.revisions

theorem Regraded.refl (r : StudentRepository) : Regraded r r := rfl

theorem Regraded.trans {a b c : StudentRepository} (h : Regraded a b) (h' : Regraded b c) :
    Regraded a c := by
  rw [Regraded] at *
  rw [h', h]

/-! ### Revisions -/

namespace RollsOut

variable {s s' s'' : Store}

theorem refl (s : Store) : RollsOut s s :=
  ⟨rfl, Grows.refl fun r _ => .refl r, Grows.refl fun _ _ => rfl⟩

theorem trans (h : RollsOut s s') (h' : RollsOut s' s'') : RollsOut s s'' where
  rest := by
    have hrest := h'.rest
    rw [h.rest] at hrest
    exact hrest
  repositories := h.repositories.trans h'.repositories (fun _ _ _ _ => .trans)
    fun _ _ hfalse _ => hfalse.elim
  revisions := h.revisions.trans h'.revisions (fun _ _ _ _ => Eq.trans) fun _ _ _ _ => trivial

theorem setGrading (s : Store) (repository : Uuid) (hash : String) :
    RollsOut s (s.updateRepositories (fun r => r.id = repository) fun r =>
      { r with gradingRevision := hash }) where
  rest := rfl
  repositories := .update (fun _ _ _ => ⟨rfl, rfl⟩) fun r _ => .refl r
  revisions := Grows.refl fun _ _ => rfl

variable [Sha256]

theorem insert {assignment : Uuid} {revision : Revision} {hash : String}
    (h : Exercises.insert s assignment revision = .ok (s', hash)) : RollsOut s s' := by
  simp only [Exercises.insert, bind_ok] at h
  obtain ⟨_, _, grader, _, _, _, h⟩ := h
  split at h
  · rw [pure_ok, Prod.mk.injEq] at h
    rw [← h.1]
    exact refl s
  · rename_i hnew
    simp only [bind_ok, pure_ok, Prod.mk.injEq] at h
    obtain ⟨_, _, rfl, _⟩ := h
    simp only [List.any_eq_true, decide_eq_true_eq, not_exists, not_and] at hnew
    exact ⟨rfl, Grows.refl fun r _ => .refl r,
      .insert (fun _ _ => rfl) trivial fun v hv => hnew v hv⟩

theorem rollOut {assignment : Uuid} {revision : Revision} :
    ∀ {l : List (Uuid × Revision)} {s s' : Store},
    Exercises.rollOut assignment revision s l = .ok s' → RollsOut s s' := by
  intro l
  induction l with
  | nil =>
    intro s s' h
    rw [Exercises.rollOut, pure_ok] at h
    rw [h]
    exact refl s'
  | cons e rest ih =>
    obtain ⟨repository, definition⟩ := e
    intro s s' h
    simp only [Exercises.rollOut, bind_ok] at h
    obtain ⟨own, _, ⟨s₁, hash⟩, h₁, h₂⟩ := h
    exact (insert h₁).trans ((setGrading s₁ repository hash).trans (ih h₂))

theorem rollOutExisting {id : Uuid} {p : Exercises.Publication}
    (h : Exercises.rollOutExisting s id p = .ok s') : RollsOut s s' := by
  rw [Exercises.rollOutExisting] at h
  split at h
  · exact rollOut h
  · rw [pure_ok] at h
    rw [h]
    exact refl s'

end RollsOut

/-! ### Publications -/

namespace Publishes

variable {s s' s'' : Store}

theorem trans (h : Publishes s s') (h' : Publishes s' s'') : Publishes s s'' where
  rest := by
    have hrest := h'.rest
    rw [h.rest] at hrest
    exact hrest
  repositories := h.repositories.trans h'.repositories (fun _ _ _ _ => .trans)
    fun _ _ hfalse _ => hfalse.elim
  revisions := h.revisions.trans h'.revisions (fun _ _ _ _ => Eq.trans) fun _ _ _ _ => trivial

theorem of_rollsOut (h : RollsOut s s') : Publishes s s' where
  rest := by rw [h.rest]
  repositories := h.repositories
  revisions := h.revisions

theorem refl (s : Store) : Publishes s s := of_rollsOut (.refl s)

/-- Assignments and the audit log alone. -/
theorem of_rest (h : s' = { s with assignments := s'.assignments, audit := s'.audit }) :
    Publishes s s' where
  rest := by rw [h]
  repositories := .of_eq (by rw [h]) fun r _ => .refl r
  revisions := .of_eq (by rw [h]) fun _ _ => rfl

theorem assignmentOf {id out : Uuid} {revision : Revision} {previous : Option AssignmentRow}
    (h : Exercises.assignmentOf s id revision previous = .ok (s', out)) : Publishes s s' := by
  cases previous with
  | some a =>
    rw [Exercises.assignmentOf, pure_ok, Prod.mk.injEq] at h
    rw [← h.1]
    exact refl s
  | none =>
    simp only [Exercises.assignmentOf, bind_ok, pure_ok, Prod.mk.injEq] at h
    obtain ⟨_, _, _, _, rfl, _⟩ := h
    exact of_rest rfl

variable [Sha256]

theorem publishInTransaction {fresh : Nat → Uuid} {p : Exercises.Publication}
    (h : Exercises.publishInTransaction s fresh p = .ok s') : Publishes s s' := by
  simp only [Exercises.publishInTransaction, bind_ok, pure_ok] at h
  obtain ⟨_, _, _, _, _, _, ⟨s₁, id⟩, h₁, ⟨s₂, hash⟩, h₂, s₃, h₃, rfl⟩ := h
  have hinsert := of_rollsOut (.insert h₂)
  have hcurrent : Publishes s₂ s₃ := (of_rest rfl).trans (of_rollsOut (.rollOutExisting h₃))
  exact (assignmentOf h₁).trans (hinsert.trans (hcurrent.trans (of_rest rfl)))

theorem publish {fresh : Nat → Uuid} {p : Exercises.Publication}
    (h : Exercises.publish s fresh p = .ok s') : Publishes s s' := by
  simp only [Exercises.publish, bind_ok, pure_ok] at h
  obtain ⟨s₁, h₁, rfl⟩ := h
  split
  · exact refl s
  · exact publishInTransaction h₁

theorem publishAll : ∀ {l : List Exercises.Publication} {s s' : Store} {fresh : Nat → Uuid},
    Exercises.publishAll s fresh l = .ok s' → Publishes s s' := by
  intro l
  induction l with
  | nil =>
    intro s s' fresh h
    rw [Exercises.publishAll, pure_ok] at h
    rw [h]
    exact refl s'
  | cons p rest ih =>
    intro s s' fresh h
    simp only [Exercises.publishAll, bind_ok] at h
    obtain ⟨s₁, h₁, h₂⟩ := h
    exact (publishInTransaction h₁).trans (ih h₂)

omit [Sha256] in
theorem archiveAll {operator reason : String} (l : List (String × String)) (s : Store) :
    Publishes s (l.foldl (Exercises.archive operator reason) s) := by
  induction l generalizing s with
  | nil => exact refl s
  | cons key rest ih =>
    have hfirst : Publishes s (Exercises.archive operator reason s key) := of_rest rfl
    exact hfirst.trans (ih _)

theorem applySet {fresh : Nat → Uuid} {collate : String → String → Bool}
    {set : Exercises.ApplySet} (h : Exercises.applySet s fresh collate set = .ok s') :
    Publishes s s' := by
  simp only [Exercises.applySet, bind_ok, pure_ok] at h
  obtain ⟨_, _, keep, _, _, _, s₁, h₁, rfl⟩ := h
  split
  · exact refl s
  · exact (publishAll h₁).trans (archiveAll _ s₁)

end Publishes

end Grading

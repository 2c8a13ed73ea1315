import SrgGrading.Core.Config

/-!
# Catalog files

`gradingctl apply` reads any number of catalog files and merges them by course.

* `mergeInto_ok`: what the loop over the files checked, and what it adds.
* `merge_exact`: the order of the files does not matter, and nothing is lost.
-/

open Fallible

namespace Grading

namespace ExerciseFiles

/-! ### Files -/

structure Entry where
  template : String
  templateRef : String
  grader : String
  graderRef : String
  runnerImage : Option String
  opensAt : DateTime
  deadline : DateTime
  existing : Bool
  deriving DecidableEq

structure File where
  schemaVersion : Nat
  course : String
  runnerImage : Option String
  exercises : OrderedMap String Entry

abbrev Courses := OrderedMap String (OrderedMap String Entry)

/-- An entry with the image of its file, where it has none of its own. -/
def File.filled (file : File) (entry : Entry) : Entry :=
  if entry.runnerImage.isNone then { entry with runnerImage := file.runnerImage } else entry

/-! ### Merging -/

/-- The loop of `merge` over the exercises of a file. -/
def mergeEntries (file : File) : List (String × Entry) → OrderedMap String Entry →
    Except Error (OrderedMap String Entry)
  | [], entries => return entries
  | (name, entry) :: rest, entries => do
    check (identifier name) ("invalid exercise name " ++ name)
    check (entry.opensAt < entry.deadline) ("invalid times for " ++ file.course ++ "/" ++ name)
    check (!entries.contains name)
      ("duplicate exercise " ++ file.course ++ "/" ++ name ++ " across input files")
    mergeEntries file rest (entries.insert name (file.filled entry))

section Merge

-- The characters beyond ASCII that are printable and extend no grapheme.
variable (plain : Char → Bool)

/-- `char::escape_debug_ext`, of a character between double quotes. -/
def escapeDebug (c : Char) : List Char :=
  if c = '\x00' then ['\\', '0']
  else if c = '\t' then ['\\', 't']
  else if c = '\r' then ['\\', 'r']
  else if c = '\n' then ['\\', 'n']
  else if c = '"' then ['\\', '"']
  else if c = '\\' then ['\\', '\\']
  else if 32 ≤ c.toNat ∧ c.toNat < 127 ∨ 127 < c.toNat ∧ plain c = true then [c]
  else "\\u\x7b".toList ++ Nat.toDigits 16 c.toNat ++ "\x7d".toList

/-- `{:?}` of a text. -/
def debug (s : String) : String :=
  String.ofList ('"' :: (s.toList.flatMap (escapeDebug plain) ++ ['"']))

/-- The loop of `merge` over the files. -/
def mergeInto : List File → Courses → Except Error Courses
  | [], courses => return courses
  | file :: rest, courses => do
    check (file.schemaVersion = 1)
      ("local exercise catalog schema_version must be 1, got " ++ toString file.schemaVersion ++
        "; schema 3 belongs in the grader repository's exercise.toml")
    check (identifier file.course)
      ("invalid course ID " ++ debug plain file.course ++ ": use 1–80 ASCII letters, digits, hyphens " ++
        "or underscores, matching course.id in the course file")
    let entries ← mergeEntries file file.exercises.entries
      ((courses.get? file.course).getD .empty)
    mergeInto rest (courses.insert file.course entries)

def merge (files : List File) : Except Error Courses := mergeInto plain files .empty

end Merge

/-! ### What a merge does -/

/-- What is wrong with neither an entry nor its name. -/
def ValidEntry (e : String × Entry) : Prop := identifier e.1 = true ∧ e.2.opensAt < e.2.deadline

structure Valid (file : File) : Prop where
  schema : file.schemaVersion = 1
  course : identifier file.course = true
  exercises : ∀ e ∈ file.exercises.entries, ValidEntry e

/-- No exercise is in both files. -/
def Disjoint (f g : File) : Prop :=
  f.course = g.course → ∀ name, f.exercises.get? name = none ∨ g.exercises.get? name = none

/-- The entry of a course under a name. -/
def entryOf (courses : Courses) (course name : String) : Option Entry :=
  (courses.get? course).bind fun entries => entries.get? name

theorem entryOf_eq (courses : Courses) (course name : String) :
    entryOf courses course name = ((courses.get? course).getD .empty).get? name := by
  rw [entryOf]
  cases courses.get? course <;> rfl

/-- An exercise some file lists, with its image. -/
def Listed (files : List File) (course name : String) (entry : Entry) : Prop :=
  ∃ f ∈ files, f.course = course ∧ ∃ e, f.exercises.get? name = some e ∧ entry = f.filled e

theorem listed_cons {f : File} {files : List File} {course name : String} {entry : Entry} :
    Listed (f :: files) course name entry ↔
      (f.course = course ∧ ∃ e, f.exercises.get? name = some e ∧ entry = f.filled e) ∨
        Listed files course name entry := by
  simp only [Listed, List.exists_mem_cons_iff]

theorem mergeEntries_ok {file : File} : ∀ {l : List (String × Entry)}
    {entries entries' : OrderedMap String Entry}, mergeEntries file l entries = .ok entries' →
    (∀ e ∈ l, ValidEntry e) ∧ (∀ e ∈ l, entries.get? e.1 = none) ∧
      ∀ name x, entries'.get? name = some x ↔
        entries.get? name = some x ∨ ∃ e, (name, e) ∈ l ∧ x = file.filled e := by
  intro l
  induction l with
  | nil =>
    intro entries entries' h
    rw [mergeEntries, pure_ok] at h
    subst h
    simp
  | cons e rest ih =>
    intro entries entries' h
    obtain ⟨name, entry⟩ := e
    simp only [mergeEntries, bind_ok, check_ok, Bool.not_eq_true', decide_eq_true_eq,
      OrderedMap.contains_eq_false_iff] at h
    obtain ⟨_, hname, _, htimes, _, hfree, h⟩ := h
    obtain ⟨hvalid, hfresh, hholds⟩ := ih h
    have hget : ∀ n, (entries.insert name (file.filled entry)).get? n =
        if name = n then some (file.filled entry) else entries.get? n :=
      OrderedMap.get?_insert _ _ _
    refine ⟨?_, ?_, fun n x => ?_⟩
    · exact List.forall_mem_cons.mpr ⟨⟨hname, htimes⟩, hvalid⟩
    · refine List.forall_mem_cons.mpr ⟨hfree, fun e he => ?_⟩
      have hnone := hfresh e he
      rw [hget] at hnone
      split at hnone
      · cases hnone
      · exact hnone
    · rw [hholds, hget]
      by_cases heq : name = n
      · subst heq
        rw [if_pos rfl, hfree, Option.some_inj]
        constructor
        · rintro (rfl | ⟨e, he, rfl⟩)
          · exact Or.inr ⟨entry, List.mem_cons_self, rfl⟩
          · exact Or.inr ⟨e, List.mem_cons_of_mem _ he, rfl⟩
        · rintro (hno | ⟨e, he, rfl⟩)
          · cases hno
          · rcases List.mem_cons.mp he with heq | he
            · rw [(Prod.mk.inj heq).2]
              exact Or.inl rfl
            · exact Or.inr ⟨e, he, rfl⟩
      · rw [if_neg heq]
        refine or_congr_right (exists_congr fun e => and_congr_left fun _ => ?_)
        rw [List.mem_cons, Prod.mk.injEq]
        constructor
        · exact Or.inr
        · rintro (⟨h, _⟩ | h)
          · exact absurd h.symm heq
          · exact h

theorem mergeEntries_of_valid {file : File} : ∀ {l : List (String × Entry)}
    {entries : OrderedMap String Entry}, (∀ e ∈ l, ValidEntry e) → (l.map Prod.fst).Nodup →
    (∀ e ∈ l, entries.get? e.1 = none) → ∃ entries', mergeEntries file l entries = .ok entries' := by
  intro l
  induction l with
  | nil => exact fun _ _ _ => ⟨_, rfl⟩
  | cons e rest ih =>
    intro entries hvalid hnames hfree
    obtain ⟨hfirst, hrest⟩ := List.forall_mem_cons.mp hvalid
    obtain ⟨hnew, hnodup⟩ := List.nodup_cons.mp hnames
    obtain ⟨hfree₁, hfreeRest⟩ := List.forall_mem_cons.mp hfree
    have hstill : ∀ x ∈ rest, (entries.insert e.1 (file.filled e.2)).get? x.1 = none := by
      intro x hx
      have hne : e.1 ≠ x.1 := fun heq => hnew (heq ▸ List.mem_map_of_mem hx)
      rw [OrderedMap.get?_insert, if_neg hne]
      exact hfreeRest x hx
    obtain ⟨entries', h⟩ := ih hrest hnodup hstill
    refine ⟨entries', ?_⟩
    simp only [mergeEntries, bind_ok, check_ok, Bool.not_eq_true', decide_eq_true_eq,
      OrderedMap.contains_eq_false_iff]
    exact ⟨(), hfirst.1, (), hfirst.2, (), hfree₁, h⟩

section Results
variable {plain : Char → Bool}

theorem entryOf_insert (courses : Courses) (course : String) (entries : OrderedMap String Entry)
    (c name : String) : entryOf (courses.insert course entries) c name =
      if course = c then entries.get? name else entryOf courses c name := by
  rw [entryOf, OrderedMap.get?_insert]
  split <;> rfl

theorem mergeInto_ok : ∀ {files : List File} {courses courses' : Courses},
    mergeInto plain files courses = .ok courses' →
    (∀ f ∈ files, Valid f) ∧ files.Pairwise Disjoint ∧
      (∀ f ∈ files, ∀ name, f.exercises.get? name = none ∨ entryOf courses f.course name = none) ∧
      (∀ c, courses'.contains c = true ↔ courses.contains c = true ∨ ∃ f ∈ files, f.course = c) ∧
      ∀ c name x, entryOf courses' c name = some x ↔
        entryOf courses c name = some x ∨ Listed files c name x := by
  intro files
  induction files with
  | nil =>
    intro courses courses' h
    rw [mergeInto, pure_ok] at h
    subst h
    simp [Listed]
  | cons f rest ih =>
    intro courses courses' h
    simp only [mergeInto, bind_ok, check_ok, decide_eq_true_eq] at h
    obtain ⟨_, hschema, _, hcourse, entries, hentries, h⟩ := h
    obtain ⟨hvalid, hfree, hholds⟩ := mergeEntries_ok hentries
    obtain ⟨hvalids, hpair, hfrees, hcourses, hlisted⟩ := ih h
    have hmerged : ∀ name x, entries.get? name = some x ↔
        entryOf courses f.course name = some x ∨
          ∃ e, f.exercises.get? name = some e ∧ x = f.filled e := by
      intro name x
      rw [hholds, entryOf_eq]
      simp only [OrderedMap.mem_entries_iff]
    refine ⟨?_, ?_, ?_, fun c => ?_, fun c name x => ?_⟩
    · exact List.forall_mem_cons.mpr ⟨⟨hschema, hcourse, hvalid⟩, hvalids⟩
    · refine List.pairwise_cons.mpr ⟨fun g hg heq name => ?_, hpair⟩
      -- a later file found the entries of this one in its way
      rcases hfrees g hg name with hnone | hnone
      · exact Or.inr hnone
      · rw [entryOf_insert, if_pos heq] at hnone
        refine Or.inl (Option.eq_none_iff_forall_ne_some.mpr fun e he => ?_)
        have hsome := (hmerged name _).mpr (Or.inr ⟨e, he, rfl⟩)
        rw [hnone] at hsome
        cases hsome
    · refine List.forall_mem_cons.mpr ⟨fun name => ?_, fun g hg name => ?_⟩
      · cases hget : f.exercises.get? name with
        | none => exact Or.inl rfl
        | some e =>
          right
          rw [entryOf_eq]
          exact hfree _ ((OrderedMap.mem_entries_iff _).mpr hget)
      · refine (hfrees g hg name).imp_right fun hnone => ?_
        rw [entryOf_insert] at hnone
        split at hnone
        · rename_i heq
          refine Option.eq_none_iff_forall_ne_some.mpr fun e he => ?_
          have hsome := (hmerged name e).mpr (Or.inl (heq ▸ he))
          rw [hnone] at hsome
          cases hsome
        · exact hnone
    · rw [hcourses]
      simp only [OrderedMap.contains_iff, OrderedMap.get?_insert, List.exists_mem_cons_iff]
      by_cases heq : f.course = c
      · simp [heq]
      · simp [heq]
    · rw [hlisted, entryOf_insert, listed_cons]
      by_cases heq : f.course = c
      · subst heq
        rw [if_pos rfl, hmerged, or_assoc]
        simp
      · rw [if_neg heq]
        simp [heq]

theorem mergeInto_of_valid : ∀ {files : List File} {courses : Courses},
    (∀ f ∈ files, Valid f) → files.Pairwise Disjoint →
    (∀ f ∈ files, ∀ name, f.exercises.get? name = none ∨ entryOf courses f.course name = none) →
    ∃ courses', mergeInto plain files courses = .ok courses' := by
  intro files
  induction files with
  | nil => exact fun _ _ _ => ⟨_, rfl⟩
  | cons f rest ih =>
    intro courses hvalid hpair hfree
    obtain ⟨hfirst, hrest⟩ := List.forall_mem_cons.mp hvalid
    obtain ⟨hdisjoint, hpairs⟩ := List.pairwise_cons.mp hpair
    obtain ⟨hfree₁, hfreeRest⟩ := List.forall_mem_cons.mp hfree
    have hout : ∀ e ∈ f.exercises.entries,
        ((courses.get? f.course).getD .empty).get? e.1 = none := by
      intro e he
      rw [← entryOf_eq]
      refine (hfree₁ e.1).resolve_left fun hnone => ?_
      rw [(OrderedMap.mem_entries_iff f.exercises).mp he] at hnone
      cases hnone
    obtain ⟨entries, hentries⟩ :=
      mergeEntries_of_valid hfirst.exercises f.exercises.keys_nodup hout
    have hholds := (mergeEntries_ok hentries).2.2
    have hstillFree : ∀ g ∈ rest, ∀ name, g.exercises.get? name = none ∨
        entryOf (courses.insert f.course entries) g.course name = none := by
      intro g hg name
      rw [entryOf_insert]
      split
      · rename_i heq
        cases hg' : g.exercises.get? name with
        | none => exact Or.inl rfl
        | some e =>
          right
          have hnone := (hfreeRest g hg name).resolve_left (by simp [hg'])
          have hnone' := (hdisjoint g hg heq name).resolve_right (by simp [hg'])
          refine Option.eq_none_iff_forall_ne_some.mpr fun x hx => ?_
          rw [hholds, ← entryOf_eq, heq, hnone] at hx
          rcases hx with hno | ⟨e', he', _⟩
          · cases hno
          · rw [OrderedMap.mem_entries_iff, hnone'] at he'
            cases he'
      · exact hfreeRest g hg name
    obtain ⟨courses', h⟩ := ih hrest hpairs hstillFree
    refine ⟨courses', ?_⟩
    simp only [mergeInto, bind_ok, check_ok, decide_eq_true_eq]
    exact ⟨(), hfirst.schema, (), hfirst.course, entries, hentries, h⟩

/-- What is listed, under its course, with every course that is named. -/
structure Holds (files : List File) (courses : Courses) : Prop where
  named : ∀ c, courses.contains c = true ↔ ∃ f ∈ files, f.course = c
  listed : ∀ c name x, entryOf courses c name = some x ↔ Listed files c name x

theorem merge_ok {files : List File} {courses : Courses} (h : merge plain files = .ok courses) :
    ((∀ f ∈ files, Valid f) ∧ files.Pairwise Disjoint) ∧ Holds files courses := by
  obtain ⟨hvalid, hpair, _, hcourses, hlisted⟩ := mergeInto_ok h
  refine ⟨⟨hvalid, hpair⟩, fun c => ?_, fun c name x => ?_⟩
  · rw [hcourses]
    simp [OrderedMap.contains, OrderedMap.empty]
  · rw [hlisted]
    simp [entryOf]

theorem merge_of_valid {files : List File} (hvalid : ∀ f ∈ files, Valid f)
    (hpair : files.Pairwise Disjoint) : ∃ courses, merge plain files = .ok courses :=
  mergeInto_of_valid hvalid hpair fun _ _ _ => Or.inr rfl

/-- What a merge holds is all there is to it. -/
theorem Holds.eq {files : List File} {m m' : Courses} (h : Holds files m) (h' : Holds files m') :
    m = m' := by
  apply OrderedMap.ext_get?
  intro c
  have hthere : m.contains c = m'.contains c := Bool.eq_iff_iff.mpr
    ((h.named c).trans (h'.named c).symm)
  have hentry : ∀ name, entryOf m c name = entryOf m' c name := by
    intro name
    apply Option.ext
    intro x
    exact (h.listed c name x).trans (h'.listed c name x).symm
  cases hm : m.get? c with
  | none =>
    rw [(OrderedMap.contains_eq_false_iff m).mpr hm] at hthere
    exact ((OrderedMap.contains_eq_false_iff m').mp hthere.symm).symm
  | some entries =>
    rw [(OrderedMap.contains_iff m).mpr ⟨entries, hm⟩] at hthere
    obtain ⟨entries', hm'⟩ := (OrderedMap.contains_iff m').mp hthere.symm
    rw [hm', Option.some_inj]
    apply OrderedMap.ext_get?
    intro name
    have hname := hentry name
    rw [entryOf, entryOf, hm, hm'] at hname
    exact hname

theorem Disjoint.symm {f g : File} (h : Disjoint f g) : Disjoint g f := fun heq name =>
  (h heq.symm name).symm

theorem Holds.perm {files files' : List File} {m : Courses} (hperm : files.Perm files')
    (h : Holds files m) : Holds files' m := by
  refine ⟨fun c => ?_, fun c name x => ?_⟩
  · rw [h.named]
    simp only [hperm.mem_iff]
  · rw [h.listed]
    simp only [Listed, hperm.mem_iff]

theorem merge_perm {files files' : List File} (hperm : files.Perm files') {m : Courses}
    (h : merge plain files = .ok m) : merge plain files' = .ok m := by
  obtain ⟨⟨hvalid, hpair⟩, hholds⟩ := merge_ok h
  have hpair' : files'.Pairwise Disjoint := hperm.pairwise hpair fun h => h.symm
  have hvalid' : ∀ f ∈ files', Valid f := fun f hf => hvalid f (hperm.mem_iff.mpr hf)
  obtain ⟨m', h'⟩ : ∃ m', merge plain files' = .ok m' := merge_of_valid hvalid' hpair'
  rw [h', (merge_ok h').2.eq (hholds.perm hperm)]

end Results

/-- **A merge does not depend on the order of the files and loses nothing.**  It
succeeds exactly on files that are valid and share no exercise, and holds every
exercise of every file, with its image, and every course. -/
theorem merge_exact (plain : Char → Bool) (files : List File) :
    (∀ files', files.Perm files' → ∀ m,
      merge plain files = .ok m ↔ merge plain files' = .ok m) ∧
    ((∃ m, merge plain files = .ok m) ↔ (∀ f ∈ files, Valid f) ∧ files.Pairwise Disjoint) ∧
    ∀ m, merge plain files = .ok m → Holds files m := by
  refine ⟨fun files' hperm m => ⟨merge_perm hperm, merge_perm hperm.symm⟩, ⟨?_, ?_⟩, ?_⟩
  · rintro ⟨m, h⟩
    exact (merge_ok h).1
  · rintro ⟨hvalid, hpair⟩
    exact merge_of_valid hvalid hpair
  · exact fun m h => (merge_ok h).2

end ExerciseFiles

end Grading

import SrgGrading.Store.Exercises

/-!
# Names of student repositories

A repository is named after its template, its student and its id.  The first two
are shortened, the longer one first, until the name fits GitHub's limit; the id
is kept whole.

* `shorten_spec`, `shorten_stable`: what the loop leaves of two texts, and that it
  ends.
* `repository_name_spec`: every name is accepted by GitHub, and names differ
  where the ids do.
-/

namespace Grading

namespace Courses

/-! ### Sanitized texts -/

/-- A character that may stand in the name of a repository. -/
def isNameChar (c : Char) : Bool :=
  Text.isAsciiAlphanumeric c || c = '-' || c = '_' || c = '.'

theorem utf8Size_of_isNameChar {c : Char} (h : isNameChar c = true) : c.utf8Size = 1 := by
  have hlow : c.toNat ≤ 0x7f := by
    simp only [isNameChar, Text.isAsciiAlphanumeric, Text.isAsciiDigit, Text.isAsciiLowercase,
      Text.isAsciiUppercase, Bool.or_eq_true, Bool.and_eq_true, decide_eq_true_eq] at h
    rcases h with ((h | rfl) | rfl) | rfl
    · omega
    all_goals decide
  rw [Char.utf8Size, if_pos]
  exact hlow

/-- A text that is not empty and has only characters a name may have. -/
structure Sanitized (l : List Char) : Prop where
  nonempty : l ≠ []
  chars : ∀ c ∈ l, isNameChar c = true

theorem sanitized_sanitize (value : List Char) : Sanitized (sanitize value) := by
  rw [sanitize]
  split
  · exact ⟨by decide, List.all_eq_true.mp (by decide)⟩
  · rename_i h
    refine ⟨h, fun c hc => ?_⟩
    obtain ⟨d, _, rfl⟩ := List.mem_map.mp hc
    split
    · assumption
    · decide

theorem Sanitized.len_eq {l : List Char} (h : Sanitized l) :
    Text.len (String.ofList l) = l.length :=
  Text.len_ofList_of_ascii fun c hc => utf8Size_of_isNameChar (h.chars c hc)

theorem Sanitized.dropLast {l : List Char} (h : Sanitized l) (hlong : 1 < l.length) :
    Sanitized l.dropLast := by
  refine ⟨fun hnil => ?_, fun c hc => h.chars c (List.dropLast_subset l hc)⟩
  have hlen := congrArg List.length hnil
  rw [List.length_dropLast, List.length_nil] at hlen
  omega

/-! ### The loop -/

/-- What the loop leaves of two texts. -/
structure Shortened (template student : List Char) (r : List Char × List Char) : Prop where
  first : Sanitized r.1
  second : Sanitized r.2
  firstPrefix : r.1 <+: template
  secondPrefix : r.2 <+: student
  fits : r.1.length + r.2.length ≤ 62
  unchanged : template.length + student.length ≤ 62 → r = (template, student)

/-- **The loop ends with two texts that are not empty and fit**: a text that loses
a character has more than thirty. -/
theorem shorten_spec {fuel : Nat} : ∀ {template student : List Char}, Sanitized template →
    Sanitized student → template.length + student.length ≤ fuel + 62 →
    Shortened template student (shorten fuel template student) := by
  induction fuel with
  | zero =>
    intro template student ht hs hfuel
    exact ⟨ht, hs, List.prefix_rfl, List.prefix_rfl, by rw [shorten]; omega, fun _ => rfl⟩
  | succ fuel ih =>
    intro template student ht hs hfuel
    rw [shorten]
    split
    · rename_i hlong
      split
      · rename_i hlt
        have hdrop := ht.dropLast (by omega)
        have hlen : template.dropLast.length = template.length - 1 := List.length_dropLast
        obtain ⟨h₁, h₂, hp, hq, hfits, _⟩ := ih hdrop hs (by omega)
        refine ⟨h₁, h₂, hp.trans (List.dropLast_prefix _), hq, hfits, fun hshort => ?_⟩
        omega
      · rename_i hle
        have hdrop := hs.dropLast (by omega)
        have hlen : student.dropLast.length = student.length - 1 := List.length_dropLast
        obtain ⟨h₁, h₂, hp, hq, hfits, _⟩ := ih ht hdrop (by omega)
        refine ⟨h₁, h₂, hp, hq.trans (List.dropLast_prefix _), hfits, fun hshort => ?_⟩
        omega
    · rename_i hshort
      exact ⟨ht, hs, List.prefix_rfl, List.prefix_rfl, Nat.not_lt.mp hshort, fun _ => rfl⟩

/-- **The loop ends**: more turns than there are characters too many change nothing. -/
theorem shorten_stable {fuel more : Nat} : ∀ {template student : List Char},
    template.length + student.length ≤ fuel + 62 → fuel ≤ more →
    shorten more template student = shorten fuel template student := by
  induction fuel generalizing more with
  | zero =>
    intro template student hfuel _
    cases more with
    | zero => rfl
    | succ more => rw [shorten.eq_2, if_neg (by omega), shorten.eq_1]
  | succ fuel ih =>
    intro template student hfuel hmore
    obtain ⟨more, rfl⟩ : ∃ m, more = m + 1 := ⟨more - 1, by omega⟩
    have htemplate : template.dropLast.length = template.length - 1 := List.length_dropLast
    have hstudent : student.dropLast.length = student.length - 1 := List.length_dropLast
    rw [shorten, shorten]
    split
    · split
      · exact ih (by omega) (by omega)
      · exact ih (by omega) (by omega)
    · rfl

/-! ### Names -/

theorem length_text (id : Uuid) : id.text.length = 36 := by
  simp [Uuid.text]

theorem isNameChar_text (id : Uuid) : ∀ c ∈ id.text, isNameChar c = true := by
  have hhex : ∀ c ∈ Text.hex 32 id.val, isNameChar c = true := by
    intro c hc
    have hdigit := Text.isHexDigit_hex 32 id.val c hc
    simp only [Text.isHexDigit, Bool.or_eq_true, Bool.and_eq_true, decide_eq_true_eq] at hdigit
    simp only [isNameChar, Text.isAsciiAlphanumeric, Text.isAsciiLowercase, Bool.or_eq_true,
      Bool.and_eq_true, decide_eq_true_eq]
    rcases hdigit with hdigit | hletter
    · exact Or.inl (Or.inl (Or.inl (Or.inl (Or.inl hdigit))))
    · exact Or.inl (Or.inl (Or.inl (Or.inl (Or.inr (by omega)))))
  have hdash : isNameChar '-' = true := by decide
  intro c hc
  simp only [Uuid.text, List.mem_append, List.mem_cons] at hc
  rcases hc with h | rfl | h | rfl | h | rfl | h | rfl | h
  · exact hhex c (List.mem_of_mem_take h)
  · exact hdash
  · exact hhex c (List.mem_of_mem_drop (List.mem_of_mem_take h))
  · exact hdash
  · exact hhex c (List.mem_of_mem_drop (List.mem_of_mem_take h))
  · exact hdash
  · exact hhex c (List.mem_of_mem_drop (List.mem_of_mem_take h))
  · exact hdash
  · exact hhex c (List.mem_of_mem_drop h)

/-- The characters of a name. -/
def nameChars (r : List Char × List Char) (id : Uuid) : List Char :=
  r.1 ++ '-' :: r.2 ++ '-' :: id.text

/-- The last segment of a template's name, sanitized, and the student's id. -/
def nameParts (template studentId : String) : List Char × List Char :=
  (sanitize (template.toList.splitOn '/').getLast!, sanitize studentId.toList)

theorem shortened_nameParts (template studentId : String) :
    Shortened (nameParts template studentId).1 (nameParts template studentId).2
      (shorten ((nameParts template studentId).1.length + (nameParts template studentId).2.length)
        (nameParts template studentId).1 (nameParts template studentId).2) :=
  shorten_spec (sanitized_sanitize _) (sanitized_sanitize _) (Nat.le_add_right _ _)

theorem repositoryName_eq (template studentId : String) (id : Uuid) :
    repositoryName template studentId id = String.ofList (nameChars
      (shorten ((nameParts template studentId).1.length + (nameParts template studentId).2.length)
        (nameParts template studentId).1 (nameParts template studentId).2) id) := by
  apply String.toList_inj.mp
  simp [repositoryName, nameChars, nameParts]

/-- GitHub takes a name of two sanitized texts and an id. -/
theorem githubRepository_nameChars {r : List Char × List Char} (id : Uuid) (h₁ : Sanitized r.1)
    (h₂ : Sanitized r.2) (hfits : r.1.length + r.2.length ≤ 62) :
    Text.len (String.ofList (nameChars r id)) ≤ 100 ∧
      githubRepository ("org/" ++ String.ofList (nameChars r id)) = true := by
  have hchars : ∀ c ∈ nameChars r id, isNameChar c = true := by
    intro c hc
    simp only [nameChars, List.mem_append, List.mem_cons] at hc
    rcases hc with (h | rfl | h) | rfl | h
    · exact h₁.chars c h
    · decide
    · exact h₂.chars c h
    · decide
    · exact isNameChar_text id c h
  have hlength : (nameChars r id).length = r.1.length + r.2.length + 38 := by
    simp only [nameChars, List.length_append, List.length_cons, length_text]
    omega
  have hlen : Text.len (String.ofList (nameChars r id)) = (nameChars r id).length :=
    Text.len_ofList_of_ascii fun c hc => utf8Size_of_isNameChar (hchars c hc)
  have hbound : Text.len (String.ofList (nameChars r id)) ≤ 100 := by omega
  refine ⟨hbound, ?_⟩
  have hsplit : Text.splitOnce ("org/" ++ String.ofList (nameChars r id)) "/" =
      some ("org", String.ofList (nameChars r id)) := by
    have horg : ("org/" ++ String.ofList (nameChars r id)).toList =
        'o' :: 'r' :: 'g' :: '/' :: nameChars r id := by simp
    rw [Text.splitOnce, horg]
    rfl
  have hlong : ∀ s : String, s.toList.length < 38 → String.ofList (nameChars r id) ≠ s := by
    rintro s hs rfl
    rw [String.toList_ofList] at hs
    omega
  have hempty := hlong "" (by decide)
  have hdot := hlong "." (by decide)
  have hdots := hlong ".." (by decide)
  have howner : identifier "org" = true := by decide
  rw [githubRepository, hsplit]
  simp only [howner, hempty, hdot, hdots, hbound, ne_eq, not_false_eq_true, decide_true,
    Bool.true_and, String.toList_ofList, List.all_eq_true]
  exact hchars

/-- The id of a name is its last 36 characters. -/
theorem nameChars_inj {r r' : List Char × List Char} {id id' : Uuid}
    (h : nameChars r id = nameChars r' id') : id = id' := by
  apply Uuid.text_inj
  have hdrop : ∀ r id, (nameChars r id).drop ((nameChars r id).length - 36) = id.text := by
    intro r id
    have hcut : nameChars r id = (r.1 ++ '-' :: r.2 ++ ['-']) ++ id.text := by
      simp [nameChars]
    rw [hcut, List.length_append, length_text, Nat.add_sub_cancel, List.drop_left]
  rw [← hdrop r id, ← hdrop r' id', h]

/-- **Names are accepted by GitHub, keep what they can of their parts, and are
different for different ids.** -/
theorem repository_name_spec (template studentId : String) (id : Uuid) :
    (∃ first second : String,
      repositoryName template studentId id =
        first ++ "-" ++ second ++ "-" ++ String.ofList id.text ∧
      Sanitized first.toList ∧ Sanitized second.toList ∧
      first.toList <+: (nameParts template studentId).1 ∧
      second.toList <+: (nameParts template studentId).2 ∧
      (Text.len (.ofList (nameParts template studentId).1) +
          Text.len (.ofList (nameParts template studentId).2) ≤ 62 →
        (first.toList, second.toList) = nameParts template studentId)) ∧
    (∀ fuel, (nameParts template studentId).1.length +
        (nameParts template studentId).2.length ≤ fuel →
      repositoryName template studentId id = String.ofList (nameChars (shorten fuel
        (nameParts template studentId).1 (nameParts template studentId).2) id)) ∧
    Text.len (repositoryName template studentId id) ≤ 100 ∧
    githubRepository ("org/" ++ repositoryName template studentId id) = true ∧
    ∀ (template' studentId' : String) (id' : Uuid), id ≠ id' →
      repositoryName template studentId id ≠ repositoryName template' studentId' id' := by
  have hspec := shortened_nameParts template studentId
  have hname := githubRepository_nameChars id hspec.first hspec.second hspec.fits
  rw [← repositoryName_eq] at hname
  generalize hr : shorten ((nameParts template studentId).1.length +
    (nameParts template studentId).2.length) (nameParts template studentId).1
    (nameParts template studentId).2 = r at hspec
  have heq := repositoryName_eq template studentId id
  rw [hr] at heq
  refine ⟨⟨.ofList r.1, .ofList r.2, ?_, ?_⟩, fun fuel hfuel => ?_, hname.1, hname.2,
    fun template' studentId' id' hne hsame => ?_⟩
  · rw [heq]
    apply String.toList_inj.mp
    simp [nameChars]
  · simp only [String.toList_ofList]
    refine ⟨hspec.first, hspec.second, hspec.firstPrefix, hspec.secondPrefix, fun hshort => ?_⟩
    have hfirst : Sanitized (nameParts template studentId).1 := sanitized_sanitize _
    have hsecond : Sanitized (nameParts template studentId).2 := sanitized_sanitize _
    rw [hfirst.len_eq, hsecond.len_eq] at hshort
    exact hspec.unchanged hshort
  · rw [heq, ← hr, shorten_stable (Nat.le_add_right _ _) hfuel]
  · rw [repositoryName_eq, repositoryName_eq] at hsame
    exact hne (nameChars_inj (String.ofList_injective hsame))

end Courses

end Grading

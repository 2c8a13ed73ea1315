import Mathlib.Algebra.GroupWithZero.Nat
import Mathlib.Data.List.Nodup
import Mathlib.Order.Lattice
import Mathlib.Tactic.Common

/-!
# Ordered maps

A finite map as the list of its entries in strictly increasing key order, the
order in which an ordered map is iterated and written.  The order is a field,
so a map has each key once and two maps with the same entries are equal.

* `mem_entries_iff`: an entry of the list is a value found under its key.
* `get?_insert`: what a map holds after an insertion.
-/

/-- A finite map from `κ` to `α`, iterated in key order. -/
structure OrderedMap (κ α : Type*) [LinearOrder κ] where
  entries : List (κ × α)
  sorted : entries.Pairwise fun a b => a.1 < b.1

namespace OrderedMap

variable {κ α β : Type*} [LinearOrder κ]

theorem ext {m m' : OrderedMap κ α} (h : m.entries = m'.entries) : m = m' := by
  cases m; cases m'; cases h; rfl

instance [DecidableEq α] : DecidableEq (OrderedMap κ α) := fun m m' =>
  decidable_of_iff (m.entries = m'.entries) ⟨ext, fun h => h ▸ rfl⟩

/-- The empty map. -/
def empty : OrderedMap κ α := ⟨[], .nil⟩

/-- The number of entries. -/
def size (m : OrderedMap κ α) : Nat := m.entries.length

/-- The keys, in order. -/
def keys (m : OrderedMap κ α) : List κ := m.entries.map Prod.fst

/-- The value under a key. -/
def get? (m : OrderedMap κ α) (k : κ) : Option α :=
  (m.entries.find? fun e => e.1 = k).map Prod.snd

/-- Whether a key has a value. -/
def contains (m : OrderedMap κ α) (k : κ) : Bool := m.entries.any fun e => e.1 = k

@[simp] theorem size_empty : (empty : OrderedMap κ α).size = 0 := rfl
@[simp] theorem get?_empty (k : κ) : (empty : OrderedMap κ α).get? k = none := rfl

/-! ### Entries and keys -/

theorem keys_nodup (m : OrderedMap κ α) : m.keys.Nodup := by
  rw [keys, List.nodup_iff_pairwise_ne, List.pairwise_map]
  exact m.sorted.imp fun h => ne_of_lt h

theorem entry_unique (m : OrderedMap κ α) {k : κ} {v w : α} (hv : (k, v) ∈ m.entries)
    (hw : (k, w) ∈ m.entries) : v = w := by
  have he : (k, v) = (k, w) := List.inj_on_of_nodup_map m.keys_nodup hv hw rfl
  exact congrArg Prod.snd he

/-- **An entry of the list is a value found under its key.** -/
theorem mem_entries_iff (m : OrderedMap κ α) {k : κ} {v : α} :
    (k, v) ∈ m.entries ↔ m.get? k = some v := by
  rw [get?, Option.map_eq_some_iff]
  constructor
  · intro h
    obtain ⟨e, he⟩ : ∃ e, m.entries.find? (fun e => e.1 = k) = some e := by
      rw [← Option.isSome_iff_exists, List.find?_isSome]
      exact ⟨(k, v), h, by simp⟩
    have hek : e.1 = k := by simpa using List.find?_some he
    have hem := List.mem_of_find?_eq_some he
    refine ⟨e, he, m.entry_unique (k := k) ?_ h⟩
    rw [← hek]
    exact hem
  · rintro ⟨e, he, rfl⟩
    have hek : e.1 = k := by simpa using List.find?_some he
    rw [← hek]
    exact List.mem_of_find?_eq_some he

theorem contains_iff (m : OrderedMap κ α) {k : κ} :
    m.contains k = true ↔ ∃ v, m.get? k = some v := by
  rw [contains, List.any_eq_true]
  constructor
  · rintro ⟨⟨k', v⟩, he, hk⟩
    rw [decide_eq_true_eq] at hk
    subst hk
    exact ⟨v, (mem_entries_iff m).mp he⟩
  · rintro ⟨v, hv⟩
    exact ⟨(k, v), (mem_entries_iff m).mpr hv, by simp⟩

theorem contains_eq_false_iff (m : OrderedMap κ α) {k : κ} :
    m.contains k = false ↔ m.get? k = none := by
  rw [← Bool.not_eq_true, contains_iff]
  constructor
  · intro h
    cases hg : m.get? k with
    | none => rfl
    | some v => exact absurd ⟨v, hg⟩ h
  · rintro h ⟨v, hv⟩
    rw [h] at hv
    cases hv

theorem mem_keys_iff (m : OrderedMap κ α) {k : κ} : k ∈ m.keys ↔ ∃ v, m.get? k = some v := by
  rw [keys, List.mem_map]
  constructor
  · rintro ⟨⟨k', v⟩, he, rfl⟩
    exact ⟨v, (mem_entries_iff m).mp he⟩
  · rintro ⟨v, hv⟩
    exact ⟨(k, v), (mem_entries_iff m).mpr hv, rfl⟩

/-- A map is what it holds. -/
theorem ext_get? {m m' : OrderedMap κ α} (h : ∀ k, m.get? k = m'.get? k) : m = m' := by
  apply ext
  have hmem : ∀ e, e ∈ m.entries ↔ e ∈ m'.entries := by
    intro e
    rw [mem_entries_iff, mem_entries_iff, h]
  have hnodup : ∀ m : OrderedMap κ α, m.entries.Nodup := fun m =>
    List.Nodup.of_map Prod.fst m.keys_nodup
  have hperm := (List.perm_ext_iff_of_nodup (hnodup m) (hnodup m')).mpr hmem
  exact hperm.eq_of_pairwise (fun a b _ _ hab hba => absurd (lt_trans hab hba) (lt_irrefl _))
    m.sorted m'.sorted

/-! ### Insertion -/

/-- Put an entry in its place, over an entry with the same key. -/
def insertEntry (k : κ) (v : α) : List (κ × α) → List (κ × α)
  | [] => [(k, v)]
  | e :: rest =>
    if k < e.1 then (k, v) :: e :: rest
    else if k = e.1 then (k, v) :: rest
    else e :: insertEntry k v rest

theorem mem_insertEntry {k : κ} {v : α} {e : κ × α} : ∀ {l : List (κ × α)},
    e ∈ insertEntry k v l → e = (k, v) ∨ e ∈ l := by
  intro l
  induction l with
  | nil => intro h; exact Or.inl (by simpa [insertEntry] using h)
  | cons a rest ih =>
    intro h
    rw [insertEntry] at h
    split at h
    · exact (List.mem_cons.mp h).imp_right id
    · split at h
      · exact (List.mem_cons.mp h).imp_right (List.mem_cons_of_mem _)
      · rcases List.mem_cons.mp h with h1 | h1
        · exact Or.inr (h1 ▸ List.mem_cons_self)
        · exact (ih h1).imp_right (List.mem_cons_of_mem _)

theorem sorted_insertEntry (k : κ) (v : α) : ∀ {l : List (κ × α)},
    (l.Pairwise fun a b => a.1 < b.1) → (insertEntry k v l).Pairwise fun a b => a.1 < b.1 := by
  intro l
  induction l with
  | nil => intro _; exact List.pairwise_singleton _ _
  | cons a rest ih =>
    intro h
    obtain ⟨ha, hr⟩ := List.pairwise_cons.mp h
    rw [insertEntry]
    split
    · rename_i hlt
      refine List.pairwise_cons.mpr ⟨?_, h⟩
      intro e he
      rcases List.mem_cons.mp he with h1 | h1
      · rw [h1]; exact hlt
      · exact lt_trans hlt (ha e h1)
    · rename_i hlt
      split
      · rename_i heq
        refine List.pairwise_cons.mpr ⟨?_, hr⟩
        intro e he
        rw [heq]
        exact ha e he
      · rename_i hne
        refine List.pairwise_cons.mpr ⟨?_, ih hr⟩
        intro e he
        rcases mem_insertEntry he with h1 | h1
        · rw [h1]
          exact lt_of_le_of_ne (not_lt.mp hlt) (Ne.symm hne)
        · exact ha e h1

/-- The map with `v` under `k`. -/
def insert (m : OrderedMap κ α) (k : κ) (v : α) : OrderedMap κ α :=
  ⟨insertEntry k v m.entries, sorted_insertEntry k v m.sorted⟩

/-- The map with the given entries, a later one over an earlier one. -/
def ofList (l : List (κ × α)) : OrderedMap κ α := l.foldl (fun m e => m.insert e.1 e.2) empty

theorem find?_insertEntry (k : κ) (v : α) (k' : κ) : ∀ (l : List (κ × α)),
    ((insertEntry k v l).find? fun e => e.1 = k').map Prod.snd
      = if k = k' then some v else (l.find? fun e => e.1 = k').map Prod.snd := by
  intro l
  induction l with
  | nil => by_cases h : k = k' <;> simp [insertEntry, h]
  | cons a rest ih =>
    rw [insertEntry]
    split
    · by_cases h : k = k'
      · rw [List.find?_cons_of_pos (by simpa using h), if_pos h]; rfl
      · rw [List.find?_cons_of_neg (by simpa using h), if_neg h]
    · split
      · rename_i heq
        by_cases h : k = k'
        · rw [List.find?_cons_of_pos (by simpa using h), if_pos h]; rfl
        · rw [List.find?_cons_of_neg (by simpa using h), if_neg h,
            List.find?_cons_of_neg (by simpa [← heq] using h)]
      · rename_i hne
        by_cases ha : a.1 = k'
        · have hk : ¬ k = k' := fun he => hne (he.trans ha.symm)
          rw [List.find?_cons_of_pos (by simpa using ha), if_neg hk,
            List.find?_cons_of_pos (by simpa using ha)]
        · rw [List.find?_cons_of_neg (by simpa using ha), ih,
            List.find?_cons_of_neg (by simpa using ha)]

/-- **What a map holds after an insertion.** -/
theorem get?_insert (m : OrderedMap κ α) (k : κ) (v : α) (k' : κ) :
    (m.insert k v).get? k' = if k = k' then some v else m.get? k' :=
  find?_insertEntry k v k' m.entries

/-- **What a map made of entries with different keys holds**: the entries. -/
theorem get?_ofList {l : List (κ × α)} (h : (l.map Prod.fst).Nodup) {k : κ} {v : α} :
    (ofList l).get? k = some v ↔ (k, v) ∈ l := by
  have hfold : ∀ (l : List (κ × α)) (m : OrderedMap κ α), (l.map Prod.fst).Nodup →
      ((l.foldl (fun m e => m.insert e.1 e.2) m).get? k = some v ↔
        (k, v) ∈ l ∨ k ∉ l.map Prod.fst ∧ m.get? k = some v) := by
    intro l
    induction l with
    | nil => simp
    | cons e rest ih =>
      intro m hnodup
      rw [List.map_cons, List.nodup_cons] at hnodup
      rw [List.foldl_cons, ih _ hnodup.2, get?_insert, List.mem_cons, List.map_cons,
        List.mem_cons, not_or]
      by_cases hk : e.1 = k
      · have hout : k ∉ rest.map Prod.fst := hk ▸ hnodup.1
        have hrest : (k, v) ∉ rest := fun hmem => hout (List.mem_map.mpr ⟨_, hmem, rfl⟩)
        rw [if_pos hk, Option.some_inj]
        constructor
        · rintro (hmem | ⟨_, rfl⟩)
          · exact absurd hmem hrest
          · exact Or.inl (Or.inl (Prod.ext hk.symm rfl))
        · rintro ((he | hmem) | ⟨⟨hne, _⟩, _⟩)
          · rw [← he]
            exact Or.inr ⟨hout, rfl⟩
          · exact absurd hmem hrest
          · exact absurd hk.symm hne
      · rw [if_neg hk]
        have hne : (k, v) ≠ e := fun he => hk (congrArg Prod.fst he).symm
        constructor
        · rintro (hmem | ⟨hout, hm⟩)
          · exact Or.inl (Or.inr hmem)
          · exact Or.inr ⟨⟨Ne.symm hk, hout⟩, hm⟩
        · rintro ((he | hmem) | ⟨⟨_, hout⟩, hm⟩)
          · exact absurd he hne
          · exact Or.inl hmem
          · exact Or.inr ⟨hout, hm⟩
  rw [ofList, hfold l empty h, get?_empty]
  simp

/-- An insertion adds at most the new entry to a sum over the entries. -/
theorem sum_insert_le (m : OrderedMap κ α) (k : κ) (v : α) (f : κ × α → Nat) :
    ((m.insert k v).entries.map f).sum ≤ (m.entries.map f).sum + f (k, v) := by
  change ((insertEntry k v m.entries).map f).sum ≤ _
  induction m.entries with
  | nil => simp [insertEntry]
  | cons e rest ih =>
    rw [insertEntry]
    split
    · simp only [List.map_cons, List.sum_cons]
      omega
    · split
      · simp only [List.map_cons, List.sum_cons]
        omega
      · simp only [List.map_cons, List.sum_cons] at ih ⊢
        omega

theorem size_insert_le (m : OrderedMap κ α) (k : κ) (v : α) :
    (m.insert k v).size ≤ m.size + 1 := by
  have hsize : ∀ m : OrderedMap κ α, (m.entries.map fun _ => 1).sum = m.size := fun m => by
    rw [size]
    induction m.entries with
    | nil => rfl
    | cons e rest ih => rw [List.map_cons, List.sum_cons, ih, List.length_cons, Nat.add_comm]
  have h := sum_insert_le m k v fun _ => 1
  rwa [hsize, hsize] at h

/-- What an insertion adds to the sum of the values. -/
theorem sum_insert (m : OrderedMap κ Nat) (k : κ) (v : Nat) :
    ((m.insert k v).entries.map Prod.snd).sum + (m.get? k).getD 0 =
      (m.entries.map Prod.snd).sum + v := by
  have hlist : ∀ l : List (κ × Nat), (l.Pairwise fun a b => a.1 < b.1) →
      ((insertEntry k v l).map Prod.snd).sum +
        ((l.find? fun e => e.1 = k).map Prod.snd).getD 0 = (l.map Prod.snd).sum + v := by
    intro l
    induction l with
    | nil => simp [insertEntry]
    | cons e rest ih =>
      intro hsorted
      obtain ⟨hfirst, hrest⟩ := List.pairwise_cons.mp hsorted
      have habsent : k ≤ e.1 → (rest.find? fun e => e.1 = k) = none := by
        intro hle
        apply List.find?_eq_none.mpr
        intro x hx heq
        rw [decide_eq_true_eq] at heq
        exact absurd (hfirst x hx) (not_lt.mpr (heq ▸ hle))
      rw [insertEntry]
      split
      · rename_i hlt
        rw [List.find?_cons_of_neg (by simpa using ne_of_gt hlt), habsent (le_of_lt hlt)]
        simp only [List.map_cons, List.sum_cons, Option.map_none, Option.getD_none]
        omega
      · split
        · rename_i heq
          rw [List.find?_cons_of_pos (by simpa using heq.symm)]
          simp only [List.map_cons, List.sum_cons, Option.map_some, Option.getD_some]
          omega
        · rename_i hne
          rw [List.find?_cons_of_neg (by simpa using Ne.symm hne)]
          have ih' := ih hrest
          simp only [List.map_cons, List.sum_cons]
          omega
  exact hlist m.entries m.sorted

/-- An insertion under a key that is there adds no entry. -/
theorem size_insert_of_contains {m : OrderedMap κ Nat} {k : κ} (h : m.contains k = true)
    (v : Nat) : (m.insert k v).size = m.size := by
  have hlist : ∀ l : List (κ × Nat), (l.Pairwise fun a b => a.1 < b.1) →
      (l.any fun e => e.1 = k) = true → (insertEntry k v l).length = l.length := by
    intro l
    induction l with
    | nil => exact fun _ h => by cases h
    | cons e rest ih =>
      intro hsorted hany
      obtain ⟨hfirst, hrest⟩ := List.pairwise_cons.mp hsorted
      rw [List.any_cons, Bool.or_eq_true, decide_eq_true_eq, List.any_eq_true] at hany
      rw [insertEntry]
      split
      · rename_i hlt
        rcases hany with heq | ⟨x, hx, heq⟩
        · exact absurd heq (ne_of_gt hlt)
        · rw [decide_eq_true_eq] at heq
          exact absurd (lt_trans hlt (heq ▸ hfirst x hx)) (lt_irrefl k)
      · split
        · rfl
        · rename_i hne
          have hany' : (rest.any fun e => e.1 = k) = true := by
            rw [List.any_eq_true]
            exact hany.resolve_left (Ne.symm hne)
          rw [List.length_cons, List.length_cons, ih hrest hany']
  exact hlist m.entries m.sorted h

end OrderedMap

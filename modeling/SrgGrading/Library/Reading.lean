import Mathlib.Data.List.Nodup
import SrgGrading.Library.Fallible
import SrgGrading.Library.Json

/-!
# Reading JSON values

A reader takes members by their keys, so it reads a sorted value as it would the
value itself.

* `mem_sortedMembers`: the members of a sorted object.
* `read_sorted`, `only_of`: reading the members of a sorted object.
-/

open Fallible

namespace Json

/-- A member with a new key is put in. -/
theorem mem_insertMember_iff {m n : List Char × Json} {members : List (List Char × Json)}
    (hnew : ∀ x ∈ members, x.1 ≠ m.1) : n ∈ insertMember m members ↔ n = m ∨ n ∈ members := by
  refine ⟨mem_insertMember, ?_⟩
  induction members with
  | nil =>
    rintro (rfl | h)
    · exact List.mem_singleton.mpr rfl
    · cases h
  | cons a rest ih =>
    obtain ⟨hfirst, hrest⟩ := List.forall_mem_cons.mp hnew
    intro h
    rw [insertMember]
    split
    · exact List.mem_cons.mpr h
    · rw [if_neg (Ne.symm hfirst)]
      rcases h with h | h
      · exact List.mem_cons_of_mem _ (ih hrest (Or.inl h))
      · rcases List.mem_cons.mp h with h | h
        · exact List.mem_cons.mpr (Or.inl h)
        · exact List.mem_cons_of_mem _ (ih hrest (Or.inr h))

/-- **The members of a sorted object** are those of the object, sorted. -/
theorem mem_sortedMembers {members : List (List Char × Json)}
    (h : (members.map Prod.fst).Nodup) {k : List Char} {w : Json} :
    (k, w) ∈ sortedMembers members ↔ ∃ v, (k, v) ∈ members ∧ w = v.sorted := by
  induction members generalizing k w with
  | nil =>
    refine ⟨fun hk => (by cases hk), ?_⟩
    rintro ⟨v, hv, _⟩
    cases hv
  | cons m rest ih =>
    obtain ⟨hout, hrest⟩ := List.nodup_cons.mp h
    have hnew : ∀ x ∈ sortedMembers rest, x.1 ≠ (m.1, m.2.sorted).1 := by
      rintro ⟨k', w'⟩ hx heq
      obtain ⟨v, hv, _⟩ := (ih hrest).mp hx
      exact hout (List.mem_map.mpr ⟨_, hv, heq⟩)
    rw [sortedMembers, mem_insertMember_iff hnew, ih hrest]
    constructor
    · rintro (heq | ⟨v, hv, rfl⟩)
      · cases heq
        exact ⟨m.2, List.mem_cons_self, rfl⟩
      · exact ⟨v, List.mem_cons_of_mem _ hv, rfl⟩
    · rintro ⟨v, hv, rfl⟩
      rcases List.mem_cons.mp hv with rfl | hv
      · exact Or.inl rfl
      · exact Or.inr ⟨v, hv, rfl⟩

/-- Members that are in order stay as they are. -/
theorem sortedMembers_of_ordered {members : List (List Char × Json)} (h : Ordered members) :
    sortedMembers members = members.map fun m => (m.1, m.2.sorted) := by
  induction members with
  | nil => rfl
  | cons m rest ih =>
    obtain ⟨hfirst, hrest⟩ := List.pairwise_cons.mp h
    rw [sortedMembers, ih hrest, insertMember_of_lt, List.map_cons]
    intro n hn
    obtain ⟨x, hx, rfl⟩ := List.mem_map.mp hn
    exact hfirst x hx

/-! ### Objects -/

section Objects
variable {ε α : Type} (e : ε)

/-- What an object has under a key. -/
def get? (key : List Char) : Json → Option Json
  | obj members => (members.find? fun m => m.1 = key).map Prod.snd
  | _ => none

/-- An object has no members but these. -/
def only (keys : List (List Char)) : Json → Except ε Unit
  | obj members => ensure (members.all fun m => keys.contains m.1) e
  | _ => .error e

/-- Read the member under a key. -/
def read (key : List Char) (f : Json → Except ε α) (v : Json) : Except ε α := do
  let w ← fetchOne e (v.get? key)
  f w

/-- Read the member under a key where there is one; `null` stands for none. -/
def readIfSome (key : List Char) (f : Json → Except ε α) (v : Json) : Except ε (Option α) :=
  match v.get? key with
  | none => return none
  | some null => return none
  | some w => some <$> f w

/-- Read the items of an array. -/
def readItems (f : Json → Except ε α) : Json → Except ε (List α)
  | arr items => items.mapM f
  | _ => .error e

/-- Read the members of an object under any keys. -/
def readMembers (f : Json → Except ε α) : Json → Except ε (List (List Char × α))
  | obj members => members.mapM fun m => do
    let a ← f m.2
    return (m.1, a)
  | _ => .error e

variable {e} {members : List (List Char × Json)} {key : List Char} {f : Json → Except ε α}

theorem get?_iff (h : (members.map Prod.fst).Nodup) {w : Json} :
    (obj members).get? key = some w ↔ (key, w) ∈ members := by
  rw [get?, Option.map_eq_some_iff]
  constructor
  · rintro ⟨m, hm, rfl⟩
    have hkey : m.1 = key := by simpa using List.find?_some hm
    rw [← hkey]
    exact List.mem_of_find?_eq_some hm
  · intro hw
    cases hf : members.find? fun m => m.1 = key with
    | none =>
      have hno := List.find?_eq_none.mp hf _ hw
      exact absurd (decide_eq_true rfl) hno
    | some m =>
      have hkey : m.1 = key := by simpa using List.find?_some hf
      have hsame := List.inj_on_of_nodup_map h (List.mem_of_find?_eq_some hf) hw hkey
      exact ⟨m, rfl, by rw [hsame]⟩

theorem get?_sorted (h : (members.map Prod.fst).Nodup) :
    (obj members).sorted.get? key = ((obj members).get? key).map sorted := by
  have hordered : ((sortedMembers members).map Prod.fst).Nodup := by
    refine List.Pairwise.map _ (fun a b hab => ?_) (ordered_sortedMembers members)
    exact ne_of_lt hab
  apply Option.ext
  intro w
  rw [sorted, get?_iff hordered, mem_sortedMembers h, Option.map_eq_some_iff]
  constructor
  · rintro ⟨v, hv, rfl⟩
    exact ⟨v, (get?_iff h).mpr hv, rfl⟩
  · rintro ⟨v, hv, rfl⟩
    exact ⟨v, (get?_iff h).mp hv, rfl⟩

/-- **Reading a member of a sorted object** is reading the member, sorted. -/
theorem read_sorted (h : (members.map Prod.fst).Nodup) {v : Json}
    (hv : (obj members).get? key = some v) :
    read e key f (obj members).sorted = f v.sorted := by
  rw [read, get?_sorted h, hv]
  rfl

theorem read_of (h : (members.map Prod.fst).Nodup) {v : Json} {a : α}
    (hv : (obj members).get? key = some v) (hf : f v.sorted = .ok a) :
    read e key f (obj members).sorted = .ok a :=
  (read_sorted h hv).trans hf

theorem readIfSome_of_none (h : (members.map Prod.fst).Nodup)
    (hv : (obj members).get? key = none) :
    readIfSome key f (obj members).sorted = .ok none := by
  rw [readIfSome, get?_sorted h, hv]
  rfl

theorem readIfSome_of_null (h : (members.map Prod.fst).Nodup)
    (hv : (obj members).get? key = some null) :
    readIfSome key f (obj members).sorted = .ok none := by
  rw [readIfSome, get?_sorted h, hv]
  rfl

theorem readIfSome_of (h : (members.map Prod.fst).Nodup) {v : Json} {a : α}
    (hv : (obj members).get? key = some v) (hnull : v.sorted ≠ null) (hf : f v.sorted = .ok a) :
    readIfSome key f (obj members).sorted = .ok (some a) := by
  rw [readIfSome, get?_sorted h, hv, Option.map_some]
  split
  · contradiction
  · rename_i hw
    exact absurd (Option.some_inj.mp hw) hnull
  · rename_i hw
    rw [← Option.some_inj.mp hw, hf]
    rfl

/-- A sorted object has the keys of the object. -/
theorem only_of (h : (members.map Prod.fst).Nodup) {keys : List (List Char)}
    (hkeys : ∀ k ∈ members.map Prod.fst, k ∈ keys) :
    only e keys (obj members).sorted = .ok () := by
  rw [sorted, only, ensure_ok, List.all_eq_true]
  rintro ⟨k, w⟩ hm
  obtain ⟨v, hv, _⟩ := (mem_sortedMembers h).mp hm
  rw [List.contains_iff_mem]
  exact hkeys k (List.mem_map.mpr ⟨_, hv, rfl⟩)

/-! ### Items and members -/

theorem mapM_of {β : Type} {g : α → Except ε β} {l : List α} {r : α → β}
    (h : ∀ a ∈ l, g a = .ok (r a)) : l.mapM g = .ok (l.map r) := by
  induction l with
  | nil => rfl
  | cons a l ih =>
    rw [List.mapM_cons, h a List.mem_cons_self, ih fun b hb => h b (List.mem_cons_of_mem _ hb)]
    rfl

theorem readItems_of {g : α → Json} (h : ∀ a, f (g a).sorted = .ok a) (l : List α) :
    readItems e f (arr (l.map g)).sorted = .ok l := by
  rw [sorted, sortedItems_eq_map, readItems, List.map_map, List.mapM_map]
  exact (mapM_of fun a _ => h a).trans (by rw [List.map_id'])

/-- The members of a sorted object under any keys, in order. -/
theorem readMembers_of {g : α → Json} (h : ∀ a, f (g a).sorted = .ok a)
    {m : List (List Char × α)} (hsorted : m.Pairwise fun a b => a.1 < b.1) :
    readMembers e f (obj (m.map fun x => (x.1, g x.2))).sorted = .ok m := by
  have hordered : Ordered (m.map fun x => (x.1, g x.2)) := List.pairwise_map.mpr hsorted
  rw [sorted, sortedMembers_of_ordered hordered, List.map_map, readMembers, List.mapM_map,
    mapM_of (r := id) fun x _ => by
      simp only [Function.comp_apply, h]
      rfl, List.map_id]

end Objects

end Json

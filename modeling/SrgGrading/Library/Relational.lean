import Mathlib.Data.List.Nodup
import Mathlib.Data.List.Perm.Basic
import Mathlib.Tactic.Common

/-!
# Tables as lists of rows

A table is a list of rows, and a column is a function on rows.  `lookup` is a
`SELECT … WHERE key = k`, `updateWhere` an `UPDATE … SET … WHERE …`, and an
`INSERT` appends one row.  `Keyed key rows` says that a column is unique.

* `lookup_eq_some`: on a keyed table, looking a row up is being in the table.
* `Grows key R N rows rows'`: every old row is still there up to `R`, every
  other row satisfies `N` and has a new key.  It is the shape of anything a
  program without `DELETE` does to a table, so it composes (`Grows.trans`), and
  both directions of it (`Grows.old`, `Grows.origin`) are what invariants need.
-/

namespace Relational

variable {α β κ : Type*}

/-! ### Unique columns -/

/-- The column `key` is unique. -/
def Keyed (key : α → κ) (rows : List α) : Prop := (rows.map key).Nodup

instance [DecidableEq κ] (key : α → κ) (rows : List α) : Decidable (Keyed key rows) :=
  inferInstanceAs (Decidable (rows.map key).Nodup)

theorem keyed_nil (key : α → κ) : Keyed key [] := List.nodup_nil

theorem Keyed.eq {key : α → κ} {rows : List α} (h : Keyed key rows) {x y : α}
    (hx : x ∈ rows) (hy : y ∈ rows) (hk : key x = key y) : x = y :=
  List.inj_on_of_nodup_map h hx hy hk

theorem Keyed.append {key : α → κ} {rows : List α} (h : Keyed key rows) {x : α}
    (hx : ∀ y ∈ rows, key y ≠ key x) : Keyed key (rows ++ [x]) := by
  rw [Keyed, List.map_append, List.nodup_append]
  refine ⟨h, by simp, ?_⟩
  intro a ha b hb
  obtain ⟨y, hy, rfl⟩ := List.mem_map.mp ha
  rw [List.map_singleton, List.mem_singleton] at hb
  rw [hb]
  exact hx y hy

/-- The only row that may be found is found. -/
theorem Keyed.find {key : α → κ} {rows : List α} (h : Keyed key rows) {p : α → Bool} {x : α}
    (hx : x ∈ rows) (hp : p x = true) (honly : ∀ y, p y = true → key y = key x) :
    rows.find? p = some x := by
  obtain ⟨y, hy⟩ := Option.isSome_iff_exists.mp (List.find?_isSome.mpr ⟨x, hx, hp⟩)
  have hyx : y = x := h.eq (List.mem_of_find?_eq_some hy) hx (honly y (List.find?_some hy))
  rw [hy, hyx]

/-! ### `UPDATE` -/

/-- `UPDATE … SET f WHERE p`. -/
def updateWhere (p : α → Bool) (f : α → α) (rows : List α) : List α :=
  rows.map fun x => if p x then f x else x

theorem mem_updateWhere {p : α → Bool} {f : α → α} {rows : List α} {y : α} :
    y ∈ updateWhere p f rows ↔ ∃ x ∈ rows, (if p x then f x else x) = y := by
  rw [updateWhere, List.mem_map]

theorem mem_updateWhere_of_neg {p : α → Bool} {f : α → α} {rows : List α} {x : α}
    (hx : x ∈ rows) (hp : p x = false) : x ∈ updateWhere p f rows :=
  mem_updateWhere.mpr ⟨x, hx, by rw [hp]; rfl⟩

theorem mem_updateWhere_of_pos {p : α → Bool} {f : α → α} {rows : List α} {x : α}
    (hx : x ∈ rows) (hp : p x = true) : f x ∈ updateWhere p f rows :=
  mem_updateWhere.mpr ⟨x, hx, by rw [if_pos hp]⟩

theorem updateWhere_append (p : α → Bool) (f : α → α) (rows added : List α) :
    updateWhere p f (rows ++ added) = updateWhere p f rows ++ updateWhere p f added :=
  List.map_append

theorem updateWhere_none (f : α → α) (rows : List α) :
    updateWhere (fun _ => false) f rows = rows := List.map_id _

theorem updateWhere_singleton (p : α → Bool) (f : α → α) (x : α) :
    updateWhere p f [x] = [if p x then f x else x] := rfl

/-- An update changes nothing when it changes none of its rows. -/
theorem updateWhere_eq_self {p : α → Bool} {f : α → α} {rows : List α} :
    updateWhere p f rows = rows ↔ ∀ x ∈ rows, p x = true → f x = x := by
  have hid : updateWhere p f rows = rows ↔
      rows.map (fun x => if p x then f x else x) = rows.map id := by
    rw [updateWhere, List.map_id]
  rw [hid, List.map_inj_left]
  refine forall_congr' fun x => imp_congr_right fun _ => ?_
  by_cases hp : p x = true
  · rw [if_pos hp]
    exact ⟨fun h _ => h, fun h => h hp⟩
  · rw [if_neg hp]
    exact ⟨fun _ h => absurd h hp, fun _ => rfl⟩

/-- An update of one row that makes a predicate true of it. -/
theorem countP_updateWhere_succ {key : α → κ} {p q : α → Bool} {f : α → α} {rows : List α} {x : α}
    (hk : Keyed key rows) (hx : x ∈ rows) (hp : p x = true)
    (honly : ∀ y ∈ rows, p y = true → key y = key x) (hq : q x = false) (hqf : q (f x) = true) :
    (updateWhere p f rows).countP q = rows.countP q + 1 := by
  obtain ⟨pre, post, rfl⟩ := List.append_of_mem hx
  rw [Keyed, List.map_append, List.map_cons, List.nodup_append, List.nodup_cons] at hk
  obtain ⟨_, ⟨hpost, _⟩, hpre⟩ := hk
  have hkeep : ∀ rest : List α, (∀ y ∈ rest, y ∈ pre ++ x :: post) → key x ∉ rest.map key →
      updateWhere p f rest = rest := by
    intro rest hsub hnot
    refine updateWhere_eq_self.mpr fun y hy hpy => ?_
    have hkey := honly y (hsub y hy) hpy
    exact absurd (List.mem_map.mpr ⟨y, hy, hkey⟩) hnot
  have hfirst : updateWhere p f pre = pre := by
    refine hkeep pre (fun y hy => List.mem_append_left _ hy) fun hmem => ?_
    exact hpre _ hmem _ List.mem_cons_self rfl
  have hlast : updateWhere p f post = post :=
    hkeep post (fun y hy => List.mem_append_right _ (List.mem_cons_of_mem x hy)) hpost
  have hcons : updateWhere p f (x :: post) = f x :: updateWhere p f post := by
    rw [updateWhere, List.map_cons, if_pos hp]
    rfl
  rw [updateWhere_append, hcons, hfirst, hlast, List.countP_append, List.countP_append,
    List.countP_cons_of_pos hqf, List.countP_cons_of_neg (by rw [hq]; exact Bool.false_ne_true)]
  omega

/-- A column the update does not write. -/
theorem map_updateWhere {p : α → Bool} {f : α → α} {g : α → β} (rows : List α)
    (h : ∀ x ∈ rows, g (f x) = g x) : (updateWhere p f rows).map g = rows.map g := by
  rw [updateWhere, List.map_map]
  refine List.map_congr_left fun x hx => ?_
  simp only [Function.comp]
  split
  · exact h x hx
  · rfl

theorem Keyed.updateWhere {key : α → κ} {rows : List α} (h : Keyed key rows)
    {p : α → Bool} {f : α → α} (hf : ∀ x ∈ rows, key (f x) = key x) :
    Keyed key (updateWhere p f rows) := by
  rw [Keyed, map_updateWhere rows hf]
  exact h

/-- An update of rows outside `q` that keeps them outside leaves `q`'s rows alone. -/
theorem filter_updateWhere {p q : α → Bool} {f : α → α} {rows : List α}
    (h : ∀ x ∈ rows, p x = true → q x = false ∧ q (f x) = false) :
    (updateWhere p f rows).filter q = rows.filter q := by
  induction rows with
  | nil => rfl
  | cons x rows ih =>
    have ih' := ih fun y hy => h y (List.mem_cons_of_mem _ hy)
    rw [Relational.updateWhere, List.map_cons]
    rw [Relational.updateWhere] at ih'
    by_cases hp : p x = true
    · obtain ⟨h1, h2⟩ := h x List.mem_cons_self hp
      rw [if_pos hp, List.filter_cons_of_neg (by rw [h2]; exact Bool.false_ne_true),
        List.filter_cons_of_neg (by rw [h1]; exact Bool.false_ne_true), ih']
    · rw [if_neg hp, List.filter_cons, List.filter_cons, ih']

/-- An update that neither adds rows to `q` nor takes any away acts on `q`'s rows. -/
theorem filter_updateWhere_comm {p q : α → Bool} {f : α → α} {rows : List α}
    (h : ∀ x ∈ rows, p x = true → q (f x) = q x) :
    (updateWhere p f rows).filter q = updateWhere p f (rows.filter q) := by
  induction rows with
  | nil => rfl
  | cons x rows ih =>
    have ih' := ih fun y hy => h y (List.mem_cons_of_mem _ hy)
    have hq : q (if p x then f x else x) = q x := by
      split
      · exact h x List.mem_cons_self ‹_›
      · rfl
    rw [Relational.updateWhere] at ih'
    rw [Relational.updateWhere, List.map_cons, List.filter_cons, List.filter_cons, hq, ih']
    split <;> rfl

/-! ### Looking a row up -/

section Lookup
variable [DecidableEq κ]

/-- `SELECT * … WHERE key = k`. -/
def lookup (key : α → κ) (k : κ) (rows : List α) : Option α :=
  rows.find? fun x => key x = k

theorem mem_of_lookup {key : α → κ} {k : κ} {rows : List α} {x : α}
    (h : lookup key k rows = some x) : x ∈ rows := List.mem_of_find?_eq_some h

theorem key_of_lookup {key : α → κ} {k : κ} {rows : List α} {x : α}
    (h : lookup key k rows = some x) : key x = k := by
  simpa using List.find?_some h

theorem exists_lookup {key : α → κ} {k : κ} {rows : List α} {x : α} (hx : x ∈ rows)
    (hk : key x = k) : ∃ y, lookup key k rows = some y := by
  cases hl : lookup key k rows with
  | some y => exact ⟨y, rfl⟩
  | none =>
    rw [lookup, List.find?_eq_none] at hl
    exact absurd hk (by simpa using hl x hx)

/-- **On a keyed table the row with a key is the one `lookup` finds.** -/
theorem lookup_eq_some {key : α → κ} {k : κ} {rows : List α} (h : Keyed key rows) {x : α} :
    lookup key k rows = some x ↔ x ∈ rows ∧ key x = k := by
  constructor
  · intro hl
    exact ⟨mem_of_lookup hl, key_of_lookup hl⟩
  · rintro ⟨hx, hk⟩
    obtain ⟨y, hy⟩ := exists_lookup hx hk
    have hxy : y = x := h.eq (mem_of_lookup hy) hx ((key_of_lookup hy).trans hk.symm)
    rw [hy, hxy]

theorem lookup_append_of_some {key : α → κ} {k : κ} {rows added : List α} {x : α}
    (h : lookup key k rows = some x) : lookup key k (rows ++ added) = some x := by
  rw [lookup] at h
  rw [lookup, List.find?_append, h]
  rfl

theorem lookup_append_of_ne {key : α → κ} {k : κ} {rows added : List α}
    (h : ∀ x ∈ added, key x ≠ k) : lookup key k (rows ++ added) = lookup key k rows := by
  have hnone : added.find? (fun x => decide (key x = k)) = none := by
    rw [List.find?_eq_none]
    intro x hx
    rw [decide_eq_true_eq]
    exact h x hx
  rw [lookup, List.find?_append, hnone, Option.or_none, lookup]

theorem lookup_concat_self {key : α → κ} {rows : List α} {x : α}
    (h : ∀ y ∈ rows, key y ≠ key x) : lookup key (key x) (rows ++ [x]) = some x := by
  have hnone : rows.find? (fun y => decide (key y = key x)) = none := by
    rw [List.find?_eq_none]
    intro y hy
    rw [decide_eq_true_eq]
    exact h y hy
  rw [lookup, List.find?_append, hnone, Option.none_or, List.find?_singleton, decide_eq_true rfl,
    if_pos rfl]

/-- An update that keeps the key acts on the row found. -/
theorem lookup_updateWhere {key : α → κ} {k : κ} {p : α → Bool} {f : α → α} {rows : List α}
    (hf : ∀ x ∈ rows, key (f x) = key x) :
    lookup key k (updateWhere p f rows)
      = (lookup key k rows).map fun x => if p x then f x else x := by
  induction rows with
  | nil => rfl
  | cons x rows ih =>
    have ih' := ih fun y hy => hf y (List.mem_cons_of_mem _ hy)
    have hkx : key (if p x then f x else x) = key x := by
      split
      · exact hf x List.mem_cons_self
      · rfl
    rw [lookup, updateWhere] at ih'
    rw [lookup, updateWhere, lookup, List.map_cons, List.find?_cons, List.find?_cons, hkx]
    by_cases hk : key x = k
    · rw [decide_eq_true hk]; rfl
    · rw [decide_eq_false hk]; exact ih'

/-- An update of rows under other keys. -/
theorem lookup_updateWhere_of_ne {key : α → κ} {k : κ} {p : α → Bool} {f : α → α} {rows : List α}
    (h : ∀ x ∈ rows, p x = true → key x ≠ k ∧ key (f x) ≠ k) :
    lookup key k (updateWhere p f rows) = lookup key k rows := by
  induction rows with
  | nil => rfl
  | cons x rows ih =>
    have ih' := ih fun y hy => h y (List.mem_cons_of_mem _ hy)
    rw [lookup, updateWhere, lookup] at ih'
    rw [lookup, lookup, updateWhere, List.map_cons, List.find?_cons, List.find?_cons, ih']
    by_cases hp : p x = true
    · obtain ⟨h1, h2⟩ := h x List.mem_cons_self hp
      rw [if_pos hp, decide_eq_false h1, decide_eq_false h2]
    · rw [if_neg hp]

end Lookup

/-! ### Outer joins -/

/-- Every row of `rows` is in `rows'` up to `R` and under the same key, and
every further row of `rows'` satisfies `N` and has a key of its own. -/
def Grows (key : α → κ) (R : α → α → Prop) (N : α → Prop) (rows rows' : List α) : Prop :=
  ∃ (f : α → α) (added : List α), rows' = rows.map f ++ added ∧
    (∀ x ∈ rows, key (f x) = key x ∧ R x (f x)) ∧ (∀ y ∈ added, N y) ∧
    (added.map key).Nodup ∧ ∀ y ∈ added, key y ∉ rows.map key

namespace Grows

variable {key : α → κ} {R : α → α → Prop} {N : α → Prop} {rows rows' rows'' : List α}

theorem refl (hR : ∀ x ∈ rows, R x x) : Grows key R N rows rows :=
  ⟨id, [], by simp, fun x hx => ⟨rfl, hR x hx⟩, by simp, by simp, by simp⟩

theorem of_eq (h : rows' = rows) (hR : ∀ x ∈ rows, R x x) : Grows key R N rows rows' := by
  rw [h]
  exact refl hR

theorem old (h : Grows key R N rows rows') {x : α} (hx : x ∈ rows) :
    ∃ y ∈ rows', key y = key x ∧ R x y := by
  obtain ⟨f, added, rfl, hf, _⟩ := h
  exact ⟨f x, List.mem_append_left _ (List.mem_map_of_mem hx), hf x hx⟩

theorem origin (h : Grows key R N rows rows') {y : α} (hy : y ∈ rows') :
    (∃ x ∈ rows, key y = key x ∧ R x y) ∨ (N y ∧ key y ∉ rows.map key) := by
  obtain ⟨f, added, rfl, hf, hN, _, hfresh⟩ := h
  rcases List.mem_append.mp hy with h1 | h1
  · obtain ⟨x, hx, rfl⟩ := List.mem_map.mp h1
    exact Or.inl ⟨x, hx, hf x hx⟩
  · exact Or.inr ⟨hN y h1, hfresh y h1⟩

theorem map_key (h : Grows key R N rows rows') :
    ∃ added : List α, rows'.map key = rows.map key ++ added.map key ∧ (added.map key).Nodup ∧
      ∀ y ∈ added, key y ∉ rows.map key := by
  obtain ⟨f, added, rfl, hf, _, hnd, hfresh⟩ := h
  refine ⟨added, ?_, hnd, hfresh⟩
  rw [List.map_append, List.map_map]
  congr 1
  exact List.map_congr_left fun x hx => (hf x hx).1

/-- **A key that was unique still is.** -/
theorem keyed (h : Grows key R N rows rows') (hk : Keyed key rows) : Keyed key rows' := by
  obtain ⟨added, hmap, hnd, hfresh⟩ := h.map_key
  rw [Keyed, hmap, List.nodup_append]
  refine ⟨hk, hnd, ?_⟩
  intro a ha b hb hab
  obtain ⟨y, hy, rfl⟩ := List.mem_map.mp hb
  exact hfresh y hy (hab ▸ ha)

theorem mono {R' : α → α → Prop} {N' : α → Prop} (h : Grows key R N rows rows')
    (hR : ∀ x ∈ rows, ∀ y, R x y → R' x y) (hN : ∀ y, N y → N' y) :
    Grows key R' N' rows rows' := by
  obtain ⟨f, added, he, hf, ha, hnd, hfresh⟩ := h
  exact ⟨f, added, he, fun x hx => ⟨(hf x hx).1, hR x hx _ (hf x hx).2⟩,
    fun y hy => hN y (ha y hy), hnd, hfresh⟩

/-- One growth after another, when the relations compose and carry `N` along. -/
theorem trans {R' R'' : α → α → Prop} (h : Grows key R N rows rows')
    (h' : Grows key R' N rows' rows'') (hR : ∀ x y z, key y = key x → R x y → R' y z → R'' x z)
    (hN : ∀ y z, N y → R' y z → N z) : Grows key R'' N rows rows'' := by
  obtain ⟨f, added, rfl, hf, ha, hnd, hfresh⟩ := h
  obtain ⟨g, added', rfl, hg, ha', hnd', hfresh'⟩ := h'
  have hgf : ∀ x ∈ rows, key (g (f x)) = key (f x) ∧ R' (f x) (g (f x)) := fun x hx =>
    hg _ (List.mem_append_left _ (List.mem_map_of_mem hx))
  have hga : ∀ y ∈ added, key (g y) = key y ∧ R' y (g y) := fun y hy =>
    hg _ (List.mem_append_right _ hy)
  have hkeys : (added.map g).map key = added.map key := by
    rw [List.map_map]
    exact List.map_congr_left fun y hy => (hga y hy).1
  refine ⟨g ∘ f, added.map g ++ added', ?_, ?_, ?_, ?_, ?_⟩
  · rw [List.map_append, List.map_map, List.append_assoc]
  · intro x hx
    exact ⟨(hgf x hx).1.trans (hf x hx).1, hR x _ _ (hf x hx).1 (hf x hx).2 (hgf x hx).2⟩
  · intro y hy
    rcases List.mem_append.mp hy with h1 | h1
    · obtain ⟨z, hz, rfl⟩ := List.mem_map.mp h1
      exact hN z _ (ha z hz) (hga z hz).2
    · exact ha' y h1
  · rw [List.map_append, hkeys, List.nodup_append]
    refine ⟨hnd, hnd', ?_⟩
    intro a h1 b h2 hab
    obtain ⟨y, hy, rfl⟩ := List.mem_map.mp h2
    refine hfresh' y hy ?_
    rw [List.map_append]
    exact List.mem_append_right _ (hab ▸ h1)
  · intro y hy hin
    rcases List.mem_append.mp hy with h1 | h1
    · obtain ⟨z, hz, rfl⟩ := List.mem_map.mp h1
      rw [(hga z hz).1] at hin
      exact hfresh z hz hin
    · refine hfresh' y h1 ?_
      have hmap : (rows.map f).map key = rows.map key := by
        rw [List.map_map]
        exact List.map_congr_left fun x hx => (hf x hx).1
      rw [List.map_append, hmap]
      exact List.mem_append_left _ hin

theorem update {p : α → Bool} {f : α → α}
    (h : ∀ x ∈ rows, p x = true → key (f x) = key x ∧ R x (f x))
    (hR : ∀ x ∈ rows, R x x) : Grows key R N rows (updateWhere p f rows) := by
  refine ⟨fun x => if p x then f x else x, [], by rw [List.append_nil]; rfl, ?_, by simp, by simp,
    by simp⟩
  intro x hx
  dsimp only
  split
  · exact h x hx ‹_›
  · exact ⟨rfl, hR x hx⟩

theorem insert {x : α} (hR : ∀ x ∈ rows, R x x) (hN : N x) (hx : ∀ y ∈ rows, key y ≠ key x) :
    Grows key R N rows (rows ++ [x]) := by
  refine ⟨id, [x], by simp, fun y hy => ⟨rfl, hR y hy⟩, by simpa using hN, by simp, ?_⟩
  intro y hy hin
  rw [List.mem_singleton] at hy
  obtain ⟨z, hz, hzx⟩ := List.mem_map.mp hin
  rw [hy] at hzx
  exact hx z hz hzx

/-- What is counted cannot grow in number when no step makes it true of a row. -/
theorem countP_le {q : α → Bool} (h : Grows key R N rows rows')
    (hR : ∀ x ∈ rows, ∀ y, R x y → q y = true → q x = true) (hN : ∀ y, N y → q y = false) :
    rows'.countP q ≤ rows.countP q := by
  obtain ⟨f, added, rfl, hf, ha, _⟩ := h
  have hadded : added.countP q = 0 := by
    rw [List.countP_eq_zero]
    intro y hy
    rw [hN y (ha y hy)]
    exact Bool.false_ne_true
  rw [List.countP_append, hadded, Nat.add_zero, List.countP_map]
  exact List.countP_mono_left fun x hx => hR x hx (f x) (hf x hx).2

/-- The row found under a key is still found under it, up to `R`. -/
theorem lookup_some [DecidableEq κ] (h : Grows key R N rows rows') {k : κ} {x : α}
    (hx : lookup key k rows = some x) : ∃ y, lookup key k rows' = some y ∧ R x y := by
  obtain ⟨f, added, rfl, hf, _⟩ := h
  have hmap : ∀ l : List α, (∀ y ∈ l, key (f y) = key y) → lookup key k l = some x →
      lookup key k (l.map f) = some (f x) := by
    intro l
    induction l with
    | nil => intro _ hl; cases hl
    | cons y l ih =>
      intro hl hx
      rw [lookup, List.find?_cons] at hx
      rw [lookup, List.map_cons, List.find?_cons, hl y List.mem_cons_self]
      split at hx
      · cases hx; rfl
      · exact ih (fun z hz => hl z (List.mem_cons_of_mem _ hz)) hx
  exact ⟨f x, lookup_append_of_some (hmap rows (fun y hy => (hf y hy).1) hx),
    (hf x (mem_of_lookup hx)).2⟩

end Grows

end Relational

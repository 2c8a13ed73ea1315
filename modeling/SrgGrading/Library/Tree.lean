import Mathlib.Data.List.Lex
import Mathlib.Data.List.Nodup
import Mathlib.Data.List.Sort

/-!
# Trees with named branches

A labelled tree whose branches have names, in whatever order they are found.
The listing visits the branches in the order of their names.

* `listing_eq_iff`: where names are distinct, two trees have the same listing
  exactly when they have the same labels at the same paths.
-/

/-- A labelled tree; each branch has a name. -/
inductive NamedTree (κ β : Type*)
  | node (label : β) (branches : List (κ × NamedTree κ β))

namespace NamedTree

variable {κ β : Type*}

/-- Induction with a hypothesis for each branch. -/
theorem induct {motive : NamedTree κ β → Prop}
    (h : ∀ b cs, (∀ c ∈ cs, motive c.2) → motive (node b cs)) : ∀ t, motive t
  | node b cs => h b cs fun c _ => induct h c.2
termination_by t => sizeOf t
decreasing_by
  have hlt := List.sizeOf_lt_of_mem ‹c ∈ cs›
  obtain ⟨k, t⟩ := c
  simp only [Prod.mk.sizeOf_spec, node.sizeOf_spec] at hlt ⊢
  omega

/-- The node at a path has a label. -/
def At : List κ → NamedTree κ β → β → Prop
  | [], node a _, b => a = b
  | k :: p, node _ cs, b => ∃ t, (k, t) ∈ cs ∧ At p t b

/-- No two branches of a node have the same name. -/
inductive Distinct : NamedTree κ β → Prop
  | node {b : β} {cs : List (κ × NamedTree κ β)} (names : (cs.map Prod.fst).Nodup)
      (branches : ∀ c ∈ cs, Distinct c.2) : Distinct (node b cs)

/-- The branch a path takes first. -/
def push (k : κ) (l : List (List κ × β)) : List (List κ × β) := l.map fun e => (k :: e.1, e.2)

theorem mem_push {k : κ} {l : List (List κ × β)} {p : List κ} {b : β} :
    (p, b) ∈ push k l ↔ ∃ q, p = k :: q ∧ (q, b) ∈ l := by
  simp only [push, List.mem_map, Prod.mk.injEq, Prod.exists]
  constructor
  · rintro ⟨q, c, hmem, rfl, rfl⟩
    exact ⟨q, rfl, hmem⟩
  · rintro ⟨q, rfl, hmem⟩
    exact ⟨q, b, hmem, rfl, rfl⟩

theorem path_of_mem_push {k : κ} {l : List (List κ × β)} {e : List κ × β} (h : e ∈ push k l) :
    ∃ q, e.1 = k :: q := by
  obtain ⟨p, b⟩ := e
  obtain ⟨q, hq, _⟩ := mem_push.mp h
  exact ⟨q, hq⟩

/-! ### Listings -/

section Listing
variable [LinearOrder κ]

/-- Whether a name stands before another, or is the same. -/
def Before (α : Type*) (x y : κ × α) : Prop := x.1 ≤ y.1

instance (α : Type*) : DecidableRel (@Before κ _ α) := fun x y =>
  inferInstanceAs (Decidable (x.1 ≤ y.1))

instance (α : Type*) : Std.Total (@Before κ _ α) := ⟨fun x y => le_total x.1 y.1⟩

instance (α : Type*) : IsTrans (κ × α) (Before α) := ⟨fun _ _ _ h h' => le_trans h h'⟩

mutual

/-- Every path with its label: a node first, then its branches by name. -/
def listing : NamedTree κ β → List (List κ × β)
  | node b cs =>
    ([], b) :: ((listings cs).insertionSort (Before _)).flatMap fun c => push c.1 c.2

def listings : List (κ × NamedTree κ β) → List (κ × List (List κ × β))
  | [] => []
  | (k, t) :: rest => (k, listing t) :: listings rest

end

theorem listings_eq_map (cs : List (κ × NamedTree κ β)) :
    listings cs = cs.map fun c => (c.1, c.2.listing) := by
  induction cs with
  | nil => rfl
  | cons c rest ih => rw [listings, ih, List.map_cons]

/-- **A listing has exactly the labels of the tree.** -/
theorem mem_listing {t : NamedTree κ β} : ∀ {p : List κ} {b : β}, (p, b) ∈ t.listing ↔ At p t b := by
  induction t using induct with
  | h a cs ih =>
    intro p b
    rw [listing, List.mem_cons, List.mem_flatMap]
    have hbranch : (∃ c ∈ (listings cs).insertionSort (Before _), (p, b) ∈ push c.1 c.2) ↔
        ∃ c ∈ cs, (p, b) ∈ push c.1 c.2.listing := by
      rw [listings_eq_map]
      simp only [List.mem_insertionSort, List.mem_map, exists_exists_and_eq_and]
    rw [hbranch]
    cases p with
    | nil =>
      simp only [Prod.mk.injEq, true_and, At, mem_push, List.nil_eq, reduceCtorEq, false_and,
        exists_false, and_false, or_false]
      exact eq_comm
    | cons k q =>
      simp only [Prod.mk.injEq, reduceCtorEq, false_and, false_or, At, mem_push,
        List.cons.injEq]
      constructor
      · rintro ⟨c, hc, r, ⟨rfl, rfl⟩, hr⟩
        exact ⟨c.2, hc, (ih c hc).mp hr⟩
      · rintro ⟨t, ht, hat⟩
        exact ⟨(k, t), ht, q, ⟨rfl, rfl⟩, (ih _ ht).mpr hat⟩

/-- **A listing is in the order of the paths.** -/
theorem listing_sorted {t : NamedTree κ β} (h : t.Distinct) :
    t.listing.Pairwise fun x y => x.1 < y.1 := by
  induction t using induct with
  | h b cs ih =>
    obtain ⟨hnames, hbranches⟩ := h
    rw [listing, List.pairwise_cons]
    refine ⟨fun e he => ?_, ?_⟩
    · obtain ⟨c, _, hc⟩ := List.mem_flatMap.mp he
      obtain ⟨q, hq⟩ := path_of_mem_push hc
      rw [hq]
      exact List.nil_lt_cons c.1 q
    · rw [List.pairwise_flatMap]
      have hsorted : ((listings cs).insertionSort (Before _)).Pairwise fun x y => x.1 < y.1 := by
        have hle := List.pairwise_insertionSort (@Before κ _ _) (listings cs)
        have hne : ((listings cs).insertionSort (Before _)).Pairwise fun x y => x.1 ≠ y.1 := by
          rw [← List.pairwise_map (f := Prod.fst) (R := (· ≠ ·)), ← List.nodup_iff_pairwise_ne]
          refine ((List.perm_insertionSort _ _).map Prod.fst).nodup_iff.mpr ?_
          rw [listings_eq_map, List.map_map]
          exact hnames
        exact hle.imp₂ (fun _ _ hle hne => lt_of_le_of_ne hle hne) hne
      refine ⟨fun c hc => ?_, hsorted.imp fun {x y} hlt => ?_⟩
      · rw [List.mem_insertionSort, listings_eq_map] at hc
        obtain ⟨d, hd, rfl⟩ := List.mem_map.mp hc
        rw [push, List.pairwise_map]
        exact (ih d hd (hbranches d hd)).imp fun hlt => List.cons_lt_cons_self.mpr hlt
      · intro e he f hf
        obtain ⟨q, hq⟩ := path_of_mem_push he
        obtain ⟨r, hr⟩ := path_of_mem_push hf
        rw [hq, hr]
        exact List.Lex.rel hlt

/-- Lists in strict order with the same members are equal. -/
theorem eq_of_sorted {l m : List (List κ × β)} (hl : l.Pairwise fun x y => x.1 < y.1)
    (hm : m.Pairwise fun x y => x.1 < y.1) (h : ∀ e, e ∈ l ↔ e ∈ m) : l = m := by
  have hnodup : ∀ {n : List (List κ × β)}, n.Pairwise (fun x y => x.1 < y.1) → n.Nodup := by
    intro n hn
    refine hn.imp fun hlt heq => ?_
    rw [heq] at hlt
    exact lt_irrefl _ hlt
  have hperm := (List.perm_ext_iff_of_nodup (hnodup hl) (hnodup hm)).mpr h
  exact hperm.eq_of_pairwise (fun _ _ _ _ hab hba => absurd hba (lt_asymm hab)) hl hm

/-- **The listing tells the labels, and the labels the listing**, however the
branches are ordered. -/
theorem listing_eq_iff {t u : NamedTree κ β} (ht : t.Distinct) (hu : u.Distinct) :
    t.listing = u.listing ↔ ∀ p b, At p t b ↔ At p u b := by
  constructor
  · intro h p b
    rw [← mem_listing, ← mem_listing, h]
  · intro h
    refine eq_of_sorted (listing_sorted ht) (listing_sorted hu) fun e => ?_
    obtain ⟨p, b⟩ := e
    rw [mem_listing, mem_listing]
    exact h p b

end Listing

end NamedTree

import SrgGrading.Library.Program
import SrgGrading.Library.Transition

/-!
# Transactions under READ COMMITTED

A transaction is a program of statements.  Each statement begins with a snapshot
of what is committed, waits until the locks it takes are free, and adds to what
the transaction itself has written; the commit makes that visible to others and
gives back the locks.

* `Delta`: what a transaction has written to a table with a key.
* `Isolation`: the statements, what they answer, write and lock.
* `Isolation.Step`: the steps of any number of transactions.
* `Discipline`: what is kept for everybody, and for the holder of a lock.
* `Sound.run`, `Sound.history`: from a triple for each transaction alone, what holds of the
  committed state along every run, and of every commit.
-/

/-! ### Changes of a table -/

/-- The keys of the rows a transaction has deleted, and the rows it has added. -/
structure Delta (ρ η : Type) where
  dropped : List η
  added : List ρ

namespace Delta

variable {ρ η : Type} [DecidableEq η] (key : ρ → η)

def blank : Delta ρ η := ⟨[], []⟩

/-- The rows of a table after the changes. -/
def apply (d : Delta ρ η) (rows : List ρ) : List ρ :=
  rows.filter (fun row => key row ∉ d.dropped) ++ d.added

/-- Rows are deleted by their keys. -/
def drop (d : Delta ρ η) (keys : List η) : Delta ρ η :=
  ⟨d.dropped ++ keys, d.added.filter fun row => key row ∉ keys⟩

def add (d : Delta ρ η) (row : ρ) : Delta ρ η := ⟨d.dropped, d.added ++ [row]⟩

/-- Of the keys a statement has selected, those of rows it sees and that are still
there once it has their locks. -/
def deletable (seen current : List ρ) (keys : List η) : List η :=
  keys.filter fun k => seen.any (fun row => key row = k) && current.any fun row => key row = k

/-- A key of a row that was deleted or added. -/
def Touches (d : Delta ρ η) (k : η) : Prop := k ∈ d.dropped ∨ ∃ row ∈ d.added, key row = k

variable {key} {d : Delta ρ η} {rows : List ρ}

@[simp] theorem apply_blank : (blank : Delta ρ η).apply key rows = rows := by
  simp [apply, blank]

omit [DecidableEq η] in
theorem not_touches_blank {k : η} : ¬(blank : Delta ρ η).Touches key k := by
  simp [Touches, blank]

/-- A deletion deletes what is there. -/
theorem apply_drop (keys : List η) :
    (d.drop key keys).apply key rows = (d.apply key rows).filter fun row => key row ∉ keys := by
  unfold apply drop
  rw [List.filter_append, List.filter_filter]
  refine congrArg (· ++ _) (List.filter_congr fun row _ => ?_)
  simp only [List.mem_append, not_or, Bool.decide_and, Bool.and_comm]

/-- A new row is the last one. -/
theorem apply_add (row : ρ) : (d.add row).apply key rows = d.apply key rows ++ [row] := by
  rw [apply, apply, add, List.append_assoc]

theorem Touches.of_drop {keys : List η} {k : η} (h : (d.drop key keys).Touches key k) :
    d.Touches key k ∨ k ∈ keys := by
  rcases h with hdropped | ⟨row, hrow, rfl⟩
  · rcases List.mem_append.mp hdropped with hold | hnew
    · exact Or.inl (Or.inl hold)
    · exact Or.inr hnew
  · exact Or.inl (Or.inr ⟨row, (List.mem_filter.mp hrow).1, rfl⟩)

omit [DecidableEq η] in
theorem Touches.of_add {row : ρ} {k : η} (h : (d.add row).Touches key k) :
    d.Touches key k ∨ k = key row := by
  rcases h with hdropped | ⟨other, hother, rfl⟩
  · exact Or.inl (Or.inl hdropped)
  · rcases List.mem_append.mp hother with hold | hnew
    · exact Or.inl (Or.inr ⟨other, hold, rfl⟩)
    · rw [List.mem_singleton.mp hnew]
      exact Or.inr rfl

/-- Rows of keys that are not touched stay as they are. -/
theorem filter_apply {p : ρ → Bool} (h : ∀ row, p row = true → ¬d.Touches key (key row)) :
    (d.apply key rows).filter p = rows.filter p := by
  have hadded : d.added.filter p = [] := by
    refine List.filter_eq_nil_iff.mpr fun row hrow hp => ?_
    exact h row hp (Or.inr ⟨row, hrow, rfl⟩)
  rw [apply, List.filter_append, hadded, List.append_nil, List.filter_filter]
  refine List.filter_congr fun row _ => ?_
  by_cases hp : p row = true
  · have hnot : key row ∉ d.dropped := fun hmem => h row hp (Or.inl hmem)
    simp [hp, hnot]
  · simp [hp]

/-- Rows of which none is added only become fewer. -/
theorem filter_apply_sublist {p : ρ → Bool} (h : ∀ row ∈ d.added, p row = false) :
    ((d.apply key rows).filter p).Sublist (rows.filter p) := by
  have hadded : d.added.filter p = [] := by
    refine List.filter_eq_nil_iff.mpr fun row hrow => ?_
    rw [h row hrow]
    exact Bool.false_ne_true
  rw [apply, List.filter_append, hadded, List.append_nil]
  exact List.filter_sublist.filter p

/-- The changes keep one list of rows within another one. -/
theorem filter_apply_mono {p : ρ → Bool} {rows' : List ρ}
    (h : (rows.filter p).Sublist (rows'.filter p)) :
    ((d.apply key rows).filter p).Sublist ((d.apply key rows').filter p) := by
  rw [apply, apply, List.filter_append, List.filter_append, List.filter_filter, List.filter_filter]
  refine List.Sublist.append ?_ (List.Sublist.refl _)
  have hswap : ∀ l : List ρ, (l.filter fun row => p row && decide (key row ∉ d.dropped)) =
      (l.filter p).filter fun row => decide (key row ∉ d.dropped) := by
    intro l
    rw [List.filter_filter]
    exact List.filter_congr fun row _ => Bool.and_comm _ _
  rw [hswap, hswap]
  exact h.filter _

/-- Of the rows a statement sees, those it selects are gone, if nobody adds any. -/
theorem filter_deletable_sublist {p : ρ → Bool} {seen current : List ρ} (keys : List η)
    (h : (current.filter p).Sublist (seen.filter p)) :
    ((current.filter fun row => key row ∉ deletable key seen current keys).filter p).Sublist
      ((seen.filter p).filter fun row => key row ∉ keys) := by
  have hsame : (current.filter fun row => key row ∉ deletable key seen current keys).filter p =
      (current.filter p).filter fun row => key row ∉ keys := by
    rw [List.filter_filter, List.filter_filter]
    refine List.filter_congr fun row hrow => ?_
    by_cases hp : p row = true
    · have hseen : row ∈ seen :=
        (List.mem_filter.mp (h.subset (List.mem_filter.mpr ⟨hrow, hp⟩))).1
      have hiff : key row ∈ deletable key seen current keys ↔ key row ∈ keys := by
        rw [deletable, List.mem_filter, Bool.and_eq_true, List.any_eq_true, List.any_eq_true]
        exact ⟨fun hmem => hmem.1, fun hmem => ⟨hmem, ⟨row, hseen, decide_eq_true rfl⟩,
          row, hrow, decide_eq_true rfl⟩⟩
      simp only [hp, hiff, Bool.true_and, Bool.and_true]
    · simp [hp]
  rw [hsame]
  exact h.filter _

/-- Without the rows from the `n`th on, at most `n` are left. -/
theorem length_filter_drop_le (rows : List ρ) (n : Nat) :
    (rows.filter fun row => key row ∉ (rows.drop n).map key).length ≤ n := by
  have hsplit : rows.filter (fun row => key row ∉ (rows.drop n).map key) =
      (rows.take n).filter (fun row => key row ∉ (rows.drop n).map key) ++
        (rows.drop n).filter fun row => key row ∉ (rows.drop n).map key := by
    rw [← List.filter_append, List.take_append_drop]
  have hrest : ((rows.drop n).filter fun row => key row ∉ (rows.drop n).map key) = [] := by
    refine List.filter_eq_nil_iff.mpr fun row hrow => ?_
    rw [decide_eq_true_eq, not_not]
    exact List.mem_map_of_mem hrow
  rw [hsplit, hrest, List.append_nil]
  exact Nat.le_trans (List.length_filter_le _ _) (List.length_take_le n rows)

theorem mem_apply {row : ρ} (h : row ∈ d.apply key rows) : row ∈ rows ∨ row ∈ d.added := by
  rcases List.mem_append.mp h with hold | hnew
  · exact Or.inl (List.mem_filter.mp hold).1
  · exact Or.inr hnew

end Delta

/-! ### Transactions -/

/-- What a statement sees: what was committed when its transaction began, its
snapshot, what is committed now, what its transaction has written and locked. -/
structure View (Db Eff Key : Type) where
  began : Db
  snapshot : Db
  db : Db
  own : Eff
  keys : List Key

/-- Calls `κ`, each a transaction on a database.  A transaction has the locks
`claims` from the start: those on what it makes up itself. -/
structure Isolation (Stmt : Type → Type) (ε α κ Db Eff Key : Type) where
  body : κ → Program Stmt ε α
  blank : Eff
  apply : Eff → Db → Db
  claims : κ → List Key
  enter : κ → Db → Prop
  exec : {β : Type} → κ → Stmt β → View Db Eff Key → β → Eff → List Key → Prop
  elapse : Db → Db → Prop

namespace Isolation

variable {Stmt : Type → Type} {ε α κ Db Eff Key : Type}

/-- A transaction in progress. -/
structure Open (Stmt : Type → Type) (ε α κ Db Eff Key : Type) where
  call : κ
  rest : Program Stmt ε α
  began : Db
  snapshot : Db
  own : Eff
  keys : List Key

def Open.view (t : Open Stmt ε α κ Db Eff Key) (db : Db) : View Db Eff Key :=
  ⟨t.began, t.snapshot, db, t.own, t.keys⟩

structure State (Stmt : Type → Type) (ε α κ Db Eff Key : Type) where
  db : Db
  running : List (Open Stmt ε α κ Db Eff Key)

inductive Event (α κ : Type)
  | start (c : κ)
  | look (c : κ)
  | execute (c : κ)
  | commit (c : κ) (a : α)
  | abort (c : κ)
  | elapse

/-- Nobody else holds one of the locks. -/
def Free (keys : List Key) (others : List (Open Stmt ε α κ Db Eff Key)) : Prop :=
  ∀ key ∈ keys, ∀ t ∈ others, key ∉ t.keys

inductive Step (iso : Isolation Stmt ε α κ Db Eff Key) :
    State Stmt ε α κ Db Eff Key → Event α κ → State Stmt ε α κ Db Eff Key → Prop
  | start {db : Db} {running : List (Open Stmt ε α κ Db Eff Key)} (c : κ) (h : iso.enter c db)
      (hfree : Free (iso.claims c) running) :
      Step iso ⟨db, running⟩ (.start c)
        ⟨db, running ++ [⟨c, iso.body c, db, db, iso.blank, iso.claims c⟩]⟩
  | look {db : Db} {before after : List (Open Stmt ε α κ Db Eff Key)}
      (t : Open Stmt ε α κ Db Eff Key) :
      Step iso ⟨db, before ++ t :: after⟩ (.look t.call)
        ⟨db, before ++ { t with snapshot := db } :: after⟩
  | execute {db : Db} {before after : List (Open Stmt ε α κ Db Eff Key)} {c : κ} {β : Type}
      {r : Stmt β} {k : β → Program Stmt ε α} {began snapshot : Db} {own own' : Eff}
      {keys taken : List Key} {a : β}
      (h : iso.exec c r ⟨began, snapshot, db, own, keys⟩ a own' taken)
      (hfree : Free taken (before ++ after)) :
      Step iso ⟨db, before ++ ⟨c, .call r k, began, snapshot, own, keys⟩ :: after⟩ (.execute c)
        ⟨db, before ++ ⟨c, k a, began, db, own', taken ++ keys⟩ :: after⟩
  | commit {db : Db} {before after : List (Open Stmt ε α κ Db Eff Key)} {c : κ} {a : α}
      {began snapshot : Db} {own : Eff} {keys : List Key} :
      Step iso ⟨db, before ++ ⟨c, .done a, began, snapshot, own, keys⟩ :: after⟩ (.commit c a)
        ⟨iso.apply own db, before ++ after⟩
  | abort {db : Db} {before after : List (Open Stmt ε α κ Db Eff Key)}
      (t : Open Stmt ε α κ Db Eff Key) :
      Step iso ⟨db, before ++ t :: after⟩ (.abort t.call) ⟨db, before ++ after⟩
  | elapse {db db' : Db} {running : List (Open Stmt ε α κ Db Eff Key)} (h : iso.elapse db db') :
      Step iso ⟨db, running⟩ .elapse ⟨db', running⟩

/-! ### What is kept -/

/-- `inv` holds of what is committed, and `always` of what was and what is; a
`frame` is kept for the holder of a lock, and `own` by a transaction about what
it has written and locked. -/
structure Discipline (iso : Isolation Stmt ε α κ Db Eff Key) where
  inv : Db → Prop
  always : Db → Db → Prop
  frame : Key → Db → Db → Prop
  own : Eff → List Key → Prop
  refl : ∀ db, always db db
  trans : ∀ {db db' db''}, always db db' → always db' db'' → always db db''
  own_blank : ∀ c, own iso.blank (iso.claims c)
  own_exec : ∀ {β : Type} {c : κ} {r : Stmt β} {v : View Db Eff Key} {a : β} {own' : Eff}
    {taken : List Key}, own v.own v.keys → iso.exec c r v a own' taken → own own' (taken ++ v.keys)
  elapse : ∀ {db db'}, inv db → iso.elapse db db' →
    inv db' ∧ always db db' ∧ ∀ key, frame key db db'

namespace Discipline

variable {iso : Isolation Stmt ε α κ Db Eff Key} (d : Discipline iso)

/-- Others commit, or the next statement begins. -/
inductive Rely : View Db Eff Key → View Db Eff Key → Prop
  | others {began snapshot db db' : Db} {own : Eff} {keys : List Key} (hinv : d.inv db')
      (h : d.always db db') (hframe : ∀ key ∈ keys, d.frame key db db') :
      Rely ⟨began, snapshot, db, own, keys⟩ ⟨began, snapshot, db', own, keys⟩
  | look {began snapshot db : Db} {own : Eff} {keys : List Key} :
      Rely ⟨began, snapshot, db, own, keys⟩ ⟨began, db, db, own, keys⟩

/-- What every transaction knows. -/
structure Knows (v : View Db Eff Key) : Prop where
  inv : d.inv v.db
  own : d.own v.own v.keys
  began : d.always v.began v.snapshot
  since : d.always v.snapshot v.db

/-- A statement, as a request of its transaction. -/
def serve (c : κ) {β : Type} (r : Stmt β) (v : View Db Eff Key) (a : β) (v' : View Db Eff Key) :
    Prop :=
  d.Knows v ∧ ∃ own' taken, iso.exec c r v a own' taken ∧
    v' = ⟨v.began, v.db, v.db, own', taken ++ v.keys⟩

/-- What a transaction does from a point on. -/
abbrev Does (c : κ) (P : View Db Eff Key → Prop) {β : Type} (p : Program Stmt ε β)
    (Q : β → View Db Eff Key → Prop) : Prop :=
  Program.Triple (d.serve c) d.Rely (fun _ _ => True) P p Q

abbrev Stays (P : View Db Eff Key → Prop) : Prop := Program.Stable d.Rely P

/-- **The rule of statements.** -/
theorem does_request {c : κ} {P : View Db Eff Key → Prop} {β : Type} {r : Stmt β}
    {R : β → View Db Eff Key → Prop} (hstays : ∀ a, d.Stays (R a))
    (h : ∀ v a own' taken, P v → d.Knows v → iso.exec c r v a own' taken →
      R a ⟨v.began, v.db, v.db, own', taken ++ v.keys⟩) :
    d.Does c P (Program.request r : Program Stmt ε β) R := by
  refine Program.Triple.request hstays fun v a v' hP hserve => ⟨trivial, ?_⟩
  obtain ⟨hknows, own', taken, hexec, rfl⟩ := hserve
  exact h v a own' taken hP hknows hexec

theorem stays_of {P : View Db Eff Key → Prop}
    (hothers : ∀ v db', P v → d.inv db' → d.always v.db db' →
      (∀ key ∈ v.keys, d.frame key v.db db') → P { v with db := db' })
    (hlook : ∀ v, P v → P { v with snapshot := v.db }) : d.Stays P := by
  intro v v' hrely hP
  cases hrely with
  | others hinv halways hframe => exact hothers _ _ hP hinv halways hframe
  | look => exact hlook _ hP

/-- What each transaction starts from and ends with, and what its commit keeps. -/
structure Proved (pre : κ → View Db Eff Key → Prop) (post : κ → α → View Db Eff Key → Prop) :
    Prop where
  stays : ∀ c, d.Stays (pre c)
  begins : ∀ c db, d.inv db → iso.enter c db → pre c ⟨db, db, db, iso.blank, iso.claims c⟩
  body : ∀ c, d.Does c (pre c) (iso.body c) (post c)
  commits : ∀ c a v, d.Knows v → post c a v → d.inv (iso.apply v.own v.db) ∧
    d.always v.db (iso.apply v.own v.db) ∧
    ∀ key, key ∉ v.keys → d.frame key v.db (iso.apply v.own v.db)

/-- The transactions in progress hold different locks, and each stands at a point
of its program where what it relies on holds. -/
structure Sound (post : κ → α → View Db Eff Key → Prop) (σ : State Stmt ε α κ Db Eff Key) :
    Prop where
  inv : d.inv σ.db
  locks : σ.running.Pairwise fun t u => ∀ key ∈ t.keys, key ∉ u.keys
  point : ∀ t ∈ σ.running, d.Knows (t.view σ.db) ∧
    ∃ P, d.Stays P ∧ P (t.view σ.db) ∧ d.Does t.call P t.rest (post t.call)

variable {d} {pre : κ → View Db Eff Key → Prop} {post : κ → α → View Db Eff Key → Prop}
  {σ τ : State Stmt ε α κ Db Eff Key} {db db' : Db}
  {running before after : List (Open Stmt ε α κ Db Eff Key)} {t : Open Stmt ε α κ Db Eff Key}

/-- What is committed changes under the transactions in progress. -/
theorem Sound.change (h : d.Sound post ⟨db, running⟩) (hinv : d.inv db') (halways : d.always db db')
    (hframe : ∀ t ∈ running, ∀ key ∈ t.keys, d.frame key db db') : d.Sound post ⟨db', running⟩ := by
  refine ⟨hinv, h.locks, fun t ht => ?_⟩
  obtain ⟨hknows, P, hstays, hP, hrest⟩ := h.point t ht
  refine ⟨⟨hinv, hknows.own, hknows.began, d.trans hknows.since halways⟩, P, hstays, ?_, hrest⟩
  exact hstays _ _ (.others hinv halways (hframe t ht)) hP

/-- The other transactions of a state. -/
theorem Sound.others (h : d.Sound post ⟨db, before ++ t :: after⟩) :
    d.Sound post ⟨db, before ++ after⟩ := by
  refine ⟨h.inv, h.locks.sublist ?_, fun u hu => h.point u ?_⟩
  · exact (List.Sublist.refl before).append (List.sublist_cons_self t after)
  · exact List.mem_append.mpr ((List.mem_append.mp hu).imp_right (List.mem_cons_of_mem _))

/-- No other transaction holds a lock of this one. -/
theorem Sound.free (h : d.Sound post ⟨db, before ++ t :: after⟩) : Free t.keys (before ++ after) := by
  intro key hkey u hu
  obtain ⟨_, hafter, hacross⟩ := List.pairwise_append.mp h.locks
  rcases List.mem_append.mp hu with hu | hu
  · exact fun hmem => hacross u hu t List.mem_cons_self key hmem hkey
  · exact (List.pairwise_cons.mp hafter).1 u hu key hkey

/-- A transaction among others that hold none of its locks. -/
theorem Sound.insert (h : d.Sound post ⟨db, before ++ after⟩) (hfree : Free t.keys (before ++ after))
    (hknows : d.Knows (t.view db))
    (hpoint : ∃ P, d.Stays P ∧ P (t.view db) ∧ d.Does t.call P t.rest (post t.call)) :
    d.Sound post ⟨db, before ++ t :: after⟩ := by
  obtain ⟨hbefore, hafter, hacross⟩ := List.pairwise_append.mp h.locks
  refine ⟨h.inv, List.pairwise_append.mpr ⟨hbefore, List.pairwise_cons.mpr ⟨?_, hafter⟩, ?_⟩,
    fun u hu => ?_⟩
  · exact fun u hu key hkey => hfree key hkey u (List.mem_append_right _ hu)
  · intro u hu w hw key hkey hmem
    rcases List.mem_cons.mp hw with rfl | hw
    · exact hfree key hmem u (List.mem_append_left _ hu) hkey
    · exact hacross u hu w hw key hkey hmem
  · rcases List.mem_append.mp hu with hu | hu
    · exact h.point u (List.mem_append_left _ hu)
    · rcases List.mem_cons.mp hu with rfl | hu
      · exact ⟨hknows, hpoint⟩
      · exact h.point u (List.mem_append_right _ hu)

/-- How a step changes what is committed. -/
inductive Changes (d : Discipline iso) (post : κ → α → View Db Eff Key → Prop)
    (σ τ : State Stmt ε α κ Db Eff Key) : Event α κ → Prop
  | commit {c : κ} {a : α} (t : Open Stmt ε α κ Db Eff Key) (ht : t ∈ σ.running)
      (hcall : t.call = c) (hpost : post c a (t.view σ.db)) (hknows : d.Knows (t.view σ.db))
      (hdb : τ.db = iso.apply t.own σ.db) : Changes d post σ τ (.commit c a)
  | other {e : Event α κ} (he : ∀ c a, e ≠ .commit c a)
      (hdb : τ.db = σ.db ∨ iso.elapse σ.db τ.db) : Changes d post σ τ e

/-- **One step** keeps what is promised; a commit has reached the end of its
program. -/
theorem Sound.step (hproved : d.Proved pre post) {e : Event α κ} (hσ : d.Sound post σ)
    (h : Step iso σ e τ) : d.Sound post τ ∧ d.always σ.db τ.db ∧ Changes d post σ τ e := by
  cases h with
  | @start db running c h hfree =>
    refine ⟨?_, d.refl db, .other (fun _ _ h => nomatch h) (Or.inl rfl)⟩
    have hall : d.Sound post ⟨db, running ++ []⟩ := by
      rw [List.append_nil]
      exact hσ
    refine hall.insert ?_ ⟨hσ.inv, d.own_blank c, d.refl db, d.refl db⟩
      ⟨pre c, hproved.stays c, hproved.begins c db hσ.inv h, hproved.body c⟩
    rw [List.append_nil]
    exact hfree
  | @look db before after t =>
    refine ⟨?_, d.refl db, .other (fun _ _ h => nomatch h) (Or.inl rfl)⟩
    obtain ⟨hknows, P, hstays, hP, hrest⟩ := hσ.point t (List.mem_append_right _ List.mem_cons_self)
    exact hσ.others.insert hσ.free
      ⟨hknows.inv, hknows.own, d.trans hknows.began hknows.since, d.refl db⟩
      ⟨P, hstays, hstays _ _ .look hP, hrest⟩
  | @execute db before after c β r k began snapshot own own' keys taken a h hfree =>
    refine ⟨?_, d.refl db, .other (fun _ _ h => nomatch h) (Or.inl rfl)⟩
    obtain ⟨hknows, P, hstays, hP, R, hR, hserve, hrest⟩ :=
      hσ.point _ (List.mem_append_right _ List.mem_cons_self)
    refine hσ.others.insert (fun key hkey u hu => ?_) ⟨hknows.inv, d.own_exec hknows.own h,
      d.trans hknows.began hknows.since, d.refl db⟩ ⟨R a, hR a, ?_, hrest a⟩
    · rcases List.mem_append.mp hkey with hkey | hkey
      · exact hfree key hkey u hu
      · exact hσ.free key hkey u hu
    · exact (hserve _ a _ hP ⟨hknows, own', taken, h, rfl⟩).2
  | @commit db before after c a began snapshot own keys =>
    have hmem := List.mem_append_right before
      (List.mem_cons_self (a := (⟨c, .done a, began, snapshot, own, keys⟩ :
        Open Stmt ε α κ Db Eff Key)) (l := after))
    obtain ⟨hknows, P, _, hP, hrest⟩ := hσ.point _ hmem
    have hpost : post c a ⟨began, snapshot, db, own, keys⟩ := hrest _ hP
    obtain ⟨hinv, halways, hframe⟩ := hproved.commits c a _ hknows hpost
    refine ⟨hσ.others.change hinv halways fun u hu key hkey => hframe key fun hmine => ?_, halways,
      .commit _ hmem rfl hpost hknows rfl⟩
    exact hσ.free key hmine u hu hkey
  | @abort db before after t =>
    exact ⟨hσ.others, d.refl db, .other (fun _ _ h => nomatch h) (Or.inl rfl)⟩
  | @elapse db db' running h =>
    obtain ⟨hinv, halways, hframe⟩ := d.elapse hσ.inv h
    exact ⟨hσ.change hinv halways fun _ _ key _ => hframe key, halways,
      .other (fun _ _ h => nomatch h) (Or.inr h)⟩

theorem Sound.idle (hinv : d.inv σ.db) (hidle : σ.running = []) : d.Sound post σ := by
  refine ⟨hinv, ?_, fun t ht => ?_⟩
  · rw [hidle]
    exact List.Pairwise.nil
  · rw [hidle] at ht
    cases ht

/-- **Along every run** what is promised is kept. -/
theorem Sound.run (hproved : d.Proved pre post) (hσ : d.Sound post σ)
    {taken : List (State Stmt ε α κ Db Eff Key × Event α κ)}
    (hrun : Transition.Run (Step iso) σ taken τ) : d.Sound post τ ∧ d.always σ.db τ.db := by
  refine hrun.invariant (I := fun s => d.Sound post s ∧ d.always σ.db s.db) ?_ ⟨hσ, d.refl _⟩
  rintro s e t ⟨hs, halways⟩ hst
  obtain ⟨ht, hstep, _⟩ := hs.step hproved hst
  exact ⟨ht, d.trans halways hstep⟩

/-- What holds of a history, step by step. -/
theorem Sound.history (hproved : d.Proved pre post) (hσ : d.Sound post σ)
    {P : List (State Stmt ε α κ Db Eff Key × Event α κ) → State Stmt ε α κ Db Eff Key → Prop}
    (hstart : P [] σ) (hstep : ∀ taken s e t, d.inv s.db → P taken s → Changes d post s t e →
      P (taken ++ [(s, e)]) t) {taken : List (State Stmt ε α κ Db Eff Key × Event α κ)}
    (hrun : Transition.Run (Step iso) σ taken τ) : P taken τ := by
  induction hrun with
  | nil => exact hstart
  | snoc hbefore hst ih =>
    obtain ⟨hs, _⟩ := hσ.run hproved hbefore
    exact hstep _ _ _ _ hs.inv ih (hs.step hproved hst).2.2

/-- Where a transaction began. -/
theorem Step.began {e : Event α κ} (h : Step iso σ e τ) {u : Open Stmt ε α κ Db Eff Key}
    (hu : u ∈ τ.running) :
    u.began = σ.db ∨ ∃ t ∈ σ.running, t.call = u.call ∧ t.began = u.began := by
  have hothers : ∀ {before after : List (Open Stmt ε α κ Db Eff Key)} {t},
      u ∈ before ++ after → ∃ w ∈ before ++ t :: after, w.call = u.call ∧ w.began = u.began :=
    fun hu => ⟨u, List.mem_append.mpr ((List.mem_append.mp hu).imp_right (List.mem_cons_of_mem _)),
      rfl, rfl⟩
  have hnext : ∀ {before after : List (Open Stmt ε α κ Db Eff Key)} {t t'},
      t.call = t'.call → t.began = t'.began → u ∈ before ++ t' :: after →
      ∃ w ∈ before ++ t :: after, w.call = u.call ∧ w.began = u.began := by
    intro before after t t' hcall hbegan hu
    rcases List.mem_append.mp hu with hu | hu
    · exact hothers (List.mem_append_left _ hu)
    · rcases List.mem_cons.mp hu with rfl | hu
      · exact ⟨t, List.mem_append_right _ List.mem_cons_self, hcall, hbegan⟩
      · exact hothers (List.mem_append_right _ hu)
  cases h with
  | start c h hfree =>
    rcases List.mem_append.mp hu with hu | hu
    · exact Or.inr ⟨u, hu, rfl, rfl⟩
    · rw [List.mem_singleton.mp hu]
      exact Or.inl rfl
  | look t => refine Or.inr (hnext ?_ ?_ hu) <;> rfl
  | execute h hfree => refine Or.inr (hnext ?_ ?_ hu) <;> rfl
  | commit => exact Or.inr (hothers hu)
  | abort t => exact Or.inr (hothers hu)
  | elapse h => exact Or.inr ⟨u, hu, rfl, rfl⟩

/-- A call that was not in progress then has begun since. -/
theorem Sound.since (hproved : d.Proved pre post) (hσ : d.Sound post σ)
    {taken : List (State Stmt ε α κ Db Eff Key × Event α κ)}
    (hrun : Transition.Run (Step iso) σ taken τ) : ∀ u ∈ τ.running,
      (∀ t ∈ σ.running, t.call ≠ u.call) → d.always σ.db u.began := by
  induction hrun with
  | nil => exact fun u hu hnew => absurd rfl (hnew u hu)
  | snoc hbefore hst ih =>
    intro u hu hnew
    rcases Step.began hst hu with heq | ⟨t, ht, hcall, hbegan⟩
    · rw [heq]
      exact (hσ.run hproved hbefore).2
    · rw [← hbegan]
      exact ih t ht fun w hw hsame => hnew w hw (hsame.trans hcall)

end Discipline

/-! ### A transaction alone -/

section Alone
variable (iso : Isolation Stmt ε α κ Db Eff Key) (c : κ) (db : Db)

/-- The rest of a transaction that nobody interferes with: what it answers and has
written in the end. -/
inductive Ends : Program Stmt ε α → Eff → List Key → α → Eff → Prop
  | done {a : α} {own : Eff} {keys : List Key} : Ends (.done a) own keys a own
  | call {β : Type} {r : Stmt β} {k : β → Program Stmt ε α} {own own' final : Eff}
      {keys taken : List Key} {b : β} {a : α} (h : iso.exec c r ⟨db, db, db, own, keys⟩ b own' taken)
      (hrest : Ends (k b) own' (taken ++ keys) a final) : Ends (.call r k) own keys a final

/-- Some statements of a transaction that nobody interferes with: the rest of it, and
what it has written and locked. -/
inductive Reaches : Program Stmt ε α → Eff → List Key → Program Stmt ε α → Eff → List Key → Prop
  | refl {p : Program Stmt ε α} {own : Eff} {keys : List Key} : Reaches p own keys p own keys
  | call {β : Type} {r : Stmt β} {k : β → Program Stmt ε α} {p : Program Stmt ε α}
      {own own' final : Eff} {keys taken keys' : List Key} {b : β}
      (h : iso.exec c r ⟨db, db, db, own, keys⟩ b own' taken)
      (hrest : Reaches (k b) own' (taken ++ keys) p final keys') :
      Reaches (.call r k) own keys p final keys'

variable {iso c db} {p : Program Stmt ε α} {own final : Eff} {keys : List Key}

theorem Ends.reaches {a : α} (h : Ends iso c db p own keys a final) :
    ∃ keys', Reaches iso c db p own keys (.done a) final keys' := by
  induction h with
  | done => exact ⟨_, .refl⟩
  | call h _ ih =>
    obtain ⟨keys', hreaches⟩ := ih
    exact ⟨keys', .call h hreaches⟩

/-- A transaction begins and makes some statements. -/
theorem run_of_reaches (henter : iso.enter c db)
    (h : Reaches iso c db (iso.body c) iso.blank (iso.claims c) p own keys) :
    ∃ taken, Transition.Run (Step iso) ⟨db, []⟩ taken ⟨db, [⟨c, p, db, db, own, keys⟩]⟩ ∧
      ∀ x ∈ taken, x.2 = .start c ∨ x.2 = .execute c := by
  have hrest : ∀ {p p' : Program Stmt ε α} {own final : Eff} {keys keys' : List Key},
      Reaches iso c db p own keys p' final keys' → ∃ taken, Transition.Run (Step iso)
        ⟨db, [⟨c, p, db, db, own, keys⟩]⟩ taken ⟨db, [⟨c, p', db, db, final, keys'⟩]⟩ ∧
        ∀ x ∈ taken, x.2 = .execute c := by
    intro p p' own final keys keys' h
    induction h with
    | refl => exact ⟨[], .nil, fun _ hx => nomatch hx⟩
    | @call β r k p own own' final keys more keys' b h _ ih =>
      obtain ⟨taken, hrun, hevents⟩ := ih
      have hexecute : Step iso ⟨db, [] ++ ⟨c, .call r k, db, db, own, keys⟩ :: []⟩ (.execute c)
          ⟨db, [] ++ ⟨c, k b, db, db, own', more ++ keys⟩ :: []⟩ :=
        .execute h fun _ _ _ hu => nomatch hu
      refine ⟨_ :: taken, (Transition.Run.single hexecute).trans hrun, fun x hx => ?_⟩
      rcases List.mem_cons.mp hx with rfl | hx
      · rfl
      · exact hevents x hx
  obtain ⟨taken, hrun, hevents⟩ := hrest h
  have hstart : Step iso ⟨db, []⟩ (.start c) ⟨db, [] ++ [⟨c, iso.body c, db, db, iso.blank,
      iso.claims c⟩]⟩ := .start c henter fun _ _ _ hu => nomatch hu
  refine ⟨_ :: taken, (Transition.Run.single hstart).trans hrun, fun x hx => ?_⟩
  rcases List.mem_cons.mp hx with rfl | hx
  · exact Or.inl rfl
  · exact Or.inr (hevents x hx)

theorem run_of_ends {a : α} (henter : iso.enter c db)
    (h : Ends iso c db (iso.body c) iso.blank (iso.claims c) a final) :
    ∃ taken s, Transition.Run (Step iso) ⟨db, []⟩ (taken ++ [(s, .commit c a)])
      ⟨iso.apply final db, []⟩ := by
  obtain ⟨keys', hreaches⟩ := h.reaches
  obtain ⟨taken, hrun, _⟩ := run_of_reaches henter hreaches
  have hcommit : Step iso ⟨db, [] ++ ⟨c, .done a, db, db, final, keys'⟩ :: []⟩ (.commit c a)
      ⟨iso.apply final db, [] ++ []⟩ := .commit
  exact ⟨taken, _, hrun.trans (.single hcommit)⟩

/-- A transaction that fails leaves nothing. -/
theorem run_of_fails {e : ε} (henter : iso.enter c db)
    (h : Reaches iso c db (iso.body c) iso.blank (iso.claims c) (.fail e) own keys) :
    ∃ taken s, Transition.Run (Step iso) ⟨db, []⟩ (taken ++ [(s, .abort c)]) ⟨db, []⟩ ∧
      ∀ x ∈ taken ++ [(s, .abort c)], ∀ c' a, x.2 ≠ .commit c' a := by
  obtain ⟨taken, hrun, hevents⟩ := run_of_reaches henter h
  have habort : Step iso ⟨db, [] ++ ⟨c, .fail e, db, db, own, keys⟩ :: []⟩ (.abort c)
      ⟨db, [] ++ []⟩ := .abort _
  refine ⟨taken, _, hrun.trans (.single habort), fun x hx c' a heq => ?_⟩
  rcases List.mem_append.mp hx with hx | hx
  · rcases hevents x hx with hstart | hexecute
    · rw [hstart] at heq
      cases heq
    · rw [hexecute] at heq
      cases heq
  · rw [List.mem_singleton.mp hx] at heq
    cases heq

end Alone

end Isolation

import Mathlib.Data.Char
import Mathlib.Data.List.Lex
import Mathlib.Tactic.Common

/-!
# Compact JSON text

Values and their compact text: no white space, object members in the order
given, strings with the short escapes and `\u00xx` for the remaining control
characters.

* `render_inj`: two values with the same text are the same value.
-/

/-- A JSON value.  Numbers are integers. -/
inductive Json
  | null
  | bool (b : Bool)
  | num (n : Int)
  | str (s : List Char)
  | arr (items : List Json)
  | obj (members : List (List Char × Json))

namespace Json

/-! ### Strings -/

/-- The text of one character of a string. -/
def escape (c : Char) : List Char :=
  if c = '"' then ['\\', '"']
  else if c = '\\' then ['\\', '\\']
  else if c = '\n' then ['\\', 'n']
  else if c = '\r' then ['\\', 'r']
  else if c = '\t' then ['\\', 't']
  else if c = '\x08' then ['\\', 'b']
  else if c = '\x0c' then ['\\', 'f']
  else if c.toNat < 32 then
    ['\\', 'u', '0', '0', Nat.digitChar (c.toNat / 16), Nat.digitChar (c.toNat % 16)]
  else [c]

/-- What one escape sequence stands for, and the text after it. -/
def unescape : List Char → Option (Char × List Char)
  | '\\' :: '"' :: r => some ('"', r)
  | '\\' :: '\\' :: r => some ('\\', r)
  | '\\' :: 'n' :: r => some ('\n', r)
  | '\\' :: 'r' :: r => some ('\r', r)
  | '\\' :: 't' :: r => some ('\t', r)
  | '\\' :: 'b' :: r => some ('\x08', r)
  | '\\' :: 'f' :: r => some ('\x0c', r)
  | '\\' :: 'u' :: '0' :: '0' :: a :: b :: r =>
    ((List.range 32).find? fun n => Nat.digitChar (n / 16) = a ∧ Nat.digitChar (n % 16) = b).map
      fun n => (Char.ofNat n, r)
  | '"' :: _ => none
  | c :: r => some (c, r)
  | [] => none

theorem find_control : ∀ n < 32, (List.range 32).find? (fun m =>
    Nat.digitChar (m / 16) = Nat.digitChar (n / 16) ∧
      Nat.digitChar (m % 16) = Nat.digitChar (n % 16)) = some n := by
  decide

theorem unescape_escape (c : Char) (r : List Char) :
    unescape (escape c ++ r) = some (c, r) := by
  unfold escape
  split_ifs with hquote hslash _ _ _ _ _ hcontrol
  any_goals (subst_vars; rfl)
  · simp only [List.cons_append, List.nil_append, unescape, find_control _ hcontrol,
      Option.map_some, Char.ofNat_toNat]
  · rw [List.cons_append, List.nil_append, unescape.eq_def]
    split <;> simp_all

theorem escape_inj {c d : Char} {r r' : List Char} (h : escape c ++ r = escape d ++ r') :
    c = d ∧ r = r' := by
  have h' := congrArg unescape h
  rw [unescape_escape, unescape_escape, Option.some_inj, Prod.mk.injEq] at h'
  exact h'

theorem escape_ne_quote (c : Char) (r r' : List Char) : escape c ++ r ≠ '"' :: r' := by
  intro h
  have h' := congrArg unescape h
  rw [unescape_escape] at h'
  cases h'

/-- The text of a string, between its quotes. -/
def renderStr (s : List Char) : List Char := '"' :: (s.flatMap escape ++ ['"'])

theorem renderStr_inj {s s' r r' : List Char} (h : renderStr s ++ r = renderStr s' ++ r') :
    s = s' ∧ r = r' := by
  simp only [renderStr, List.cons_append, List.append_assoc, List.cons.injEq, true_and,
    List.nil_append] at h
  induction s generalizing s' with
  | nil =>
    cases s' with
    | nil =>
      simp only [List.flatMap_nil, List.nil_append, List.cons.injEq, true_and] at h
      exact ⟨rfl, h⟩
    | cons d s' =>
      rw [List.flatMap_nil, List.nil_append, List.flatMap_cons, List.append_assoc] at h
      exact absurd h.symm (escape_ne_quote _ _ _)
  | cons c s ih =>
    cases s' with
    | nil =>
      rw [List.flatMap_nil, List.nil_append, List.flatMap_cons, List.append_assoc] at h
      exact absurd h (escape_ne_quote _ _ _)
    | cons d s' =>
      rw [List.flatMap_cons, List.append_assoc, List.flatMap_cons, List.append_assoc] at h
      obtain ⟨rfl, h'⟩ := escape_inj h
      obtain ⟨rfl, hr⟩ := ih h'
      exact ⟨rfl, hr⟩

/-! ### Numbers -/

/-- The text of an integer. -/
def renderNum (n : Int) : List Char :=
  if n < 0 then '-' :: Nat.toDigits 10 n.natAbs else Nat.toDigits 10 n.natAbs

/-- The text after a value does not go on with a digit. -/
def Delimited (r : List Char) : Prop := ∀ c ∈ r.head?, c.isDigit = false

theorem takeWhile_isDigit {l r : List Char} (hl : ∀ c ∈ l, c.isDigit = true)
    (hr : Delimited r) :
    (l ++ r).takeWhile Char.isDigit = l ∧ (l ++ r).dropWhile Char.isDigit = r := by
  have hstop : r.takeWhile Char.isDigit = [] ∧ r.dropWhile Char.isDigit = r := by
    cases r with
    | nil => exact ⟨rfl, rfl⟩
    | cons c r =>
      have hc := hr c rfl
      exact ⟨List.takeWhile_cons_of_neg (by simp [hc]), List.dropWhile_cons_of_neg (by simp [hc])⟩
  rw [List.takeWhile_append_of_pos hl, List.dropWhile_append_of_pos hl, hstop.1, hstop.2,
    List.append_nil]
  exact ⟨rfl, rfl⟩

/-- A series of digits ends where the text goes on with another character. -/
theorem digits_append_inj {l l' r r' : List Char} (hr : Delimited r) (hr' : Delimited r')
    (hl : ∀ c ∈ l, c.isDigit = true) (hl' : ∀ c ∈ l', c.isDigit = true)
    (h : l ++ r = l' ++ r') : l = l' ∧ r = r' := by
  induction l generalizing l' with
  | nil =>
    cases l' with
    | nil => exact ⟨rfl, h⟩
    | cons c l' =>
      have hc := hr c (by rw [List.nil_append] at h; rw [h]; rfl)
      rw [hl' c List.mem_cons_self] at hc
      cases hc
  | cons c l ih =>
    cases l' with
    | nil =>
      have hc := hr' c (by rw [List.nil_append] at h; rw [← h]; rfl)
      rw [hl c List.mem_cons_self] at hc
      cases hc
    | cons d l' =>
      obtain ⟨rfl, htail⟩ := List.cons.inj h
      obtain ⟨rfl, hrest⟩ := ih (fun x hx => hl x (List.mem_cons_of_mem _ hx))
        (fun x hx => hl' x (List.mem_cons_of_mem _ hx)) htail
      exact ⟨rfl, hrest⟩

theorem digits_inj {a b : Nat} {r r' : List Char} (hr : Delimited r) (hr' : Delimited r')
    (h : Nat.toDigits 10 a ++ r = Nat.toDigits 10 b ++ r') : a = b ∧ r = r' := by
  have hdigits : ∀ n c, c ∈ Nat.toDigits 10 n → c.isDigit = true := fun n c hc =>
    Nat.isDigit_of_mem_toDigits (by decide) (by decide) hc
  obtain ⟨hsame, hrest⟩ := digits_append_inj hr hr' (hdigits a) (hdigits b) h
  have hvalue := congrArg (fun l => Nat.ofDigitChars 10 l 0) hsame
  exact ⟨by simpa [Nat.ofDigitChars_ten_toDigits] using hvalue, hrest⟩

theorem digits_head (n : Nat) : ∃ c l, Nat.toDigits 10 n = c :: l ∧ c.isDigit = true := by
  cases hn : Nat.toDigits 10 n with
  | nil => exact absurd hn Nat.toDigits_ne_nil
  | cons c l =>
    refine ⟨c, l, rfl, ?_⟩
    refine Nat.isDigit_of_mem_toDigits (b := 10) (n := n) (by decide) (by decide) ?_
    rw [hn]
    exact List.mem_cons_self

theorem renderNum_inj {m n : Int} {r r' : List Char} (hr : Delimited r) (hr' : Delimited r')
    (h : renderNum m ++ r = renderNum n ++ r') : m = n ∧ r = r' := by
  have hminus : ∀ (k : Nat) (x y : List Char), '-' :: x ≠ Nat.toDigits 10 k ++ y := by
    intro k x y he
    obtain ⟨c, l, hl, hc⟩ := digits_head k
    rw [hl, List.cons_append] at he
    rw [← (List.cons.inj he).1] at hc
    exact absurd hc (by decide)
  rw [renderNum, renderNum] at h
  split at h <;> split at h
  · obtain ⟨he, hrr⟩ := digits_inj hr hr' (List.cons.inj h).2
    exact ⟨by omega, hrr⟩
  · exact absurd h (hminus _ _ _)
  · exact absurd h.symm (hminus _ _ _)
  · obtain ⟨he, hrr⟩ := digits_inj hr hr' h
    exact ⟨by omega, hrr⟩

/-! ### Values -/

mutual
/-- The compact text of a value. -/
def render : Json → List Char
  | null => ['n', 'u', 'l', 'l']
  | bool true => ['t', 'r', 'u', 'e']
  | bool false => ['f', 'a', 'l', 's', 'e']
  | num n => renderNum n
  | str s => renderStr s
  | arr [] => ['[', ']']
  | arr (v :: rest) => '[' :: (render v ++ renderItems rest)
  | obj [] => ['{', '}']
  | obj ((k, v) :: rest) => '{' :: (renderStr k ++ ':' :: (render v ++ renderMembers rest))

/-- What follows the first item of an array. -/
def renderItems : List Json → List Char
  | [] => [']']
  | v :: rest => ',' :: (render v ++ renderItems rest)

/-- What follows the first member of an object. -/
def renderMembers : List (List Char × Json) → List Char
  | [] => ['}']
  | (k, v) :: rest => ',' :: (renderStr k ++ ':' :: (render v ++ renderMembers rest))
end

/-- What the first character of a text says about the value. -/
def shape : List Char → Nat
  | 'n' :: _ => 0
  | 't' :: _ => 1
  | 'f' :: _ => 2
  | '"' :: _ => 3
  | '[' :: _ => 4
  | '{' :: _ => 5
  | ']' :: _ => 7
  | _ => 6

theorem shape_digits (n : Nat) (r : List Char) : shape (Nat.toDigits 10 n ++ r) = 6 := by
  obtain ⟨c, l, hl, hc⟩ := digits_head n
  rw [hl, List.cons_append]
  unfold shape
  split <;> simp_all

theorem shape_renderNum (n : Int) (r : List Char) : shape (renderNum n ++ r) = 6 := by
  rw [renderNum]
  split
  · rfl
  · exact shape_digits _ _

theorem shape_render (v : Json) (r : List Char) : shape (render v ++ r) =
    match v with
    | null => 0
    | bool true => 1
    | bool false => 2
    | num _ => 6
    | str _ => 3
    | arr _ => 4
    | obj _ => 5 := by
  rcases v with _ | (_ | _) | n | _ | (_ | _) | (_ | _)
  case num => rw [render]; exact shape_renderNum n r
  all_goals (rw [render]; rfl)

theorem delimited_items (items : List Json) (r : List Char) :
    Delimited (renderItems items ++ r) := by
  intro c hc
  cases items <;> rw [renderItems] at hc <;> cases hc <;> rfl

theorem delimited_members (members : List (List Char × Json)) (r : List Char) :
    Delimited (renderMembers members ++ r) := by
  intro c hc
  rcases members with _ | ⟨⟨k, v⟩, rest⟩ <;> rw [renderMembers] at hc <;> cases hc <;> rfl

mutual
/-- A value's text tells the value and where the text ends. -/
theorem render_append_inj : ∀ {v w : Json} {r r' : List Char}, Delimited r → Delimited r' →
    render v ++ r = render w ++ r' → v = w ∧ r = r'
  | v, w, r, r', hr, hr', h => by
    have hs := congrArg shape h
    rw [shape_render, shape_render] at hs
    match v, w with
    | null, null =>
      rw [render] at h
      exact ⟨rfl, List.append_cancel_left h⟩
    | bool true, bool true =>
      rw [render] at h
      exact ⟨rfl, List.append_cancel_left h⟩
    | bool false, bool false =>
      rw [render] at h
      exact ⟨rfl, List.append_cancel_left h⟩
    | num m, num n =>
      rw [render, render] at h
      obtain ⟨rfl, hrr⟩ := renderNum_inj hr hr' h
      exact ⟨rfl, hrr⟩
    | str s, str s' =>
      rw [render, render] at h
      obtain ⟨rfl, hrr⟩ := renderStr_inj h
      exact ⟨rfl, hrr⟩
    | arr [], arr [] =>
      rw [render] at h
      exact ⟨rfl, List.append_cancel_left h⟩
    | arr [], arr (w :: ws) =>
      simp only [render, List.cons_append, List.append_assoc] at h
      have hw := congrArg shape (List.cons.inj h).2
      rw [shape_render] at hw
      split at hw <;> cases hw
    | arr (v :: vs), arr [] =>
      simp only [render, List.cons_append, List.append_assoc] at h
      have hv := congrArg shape (List.cons.inj h).2
      rw [shape_render] at hv
      split at hv <;> cases hv
    | arr (v :: vs), arr (w :: ws) =>
      rw [render, render, List.cons_append, List.cons_append, List.append_assoc,
        List.append_assoc] at h
      obtain ⟨rfl, h'⟩ := render_append_inj (delimited_items vs r) (delimited_items ws r')
        (List.cons.inj h).2
      obtain ⟨rfl, hrr⟩ := renderItems_inj hr hr' h'
      exact ⟨rfl, hrr⟩
    | obj [], obj [] =>
      rw [render] at h
      exact ⟨rfl, List.append_cancel_left h⟩
    | obj [], obj ((k, w) :: ws) =>
      rw [render, render] at h
      cases h
    | obj ((k, v) :: vs), obj [] =>
      rw [render, render] at h
      cases h
    | obj ((k, v) :: vs), obj ((k', w) :: ws) =>
      rw [render, render, List.cons_append, List.cons_append, List.append_assoc,
        List.append_assoc, List.cons_append, List.cons_append, List.append_assoc,
        List.append_assoc] at h
      obtain ⟨rfl, hk⟩ := renderStr_inj (List.cons.inj h).2
      obtain ⟨rfl, h'⟩ := render_append_inj (delimited_members vs r) (delimited_members ws r')
        (List.cons.inj hk).2
      obtain ⟨rfl, hrr⟩ := renderMembers_inj hr hr' h'
      exact ⟨rfl, hrr⟩

theorem renderItems_inj : ∀ {vs ws : List Json} {r r' : List Char}, Delimited r → Delimited r' →
    renderItems vs ++ r = renderItems ws ++ r' → vs = ws ∧ r = r'
  | [], [], r, r', _, _, h => by
    rw [renderItems] at h
    exact ⟨rfl, List.append_cancel_left h⟩
  | [], _ :: _, r, r', _, _, h => by
    rw [renderItems, renderItems] at h
    cases h
  | _ :: _, [], r, r', _, _, h => by
    rw [renderItems, renderItems] at h
    cases h
  | v :: vs, w :: ws, r, r', hr, hr', h => by
    rw [renderItems, renderItems, List.cons_append, List.cons_append, List.append_assoc,
      List.append_assoc] at h
    obtain ⟨rfl, h'⟩ := render_append_inj (delimited_items vs r) (delimited_items ws r')
      (List.cons.inj h).2
    obtain ⟨rfl, hrr⟩ := renderItems_inj hr hr' h'
    exact ⟨rfl, hrr⟩

theorem renderMembers_inj : ∀ {vs ws : List (List Char × Json)} {r r' : List Char},
    Delimited r → Delimited r' →
    renderMembers vs ++ r = renderMembers ws ++ r' → vs = ws ∧ r = r'
  | [], [], r, r', _, _, h => by
    rw [renderMembers] at h
    exact ⟨rfl, List.append_cancel_left h⟩
  | [], (_, _) :: _, r, r', _, _, h => by
    rw [renderMembers, renderMembers] at h
    cases h
  | (_, _) :: _, [], r, r', _, _, h => by
    rw [renderMembers, renderMembers] at h
    cases h
  | (k, v) :: vs, (k', w) :: ws, r, r', hr, hr', h => by
    rw [renderMembers, renderMembers, List.cons_append, List.cons_append, List.append_assoc,
      List.append_assoc, List.cons_append, List.cons_append, List.append_assoc,
      List.append_assoc] at h
    obtain ⟨rfl, hk⟩ := renderStr_inj (List.cons.inj h).2
    obtain ⟨rfl, h'⟩ := render_append_inj (delimited_members vs r) (delimited_members ws r')
      (List.cons.inj hk).2
    obtain ⟨rfl, hrr⟩ := renderMembers_inj hr hr' h'
    exact ⟨rfl, hrr⟩
end

/-- **Two values with the same text are the same value.** -/
theorem render_inj {v w : Json} (h : render v = render w) : v = w := by
  have hnil : Delimited [] := fun c hc => by cases hc
  have h' : render v ++ [] = render w ++ [] := by rw [h]
  exact (render_append_inj hnil hnil h').1

/-! ### Members by key -/

/-- A member put at its place, unless its key is taken. -/
def insertMember (m : List Char × Json) : List (List Char × Json) → List (List Char × Json)
  | [] => [m]
  | n :: rest =>
    if m.1 < n.1 then m :: n :: rest
    else if m.1 = n.1 then n :: rest
    else n :: insertMember m rest

mutual
/-- The members of every object in the order of their keys; of the members with
one key the last stays. -/
def sorted : Json → Json
  | null => null
  | bool b => bool b
  | num n => num n
  | str s => str s
  | arr items => arr (sortedItems items)
  | obj members => obj (sortedMembers members)

def sortedItems : List Json → List Json
  | [] => []
  | v :: rest => sorted v :: sortedItems rest

def sortedMembers : List (List Char × Json) → List (List Char × Json)
  | [] => []
  | (k, v) :: rest => insertMember (k, sorted v) (sortedMembers rest)
end

@[simp] theorem sortedItems_eq_map (items : List Json) : sortedItems items = items.map sorted := by
  induction items with
  | nil => rfl
  | cons v rest ih => rw [sortedItems, ih, List.map_cons]

/-- The keys rise strictly. -/
def Ordered (members : List (List Char × Json)) : Prop :=
  members.Pairwise fun m n => m.1 < n.1

theorem mem_insertMember {m n : List Char × Json} {members : List (List Char × Json)}
    (h : n ∈ insertMember m members) : n = m ∨ n ∈ members := by
  induction members with
  | nil => exact Or.inl (List.mem_singleton.mp h)
  | cons a rest ih =>
    rw [insertMember] at h
    split_ifs at h with hlt heq
    · exact List.mem_cons.mp h
    · exact Or.inr h
    · rcases List.mem_cons.mp h with rfl | h'
      · exact Or.inr List.mem_cons_self
      · exact (ih h').imp_right (List.mem_cons_of_mem a)

theorem Ordered.insertMember {members : List (List Char × Json)} (h : Ordered members)
    (m : List Char × Json) : Ordered (insertMember m members) := by
  induction members with
  | nil => exact List.pairwise_singleton _ _
  | cons a rest ih =>
    obtain ⟨ha, hrest⟩ := List.pairwise_cons.mp h
    rw [Json.insertMember]
    split_ifs with hlt heq
    · refine List.pairwise_cons.mpr ⟨fun n hn => ?_, h⟩
      rcases List.mem_cons.mp hn with rfl | hn'
      · exact hlt
      · exact lt_trans hlt (ha n hn')
    · exact h
    · refine List.pairwise_cons.mpr ⟨fun n hn => ?_, ih hrest⟩
      rcases mem_insertMember hn with rfl | hn'
      · exact lt_of_le_of_ne (not_lt.mp hlt) (Ne.symm heq)
      · exact ha n hn'

theorem ordered_sortedMembers (members : List (List Char × Json)) :
    Ordered (sortedMembers members) := by
  induction members with
  | nil => exact List.Pairwise.nil
  | cons m rest ih => exact ih.insertMember _

/-- A member goes before a list whose keys are all larger. -/
theorem insertMember_of_lt {m : List Char × Json} {members : List (List Char × Json)}
    (h : ∀ n ∈ members, m.1 < n.1) : insertMember m members = m :: members := by
  cases members with
  | nil => rfl
  | cons n rest => rw [insertMember, if_pos (h n List.mem_cons_self)]

/-- Leaving members out by key before or after one more is inserted. -/
theorem filter_insertMember (p : List Char → Bool) (m : List Char × Json)
    {members : List (List Char × Json)} (h : Ordered members) :
    (insertMember m members).filter (fun n => p n.1) =
      if p m.1 then insertMember m (members.filter fun n => p n.1)
      else members.filter fun n => p n.1 := by
  induction members with
  | nil =>
    rw [insertMember, List.filter_cons]
    rfl
  | cons a rest ih =>
    obtain ⟨ha, hrest⟩ := List.pairwise_cons.mp h
    rw [insertMember]
    by_cases hlt : m.1 < a.1
    · rw [if_pos hlt, List.filter_cons]
      by_cases hp : p m.1 = true
      · rw [if_pos hp, if_pos hp, insertMember_of_lt]
        intro n hn
        rcases List.mem_cons.mp (List.mem_filter.mp hn).1 with rfl | hn'
        · exact hlt
        · exact lt_trans hlt (ha n hn')
      · rw [if_neg hp, if_neg hp]
    · rw [if_neg hlt]
      by_cases heq : m.1 = a.1
      · rw [if_pos heq, List.filter_cons]
        by_cases hp : p a.1 = true
        · rw [if_pos hp, heq, if_pos hp, insertMember, if_neg hlt, if_pos heq]
        · rw [if_neg hp, heq, if_neg hp]
      · rw [if_neg heq, List.filter_cons, List.filter_cons, ih hrest]
        by_cases hp : p m.1 = true
        · rw [if_pos hp, if_pos hp]
          by_cases hpa : p a.1 = true
          · rw [if_pos hpa, if_pos hpa, insertMember, if_neg hlt, if_neg heq]
          · rw [if_neg hpa, if_neg hpa]
        · rw [if_neg hp, if_neg hp]

theorem sortedMembers_filter (p : List Char → Bool) (members : List (List Char × Json)) :
    (sortedMembers members).filter (fun n => p n.1) =
      sortedMembers (members.filter fun n => p n.1) := by
  induction members with
  | nil => rfl
  | cons m rest ih =>
    rw [sortedMembers, filter_insertMember p _ (ordered_sortedMembers rest), ih, List.filter_cons]
    by_cases hp : p m.1 = true
    · rw [if_pos hp, if_pos hp, sortedMembers]
    · rw [if_neg hp, if_neg hp]

/-- Another value for a member, by its key. -/
def mapMember (f : List Char → Json → Json) (m : List Char × Json) : List Char × Json :=
  (m.1, f m.1 m.2)

theorem map_insertMember (f : List Char → Json → Json) (m : List Char × Json)
    (members : List (List Char × Json)) :
    (insertMember m members).map (mapMember f) =
      insertMember (mapMember f m) (members.map (mapMember f)) := by
  induction members with
  | nil => rfl
  | cons a rest ih =>
    have hkey : (mapMember f m).1 = m.1 ∧ (mapMember f a).1 = a.1 := ⟨rfl, rfl⟩
    rw [List.map_cons, insertMember, insertMember, hkey.1, hkey.2]
    by_cases hlt : m.1 < a.1
    · rw [if_pos hlt, if_pos hlt, List.map_cons, List.map_cons]
    · rw [if_neg hlt, if_neg hlt]
      by_cases heq : m.1 = a.1
      · rw [if_pos heq, if_pos heq, List.map_cons]
      · rw [if_neg heq, if_neg heq, List.map_cons, ih]

theorem sortedMembers_map {f : List Char → Json → Json} {members : List (List Char × Json)}
    (hf : ∀ m ∈ members, f m.1 m.2.sorted = (f m.1 m.2).sorted) :
    (sortedMembers members).map (mapMember f) = sortedMembers (members.map (mapMember f)) := by
  induction members with
  | nil => rfl
  | cons m rest ih =>
    have hm := hf m List.mem_cons_self
    rw [sortedMembers, map_insertMember, ih fun n hn => hf n (List.mem_cons_of_mem m hn),
      List.map_cons]
    show insertMember (m.1, f m.1 m.2.sorted) _ = sortedMembers ((m.1, f m.1 m.2) :: _)
    rw [hm, sortedMembers]

end Json

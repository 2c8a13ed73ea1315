import Mathlib.Data.Nat.Digits.Defs
import Mathlib.Data.String.Basic
import SrgGrading.Library.Json

/-!
# How long a JSON text is

The bytes of a compact text in UTF-8, from those of its parts.

* `size_obj_le`, `le_size_obj`: an object is as long as its members.
* `strSize_le`, `strSize_of_printable`: escaping takes at most six bytes for one,
  and two where there is no control character.
-/

namespace Json

/-- The bytes of the text of a string. -/
def strSize (s : List Char) : Nat := String.utf8Len (renderStr s)

/-- The bytes of the text of a value. -/
def size (v : Json) : Nat := String.utf8Len (render v)

/-- Members with their separators. -/
def membersSize (members : List (List Char × Json)) : Nat :=
  (members.map fun m => strSize m.1 + size m.2 + 2).sum

/-- Items with their separators. -/
def itemsSize (items : List Json) : Nat := (items.map fun v => size v + 1).sum

@[simp] theorem membersSize_nil : membersSize [] = 0 := rfl

@[simp] theorem membersSize_cons (m : List Char × Json) (rest : List (List Char × Json)) :
    membersSize (m :: rest) = strSize m.1 + size m.2 + 2 + membersSize rest := by
  rw [membersSize, List.map_cons, List.sum_cons, membersSize]

@[simp] theorem membersSize_append (a b : List (List Char × Json)) :
    membersSize (a ++ b) = membersSize a + membersSize b := by
  rw [membersSize, List.map_append, List.sum_append, membersSize, membersSize]

@[simp] theorem itemsSize_cons (v : Json) (rest : List Json) :
    itemsSize (v :: rest) = size v + 1 + itemsSize rest := by
  rw [itemsSize, List.map_cons, List.sum_cons, itemsSize]

/-! ### Strings -/

theorem utf8Len_renderStr (s : List Char) :
    strSize s = String.utf8Len (s.flatMap escape) + 2 := by
  rw [strSize, renderStr, String.utf8Len_cons, String.utf8Len_append]
  rfl

theorem utf8Len_escape (c : Char) : String.utf8Len (escape c) ≤ 6 * c.utf8Size := by
  have hpos := c.utf8Size_pos
  have hdigit : ∀ n < 16, (Nat.digitChar n).utf8Size = 1 := by decide
  have hshort : ∀ d : Char, d.utf8Size = 1 → String.utf8Len ['\\', d] ≤ 6 * c.utf8Size := by
    intro d hd
    have hslash : ('\\' : Char).utf8Size = 1 := by decide
    rw [String.utf8Len_cons, String.utf8Len_cons, String.utf8Len_nil, hd, hslash]
    omega
  unfold escape
  split_ifs with _ _ _ _ _ _ _ hcontrol
  any_goals exact hshort _ (by decide)
  · have hfixed : String.utf8Len ['\\', 'u', '0', '0'] = 4 := by decide
    have htext : ['\\', 'u', '0', '0', Nat.digitChar (c.toNat / 16), Nat.digitChar (c.toNat % 16)] =
        ['\\', 'u', '0', '0'] ++
          [Nat.digitChar (c.toNat / 16), Nat.digitChar (c.toNat % 16)] := rfl
    rw [htext, String.utf8Len_append, hfixed, String.utf8Len_cons, String.utf8Len_cons,
      String.utf8Len_nil, hdigit _ (by omega), hdigit _ (by omega)]
    omega
  · rw [String.utf8Len_cons, String.utf8Len_nil]
    omega

theorem utf8Len_escape_of_printable {c : Char} (h : 32 ≤ c.toNat) :
    String.utf8Len (escape c) ≤ 2 * c.utf8Size := by
  have hpos := c.utf8Size_pos
  have hne : ∀ d : Char, d.toNat < 32 → c ≠ d := by
    rintro d hd rfl
    exact absurd h (by omega)
  unfold escape
  rw [if_neg (hne '\n' (by decide)), if_neg (hne '\r' (by decide)),
    if_neg (hne '\t' (by decide)), if_neg (hne '\x08' (by decide)),
    if_neg (hne '\x0c' (by decide)), if_neg (Nat.not_lt.mpr h)]
  split_ifs with hquote hslash
  · rw [hquote]
    decide
  · rw [hslash]
    decide
  · rw [String.utf8Len_cons, String.utf8Len_nil]
    omega

/-- A bound on every character bounds the text. -/
theorem utf8Len_flatMap_le {n : Nat} {s : List Char}
    (h : ∀ c ∈ s, String.utf8Len (escape c) ≤ n * c.utf8Size) :
    String.utf8Len (s.flatMap escape) ≤ n * String.utf8Len s := by
  induction s with
  | nil => exact Nat.zero_le _
  | cons c s ih =>
    obtain ⟨hc, hs⟩ := List.forall_mem_cons.mp h
    have hrest := ih hs
    rw [List.flatMap_cons, String.utf8Len_append, String.utf8Len_cons, Nat.mul_add]
    omega

/-- **Escaping takes at most six bytes for one.** -/
theorem strSize_le (s : List Char) : strSize s ≤ 6 * String.utf8Len s + 2 := by
  rw [utf8Len_renderStr]
  exact Nat.add_le_add_right (utf8Len_flatMap_le fun c _ => utf8Len_escape c) 2

/-- Escaping leaves nothing out. -/
theorem le_strSize (s : List Char) : String.utf8Len s + 2 ≤ strSize s := by
  have hchar : ∀ c : Char, c.utf8Size ≤ String.utf8Len (escape c) := by
    intro c
    unfold escape
    split_ifs with _ _ _ _ _ _ _ hcontrol
    any_goals (subst_vars; decide)
    · have hone : c.utf8Size = 1 := by
        rw [Char.utf8Size, if_pos]
        exact le_trans (Nat.le_of_lt hcontrol) (by decide)
      have hslash := ('\\' : Char).utf8Size_pos
      rw [String.utf8Len_cons]
      omega
    · rw [String.utf8Len_cons, String.utf8Len_nil]
      omega
  rw [utf8Len_renderStr]
  refine Nat.add_le_add_right ?_ 2
  induction s with
  | nil => exact le_refl _
  | cons c s ih =>
    have hc := hchar c
    rw [List.flatMap_cons, String.utf8Len_append, String.utf8Len_cons]
    omega

/-- **Without control characters, two bytes for one.** -/
theorem strSize_of_printable {s : List Char} (h : ∀ c ∈ s, 32 ≤ c.toNat) :
    strSize s ≤ 2 * String.utf8Len s + 2 := by
  rw [utf8Len_renderStr]
  exact Nat.add_le_add_right
    (utf8Len_flatMap_le fun c hc => utf8Len_escape_of_printable (h c hc)) 2

/-- Characters that stand for themselves. -/
theorem strSize_of_plain {s : List Char} (h : ∀ c ∈ s, escape c = [c]) :
    strSize s = String.utf8Len s + 2 := by
  have hflat : s.flatMap escape = s := by
    induction s with
    | nil => rfl
    | cons c s ih =>
      obtain ⟨hc, hs⟩ := List.forall_mem_cons.mp h
      rw [List.flatMap_cons, hc, ih hs]
      rfl
  rw [utf8Len_renderStr, hflat]

theorem utf8Len_le_length (s : List Char) : String.utf8Len s ≤ 4 * s.length := by
  induction s with
  | nil => exact Nat.zero_le _
  | cons c s ih =>
    have hc := c.utf8Size_le_four
    rw [String.utf8Len_cons, List.length_cons]
    omega

theorem strSize_le_length (s : List Char) : strSize s ≤ 24 * s.length + 2 := by
  have h := strSize_le s
  have hlen := utf8Len_le_length s
  omega

/-! ### Values -/

theorem size_str (s : List Char) : size (str s) = strSize s := by
  rw [size, render, strSize]

theorem size_bool (b : Bool) : size (bool b) ≤ 5 := by
  cases b <;> decide

/-- A number with few digits is short. -/
theorem size_num {n : Int} {k : Nat} (hpos : 0 < k) (h : n.natAbs < 10 ^ k) :
    size (num n) ≤ 4 * (k + 1) := by
  have hdigits := Nat.toDigits_length 10 n.natAbs k hpos h
  have hlen : (renderNum n).length ≤ k + 1 := by
    rw [renderNum]
    split
    · rw [List.length_cons]
      omega
    · omega
  have hbytes := utf8Len_le_length (renderNum n)
  rw [size, render]
  omega

theorem utf8Len_renderMembers (members : List (List Char × Json)) :
    String.utf8Len (renderMembers members) = membersSize members + 1 := by
  induction members with
  | nil => rfl
  | cons m rest ih =>
    obtain ⟨k, v⟩ := m
    have hcomma : (',' : Char).utf8Size = 1 := by decide
    have hcolon : (':' : Char).utf8Size = 1 := by decide
    rw [renderMembers, String.utf8Len_cons, String.utf8Len_append, String.utf8Len_cons,
      String.utf8Len_append, ih, membersSize_cons, hcomma, hcolon, strSize, size]
    dsimp only
    omega

theorem utf8Len_renderItems (items : List Json) :
    String.utf8Len (renderItems items) = itemsSize items + 1 := by
  induction items with
  | nil => rfl
  | cons v rest ih =>
    have hcomma : (',' : Char).utf8Size = 1 := by decide
    rw [renderItems, String.utf8Len_cons, String.utf8Len_append, ih, itemsSize_cons, hcomma, size]
    omega

theorem size_obj_cons (m : List Char × Json) (rest : List (List Char × Json)) :
    size (obj (m :: rest)) = membersSize (m :: rest) + 1 := by
  obtain ⟨k, v⟩ := m
  have hrest := utf8Len_renderMembers rest
  have hbrace : ('\x7b' : Char).utf8Size = 1 := by decide
  have hcolon : (':' : Char).utf8Size = 1 := by decide
  rw [size, render, String.utf8Len_cons, String.utf8Len_append, String.utf8Len_cons,
    String.utf8Len_append, hrest, membersSize_cons, hbrace, hcolon, strSize, size]
  dsimp only
  omega

/-- **An object is not longer than its members.** -/
theorem size_obj_le (members : List (List Char × Json)) :
    size (obj members) ≤ membersSize members + 2 := by
  cases members with
  | nil => decide
  | cons m rest =>
    rw [size_obj_cons]
    omega

/-- And not shorter. -/
theorem le_size_obj (members : List (List Char × Json)) :
    membersSize members + 1 ≤ size (obj members) := by
  cases members with
  | nil => decide
  | cons m rest => rw [size_obj_cons]

theorem size_arr_le (items : List Json) : size (arr items) ≤ itemsSize items + 2 := by
  cases items with
  | nil => decide
  | cons v rest =>
    have hrest := utf8Len_renderItems rest
    have hbracket : ('[' : Char).utf8Size = 1 := by decide
    rw [size, render, String.utf8Len_cons, String.utf8Len_append, hrest, itemsSize_cons, hbracket, size]
    omega

end Json

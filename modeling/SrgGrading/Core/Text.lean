import Mathlib.Data.String.Basic
import Mathlib.Tactic.Common
import SrgGrading.Library.Fallible

/-!
# Strings, hexadecimal text and errors

The string operations of the source on `String`: lengths are lengths in UTF-8
bytes, and a pattern matches characters.  `Error` is what the fallible
functions stop with: a message of their own, or what a library or the database
refuses.

* `hex_inj`: hexadecimal text of a fixed width tells the number.
* `mem_parents`: the directories a path lies in.
-/

open Fallible

namespace Grading

/-- Why a function stopped. -/
inductive Error
  | message (text : String)
  | base64
  | json
  | rowNotFound
  | uniqueViolation
  | foreignKeyViolation
  | checkViolation
  | outOfRange
  deriving DecidableEq

/-- `ensure!(b, text)`. -/
def check (b : Bool) (text : String) : Except Error Unit := ensure b (.message text)

@[simp] theorem check_ok {b : Bool} {text : String} {u : Unit} :
    check b text = .ok u ↔ b = true := ensure_ok

namespace Text

/-! ### Characters -/

/-- `char::is_control`: the general category Cc. -/
def isControl (c : Char) : Bool := c.toNat < 0x20 || (0x7f ≤ c.toNat && c.toNat < 0xa0)

/-- `char::is_whitespace`: the property White_Space. -/
def isWhitespace (c : Char) : Bool :=
  (0x9 ≤ c.toNat && c.toNat ≤ 0xd) ||
    [0x20, 0x85, 0xa0, 0x1680, 0x2028, 0x2029, 0x202f, 0x205f, 0x3000].contains c.toNat ||
    (0x2000 ≤ c.toNat && c.toNat ≤ 0x200a)

def isAsciiDigit (c : Char) : Bool := 0x30 ≤ c.toNat && c.toNat ≤ 0x39
def isAsciiLowercase (c : Char) : Bool := 0x61 ≤ c.toNat && c.toNat ≤ 0x7a
def isAsciiUppercase (c : Char) : Bool := 0x41 ≤ c.toNat && c.toNat ≤ 0x5a

def isAsciiAlphanumeric (c : Char) : Bool :=
  isAsciiDigit c || isAsciiLowercase c || isAsciiUppercase c

def toAsciiLowercase (c : Char) : Char :=
  if isAsciiUppercase c then Char.ofNat (c.toNat + 0x20) else c

/-! ### Strings -/

/-- `str::len`, in bytes. -/
def len (s : String) : Nat := s.utf8ByteSize

/-- `s.trim().is_empty()`. -/
def blank (s : String) : Bool := s.toList.all isWhitespace

def contains (s : String) (c : Char) : Bool := s.toList.contains c

def startsWith (s start : String) : Bool := start.toList.isPrefixOf s.toList

def endsWith (s : String) (c : Char) : Bool := s.toList.getLast? = some c

def trimEndMatches (s : String) (c : Char) : String :=
  String.ofList (s.toList.reverse.dropWhile (· = c)).reverse

def split (s : String) (c : Char) : List String := (s.toList.splitOn c).map String.ofList

def eqIgnoreAsciiCase (a b : String) : Bool :=
  a.toList.map toAsciiLowercase = b.toList.map toAsciiLowercase

/-- `str::strip_prefix`. -/
def stripStart (s start : String) : Option String :=
  if startsWith s start then some (String.ofList (s.toList.drop start.toList.length)) else none

/-- The text before the first `sep` and the text after it. -/
def cut (sep : List Char) : List Char → Option (List Char × List Char)
  | [] => if sep = [] then some ([], []) else none
  | c :: rest =>
    if sep.isPrefixOf (c :: rest) then some ([], (c :: rest).drop sep.length)
    else (cut sep rest).map fun p => (c :: p.1, p.2)

/-- `str::split_once`. -/
def splitOnce (s sep : String) : Option (String × String) :=
  (cut sep.toList s.toList).map fun p => (String.ofList p.1, String.ofList p.2)

/-- What precedes each `'/'` of a path, the path being read backwards. -/
def parentsRev : List Char → List (List Char)
  | [] => []
  | c :: rest => if c = '/' then rest.reverse :: parentsRev rest else parentsRev rest

/-- What `rsplit_once('/')` yields on a path, on its result, and so on. -/
def parents (path : String) : List String :=
  (parentsRev path.toList.reverse).map String.ofList

/-! ### Hexadecimal text -/

/-- `n` in `width` lowercase hexadecimal digits. -/
def hex : Nat → Nat → List Char
  | 0, _ => []
  | width + 1, n => hex width (n / 16) ++ [Nat.digitChar (n % 16)]

/-- A digit of lowercase hexadecimal text. -/
def isHexDigit (c : Char) : Bool := isAsciiDigit c || (0x61 ≤ c.toNat && c.toNat ≤ 0x66)

/-- `security::valid_hex`. -/
def validHex (value : String) (n : Nat) : Bool := len value = n && value.toList.all isHexDigit

@[simp] theorem length_hex (width n : Nat) : (hex width n).length = width := by
  induction width generalizing n with
  | zero => rfl
  | succ width ih => rw [hex, List.length_append, ih]; rfl

theorem isHexDigit_digitChar : ∀ n < 16, isHexDigit (Nat.digitChar n) = true := by decide

theorem isHexDigit_hex (width n : Nat) : ∀ c ∈ hex width n, isHexDigit c = true := by
  induction width generalizing n with
  | zero => intro c hc; cases hc
  | succ width ih =>
    intro c hc
    rw [hex, List.mem_append, List.mem_singleton] at hc
    rcases hc with h1 | rfl
    · exact ih _ c h1
    · exact isHexDigit_digitChar _ (Nat.mod_lt _ (by decide))

theorem digitChar_inj : ∀ m < 16, ∀ n < 16, Nat.digitChar m = Nat.digitChar n → m = n := by
  decide

/-- **Hexadecimal text of a fixed width tells the number.** -/
theorem hex_inj {width m n : Nat} (hm : m < 16 ^ width) (hn : n < 16 ^ width)
    (h : hex width m = hex width n) : m = n := by
  induction width generalizing m n with
  | zero => omega
  | succ width ih =>
    rw [hex, hex] at h
    obtain ⟨hhigh, hlow⟩ := List.append_inj h (by rw [length_hex, length_hex])
    have hq : m / 16 = n / 16 := ih (by omega) (by omega) hhigh
    have hr : m % 16 = n % 16 :=
      digitChar_inj _ (Nat.mod_lt _ (by decide)) _ (Nat.mod_lt _ (by decide))
        (List.cons.inj hlow).1
    omega

theorem utf8Size_of_isHexDigit {c : Char} (h : isHexDigit c = true) : c.utf8Size = 1 := by
  have hc : c.toNat ≤ 0x7f := by
    simp only [isHexDigit, isAsciiDigit, Bool.or_eq_true, Bool.and_eq_true,
      decide_eq_true_eq] at h
    omega
  rw [Char.utf8Size, if_pos]
  exact hc

theorem len_ofList_of_ascii {l : List Char} (h : ∀ c ∈ l, c.utf8Size = 1) :
    len (String.ofList l) = l.length := by
  induction l with
  | nil => rfl
  | cons c l ih =>
    have ih' := ih fun d hd => h d (List.mem_cons_of_mem _ hd)
    rw [len] at ih' ⊢
    rw [String.utf8ByteSize_ofList] at ih' ⊢
    rw [List.length_cons, String.utf8Len_cons, ih', h c List.mem_cons_self]

theorem validHex_hex (width n : Nat) : validHex (String.ofList (hex width n)) width = true := by
  have hlen : len (String.ofList (hex width n)) = width := by
    rw [len_ofList_of_ascii fun c hc => utf8Size_of_isHexDigit (isHexDigit_hex _ _ c hc),
      length_hex]
  rw [validHex, hlen, String.toList_ofList, decide_eq_true rfl, Bool.true_and, List.all_eq_true]
  exact isHexDigit_hex width n

/-! ### Paths -/

/-- Two texts without `c`, each followed by nothing or a `c`. -/
theorem cut_inj {c : Char} {a b r r' : List Char} (ha : c ∉ a) (hb : c ∉ b)
    (hr : r = [] ∨ ∃ t, r = c :: t) (hr' : r' = [] ∨ ∃ t, r' = c :: t)
    (h : a ++ r = b ++ r') : a = b ∧ r = r' := by
  induction a generalizing b with
  | nil =>
    cases b with
    | nil => exact ⟨rfl, h⟩
    | cons d b =>
      rw [List.nil_append, List.cons_append] at h
      rcases hr with hr | ⟨t, hr⟩
      · rw [hr] at h
        cases h
      · rw [hr, List.cons.injEq] at h
        exact absurd (h.1 ▸ List.mem_cons_self) hb
  | cons d a ih =>
    cases b with
    | nil =>
      rw [List.nil_append, List.cons_append] at h
      rcases hr' with hr' | ⟨t, hr'⟩
      · rw [hr'] at h
        cases h
      · rw [hr', List.cons.injEq] at h
        exact absurd (h.1 ▸ List.mem_cons_self) ha
    | cons e b =>
      rw [List.cons_append, List.cons_append, List.cons.injEq] at h
      obtain ⟨hab, hrr⟩ := ih (fun hm => ha (List.mem_cons_of_mem _ hm))
        (fun hm => hb (List.mem_cons_of_mem _ hm)) h.2
      exact ⟨by rw [h.1, hab], hrr⟩

theorem mem_parentsRev {l m : List Char} : m.reverse ∈ parentsRev (l ++ '/' :: m) := by
  induction l with
  | nil => exact List.mem_cons_self
  | cons c l ih =>
    rw [List.cons_append, parentsRev]
    split
    · exact List.mem_cons_of_mem _ ih
    · exact ih

/-- **A path lies in what stands before each of its slashes.** -/
theorem mem_parents {path parent : String} {rest : List Char}
    (h : path.toList = parent.toList ++ '/' :: rest) : parent ∈ parents path := by
  refine List.mem_map.mpr ⟨parent.toList, ?_, String.ofList_toList⟩
  have hrev : path.toList.reverse = rest.reverse ++ '/' :: parent.toList.reverse := by
    rw [h, List.reverse_append, List.reverse_cons, List.append_assoc]
    rfl
  have hmem := mem_parentsRev (l := rest.reverse) (m := parent.toList.reverse)
  rw [List.reverse_reverse] at hmem
  rw [hrev]
  exact hmem

theorem split_ne_nil (s : String) (c : Char) : split s c ≠ [] := by
  rw [split, Ne, List.map_eq_nil_iff]
  exact List.splitOn_ne_nil c _

theorem toList_of_split (s : String) (c : Char) :
    s.toList = [c].intercalate ((split s c).map String.toList) := by
  rw [split, List.map_map]
  have hid : String.toList ∘ String.ofList = id := funext fun _ => String.toList_ofList
  rw [hid, List.map_id, List.intercalate_splitOn]

theorem intercalate_append (sep : List Char) {xs ys : List (List Char)} (hxs : xs ≠ [])
    (hys : ys ≠ []) :
    sep.intercalate (xs ++ ys) = sep.intercalate xs ++ sep ++ sep.intercalate ys := by
  induction xs with
  | nil => exact absurd rfl hxs
  | cons x xs ih =>
    by_cases hnil : xs = []
    · rw [hnil, List.singleton_append, List.intercalate_cons_of_ne_nil hys,
        List.intercalate_singleton]
    · rw [List.cons_append, List.intercalate_cons_of_ne_nil (by simp [hnil]),
        List.intercalate_cons_of_ne_nil hnil, ih hnil]
      simp only [List.append_assoc]

/-- The components of a path are those of a directory it lies in, and more. -/
theorem mem_parents_of_split {path parent : String} {rest : List String}
    (h : split path '/' = split parent '/' ++ rest) (hne : rest ≠ []) : parent ∈ parents path := by
  have hpath := toList_of_split path '/'
  rw [h, List.map_append, intercalate_append _ (by simp [split_ne_nil]) (by simp [hne]),
    ← toList_of_split, List.append_assoc] at hpath
  exact mem_parents hpath

theorem split_inj {a b : String} {c : Char} (h : split a c = split b c) : a = b := by
  refine String.toList_injective ?_
  rw [toList_of_split a c, toList_of_split b c, h]

end Text

end Grading

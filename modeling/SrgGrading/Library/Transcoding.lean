import Mathlib.Algebra.Group.Nat.Defs
import Mathlib.Data.Char
import Mathlib.Tactic.Common
import SrgGrading.Library.Json

/-!
# Bytes to text and back

Bytes as text, with U+FFFD for what is not UTF-8, and ASCII texts of flat
objects, where every other character is escaped.

* `Utf8.decodeLossy_encode`: the bytes of a text are decoded to the text.
* `Flat.read_dumps`: an object is read from its text.
* `Flat.length_escape_decodeLossy`: a byte takes at most six characters.
-/

/-! ### Bytes -/

namespace Utf8

def replacement : Char := '\uFFFD'

/-- How many bytes follow a first byte, and the range of the next one. -/
def follows (b : Nat) : Option (Nat × Nat × Nat) :=
  if 0xC2 ≤ b ∧ b ≤ 0xDF then some (1, 0x80, 0xBF)
  else if b = 0xE0 then some (2, 0xA0, 0xBF)
  else if b = 0xED then some (2, 0x80, 0x9F)
  else if 0xE1 ≤ b ∧ b ≤ 0xEF then some (2, 0x80, 0xBF)
  else if b = 0xF0 then some (3, 0x90, 0xBF)
  else if 0xF1 ≤ b ∧ b ≤ 0xF3 then some (3, 0x80, 0xBF)
  else if b = 0xF4 then some (3, 0x80, 0x8F)
  else none

/-- The bytes that go on with a character. -/
def tail : Nat → Nat → Nat → List UInt8 → List Nat
  | n + 1, low, high, b :: rest =>
    if low ≤ b.toNat ∧ b.toNat ≤ high then b.toNat :: tail n 0x80 0xBF rest else []
  | _, _, _, _ => []

/-- The character at a first byte, and how many more bytes it takes.  The
longest start of a character that breaks off is replaced as a whole. -/
def first (b : UInt8) (rest : List UInt8) : Char × Nat :=
  if b.toNat < 0x80 then (Char.ofNat b.toNat, 0)
  else
    match follows b.toNat with
    | none => (replacement, 0)
    | some (n, low, high) =>
      let more := tail n low high rest
      if more.length = n then
        (Char.ofNat (more.foldl (fun v x => v * 64 + x % 64) (b.toNat % 2 ^ (6 - n))), n)
      else (replacement, more.length)

/-- Decode what is left after some bytes of the last character. -/
def decodeAfter : Nat → List UInt8 → List Char
  | _, [] => []
  | n + 1, _ :: rest => decodeAfter n rest
  | 0, b :: rest => (first b rest).1 :: decodeAfter (first b rest).2 rest

/-- The text of any bytes. -/
def decodeLossy (bytes : List UInt8) : List Char := decodeAfter 0 bytes

theorem toNat_ofNat {n : Nat} (h : n < 0xD800 ∨ 0xDFFF < n ∧ n < 0x110000) :
    (Char.ofNat n).toNat = n := by
  rw [Char.ofNat, dif_pos h]
  rfl

theorem length_tail (n low high : Nat) (bytes : List UInt8) :
    (tail n low high bytes).length ≤ bytes.length := by
  induction bytes generalizing n low high with
  | nil => cases n <;> exact le_refl _
  | cons b rest ih =>
    cases n with
    | zero => exact Nat.zero_le _
    | succ n =>
      rw [tail]
      split
      · exact Nat.succ_le_succ (ih _ _ _)
      · exact Nat.zero_le _

theorem first_le (b : UInt8) (rest : List UInt8) : (first b rest).2 ≤ rest.length := by
  unfold first
  split
  · exact Nat.zero_le _
  · split
    · exact Nat.zero_le _
    · rename_i n low high _
      have hmore := length_tail n low high rest
      dsimp only
      split
      · rename_i heq
        rwa [heq] at hmore
      · exact hmore

/-- A character that takes one byte is an ASCII character, or a replacement. -/
theorem first_single {b : UInt8} {rest : List UInt8} (h : (first b rest).2 = 0) :
    (first b rest).1.toNat < 0x80 ∨ (first b rest).1 = replacement := by
  unfold first at h ⊢
  split
  · rename_i hb
    left
    rw [toNat_ofNat (Or.inl (by omega))]
    exact hb
  · rename_i hb
    rw [if_neg hb] at h
    split
    · exact Or.inr rfl
    · rename_i n low high hfollows
      rw [hfollows] at h
      dsimp only at h ⊢
      split
      · rename_i heq
        rw [if_pos heq] at h
        -- a first byte has some bytes after it
        have hpos : 0 < n := by
          unfold follows at hfollows
          split_ifs at hfollows <;> simp_all
        exact absurd h (by dsimp only; omega)
      · exact Or.inr rfl

theorem first_of_tail {b : UInt8} {rest : List UInt8} {n low high : Nat} {more : List Nat}
    (hb : 0x80 ≤ b.toNat) (hfollows : follows b.toNat = some (n, low, high))
    (htail : tail n low high rest = more) (hlen : more.length = n) :
    first b rest = (Char.ofNat (more.foldl (fun v x => v * 64 + x % 64) (b.toNat % 2 ^ (6 - n))), n) := by
  rw [first, if_neg (by omega), hfollows]
  dsimp only
  rw [htail, if_pos hlen]

theorem tail_of {b : UInt8} {rest : List UInt8} {n low high : Nat}
    (h : low ≤ b.toNat ∧ b.toNat ≤ high) :
    tail (n + 1) low high (b :: rest) = b.toNat :: tail n 0x80 0xBF rest := by
  rw [tail, if_pos h]

theorem first_two {a b : Nat} {rest : List UInt8} (ha : 0xC2 ≤ a ∧ a ≤ 0xDF)
    (hb : 0x80 ≤ b ∧ b ≤ 0xBF) :
    first (UInt8.ofNat a) (UInt8.ofNat b :: rest) = (Char.ofNat (a % 32 * 64 + b % 64), 1) := by
  have ha' : (UInt8.ofNat a).toNat = a := Nat.mod_eq_of_lt (by omega)
  have hb' : (UInt8.ofNat b).toNat = b := Nat.mod_eq_of_lt (by omega)
  have hfollows : follows (UInt8.ofNat a).toNat = some (1, 0x80, 0xBF) := by
    rw [ha', follows, if_pos ha]
  rw [first_of_tail (by omega) hfollows (tail_of (by omega)) rfl, ha', hb']
  rfl

theorem first_three {a b c : Nat} {rest : List UInt8} (ha : 0xE0 ≤ a ∧ a ≤ 0xEF)
    (hb : (if a = 0xE0 then 0xA0 else 0x80) ≤ b ∧ b ≤ if a = 0xED then 0x9F else 0xBF)
    (hc : 0x80 ≤ c ∧ c ≤ 0xBF) :
    first (UInt8.ofNat a) (UInt8.ofNat b :: UInt8.ofNat c :: rest) =
      (Char.ofNat ((a % 16 * 64 + b % 64) * 64 + c % 64), 2) := by
  have ha' : (UInt8.ofNat a).toNat = a := Nat.mod_eq_of_lt (by omega)
  have hb' : (UInt8.ofNat b).toNat = b := by
    have hhigh := hb.2
    exact Nat.mod_eq_of_lt (by split at hhigh <;> omega)
  have hc' : (UInt8.ofNat c).toNat = c := Nat.mod_eq_of_lt (by omega)
  have hfollows : follows (UInt8.ofNat a).toNat =
      some (2, if a = 0xE0 then 0xA0 else 0x80, if a = 0xED then 0x9F else 0xBF) := by
    rw [ha', follows, if_neg (by omega)]
    split_ifs <;> first | rfl | omega
  rw [first_of_tail (by omega) hfollows ((tail_of (by rwa [hb'])).trans
    (congrArg _ (tail_of (by omega)))) rfl, ha', hb', hc']
  rfl

theorem first_four {a b c d : Nat} {rest : List UInt8} (ha : 0xF0 ≤ a ∧ a ≤ 0xF4)
    (hb : (if a = 0xF0 then 0x90 else 0x80) ≤ b ∧ b ≤ if a = 0xF4 then 0x8F else 0xBF)
    (hc : 0x80 ≤ c ∧ c ≤ 0xBF) (hd : 0x80 ≤ d ∧ d ≤ 0xBF) :
    first (UInt8.ofNat a) (UInt8.ofNat b :: UInt8.ofNat c :: UInt8.ofNat d :: rest) =
      (Char.ofNat (((a % 8 * 64 + b % 64) * 64 + c % 64) * 64 + d % 64), 3) := by
  have ha' : (UInt8.ofNat a).toNat = a := Nat.mod_eq_of_lt (by omega)
  have hb' : (UInt8.ofNat b).toNat = b := by
    have hhigh := hb.2
    exact Nat.mod_eq_of_lt (by split at hhigh <;> omega)
  have hc' : (UInt8.ofNat c).toNat = c := Nat.mod_eq_of_lt (by omega)
  have hd' : (UInt8.ofNat d).toNat = d := Nat.mod_eq_of_lt (by omega)
  have hfollows : follows (UInt8.ofNat a).toNat =
      some (3, if a = 0xF0 then 0x90 else 0x80, if a = 0xF4 then 0x8F else 0xBF) := by
    rw [ha', follows, if_neg (by omega), if_neg (by omega), if_neg (by omega), if_neg (by omega)]
    split_ifs <;> first | rfl | omega
  rw [first_of_tail (by omega) hfollows ((tail_of (by rwa [hb'])).trans
    (congrArg _ ((tail_of (by omega)).trans (congrArg _ (tail_of (by omega)))))) rfl,
    ha', hb', hc', hd']
  rfl

/-- The bytes of a character are decoded to the character. -/
theorem decodeAfter_encodeChar (c : Char) (rest : List UInt8) :
    decodeAfter 0 (String.utf8EncodeChar c ++ rest) = c :: decodeAfter 0 rest := by
  have hvalid : c.toNat < 0xD800 ∨ 0xDFFF < c.toNat ∧ c.toNat < 0x110000 := c.valid
  have hchar : ∀ n, n = c.toNat → Char.ofNat n = c := by
    rintro n rfl
    exact Char.ofNat_toNat c
  rw [String.utf8EncodeChar, Char.toNat_val]
  split_ifs with h₁ h₂ h₃
  · have hfirst : first (UInt8.ofNat c.toNat) rest = (c, 0) := by
      have hbyte : (UInt8.ofNat c.toNat).toNat = c.toNat := Nat.mod_eq_of_lt (by omega)
      rw [first, hbyte, if_pos (by omega), hchar _ rfl]
    rw [List.cons_append, List.nil_append, decodeAfter, hfirst]
  · rw [List.cons_append, List.cons_append, List.nil_append, decodeAfter,
      first_two (by omega) (by omega), hchar _ (by omega)]
    rfl
  · rw [List.cons_append, List.cons_append, List.cons_append, List.nil_append, decodeAfter,
      first_three (by omega) (by split_ifs <;> omega) (by omega), hchar _ (by omega)]
    rfl
  · rw [List.cons_append, List.cons_append, List.cons_append, List.cons_append, List.nil_append,
      decodeAfter, first_four (by omega) (by split_ifs <;> omega) (by omega) (by omega),
      hchar _ (by omega)]
    rfl

/-- **The bytes of a text are decoded to the text.** -/
theorem decodeLossy_encode (s : List Char) : decodeLossy (s.flatMap String.utf8EncodeChar) = s := by
  induction s with
  | nil => rfl
  | cons c s ih =>
    rw [List.flatMap_cons, decodeLossy, decodeAfter_encodeChar]
    exact congrArg (c :: ·) ih

end Utf8

/-! ### Texts of flat objects -/

/-- A string, an integer or `null`. -/
inductive Scalar
  | null
  | num (n : Int)
  | str (s : List Char)
  deriving DecidableEq

namespace Flat

/-- Four lowercase hexadecimal digits. -/
def hex4 (n : Nat) : List Char :=
  [Nat.digitChar (n / 4096 % 16), Nat.digitChar (n / 256 % 16), Nat.digitChar (n / 16 % 16),
    Nat.digitChar (n % 16)]

/-- The text of one character of a string, in ASCII. -/
def escape (c : Char) : List Char :=
  if c = '"' then ['\\', '"']
  else if c = '\\' then ['\\', '\\']
  else if c = '\n' then ['\\', 'n']
  else if c = '\r' then ['\\', 'r']
  else if c = '\t' then ['\\', 't']
  else if c = '\x08' then ['\\', 'b']
  else if c = '\x0c' then ['\\', 'f']
  else if 32 ≤ c.toNat ∧ c.toNat < 127 then [c]
  else if c.toNat < 0x10000 then '\\' :: 'u' :: hex4 c.toNat
  else '\\' :: 'u' :: (hex4 (0xD800 + (c.toNat - 0x10000) / 0x400) ++
    '\\' :: 'u' :: hex4 (0xDC00 + (c.toNat - 0x10000) % 0x400))

def dumpStr (s : List Char) : List Char := '"' :: (s.flatMap escape ++ ['"'])

def dumpScalar : Scalar → List Char
  | .null => "null".toList
  | .num n => Json.renderNum n
  | .str s => dumpStr s

def dumpMember (m : List Char × Scalar) : List Char :=
  dumpStr m.1 ++ ':' :: ' ' :: dumpScalar m.2

/-- The members with a comma and a blank between them. -/
def dumpMembers : List (List Char × Scalar) → List Char
  | [] => []
  | [m] => dumpMember m
  | m :: n :: rest => dumpMember m ++ ',' :: ' ' :: dumpMembers (n :: rest)

/-- The text of an object. -/
def dumps (members : List (List Char × Scalar)) : List Char :=
  '\x7b' :: (dumpMembers members ++ ['\x7d'])

/-! ### Reading -/

def hexValue (c : Char) : Option Nat :=
  if 0x30 ≤ c.toNat ∧ c.toNat ≤ 0x39 then some (c.toNat - 0x30)
  else if 0x61 ≤ c.toNat ∧ c.toNat ≤ 0x66 then some (c.toNat - 0x57)
  else if 0x41 ≤ c.toNat ∧ c.toNat ≤ 0x46 then some (c.toNat - 0x37)
  else none

def readHex4 : List Char → Option (Nat × List Char)
  | a :: b :: c :: d :: r => do
    let a ← hexValue a
    let b ← hexValue b
    let c ← hexValue c
    let d ← hexValue d
    some (((a * 16 + b) * 16 + c) * 16 + d, r)
  | _ => none

/-- The second half of a surrogate pair. -/
def readLow (high : Nat) : List Char → Option (Char × List Char)
  | '\\' :: 'u' :: r => do
    let (low, r) ← readHex4 r
    if 0xDC00 ≤ low ∧ low < 0xE000 then
      some (Char.ofNat (0x10000 + (high - 0xD800) * 0x400 + (low - 0xDC00)), r)
    else none
  | _ => none

def readUnicode (r : List Char) : Option (Char × List Char) := do
  let (n, r) ← readHex4 r
  if 0xD800 ≤ n ∧ n < 0xDC00 then readLow n r
  else if 0xDC00 ≤ n ∧ n < 0xE000 then none
  else some (Char.ofNat n, r)

/-- The next character of a string. -/
def readChar : List Char → Option (Char × List Char)
  | '\\' :: '"' :: r => some ('"', r)
  | '\\' :: '\\' :: r => some ('\\', r)
  | '\\' :: '/' :: r => some ('/', r)
  | '\\' :: 'n' :: r => some ('\n', r)
  | '\\' :: 'r' :: r => some ('\r', r)
  | '\\' :: 't' :: r => some ('\t', r)
  | '\\' :: 'b' :: r => some ('\x08', r)
  | '\\' :: 'f' :: r => some ('\x0c', r)
  | '\\' :: 'u' :: r => readUnicode r
  | '\\' :: _ => none
  | '"' :: _ => none
  | c :: r => if c.toNat < 32 then none else some (c, r)
  | [] => none

/-- The rest of a string, up to its closing quote. -/
def readStr : Nat → List Char → Option (List Char × List Char)
  | _ + 1, '"' :: r => some ([], r)
  | n + 1, t => do
    let (c, r) ← readChar t
    let (s, r) ← readStr n r
    some (c :: s, r)
  | 0, _ => none

/-- Digits with no zero before them. -/
def readDigits (t : List Char) : Option (Nat × List Char) :=
  let digits := t.takeWhile Char.isDigit
  let n := Nat.ofDigitChars 10 digits 0
  if digits = Nat.toDigits 10 n then some (n, t.dropWhile Char.isDigit) else none

def readNum : List Char → Option (Int × List Char)
  | '-' :: r => do
    let (n, r) ← readDigits r
    if n = 0 then none else some (-n, r)
  | t => do
    let (n, r) ← readDigits t
    some (n, r)

/-- The text after blanks. -/
def skip (t : List Char) : List Char :=
  t.dropWhile fun c => c = ' ' || c = '\t' || c = '\n' || c = '\r'

def readScalar : List Char → Option (Scalar × List Char)
  | '"' :: r => do
    let (s, r) ← readStr r.length r
    some (.str s, r)
  | 'n' :: 'u' :: 'l' :: 'l' :: r => some (.null, r)
  | t => do
    let (n, r) ← readNum t
    some (.num n, r)

/-- Read one character that has to be there. -/
def expect (c : Char) : List Char → Option (List Char)
  | d :: r => if d = c then some r else none
  | [] => none

def readMember (t : List Char) : Option ((List Char × Scalar) × List Char) := do
  let r ← expect '"' (skip t)
  let (key, r) ← readStr r.length r
  let r ← expect ':' (skip r)
  let (v, r) ← readScalar (skip r)
  some ((key, v), skip r)

/-- The members, up to the closing brace. -/
def readMembers : Nat → List Char → Option (List (List Char × Scalar) × List Char)
  | 0, _ => none
  | n + 1, t => do
    let (m, r) ← readMember t
    match r with
    | ',' :: r => do
      let (rest, r) ← readMembers n r
      some (m :: rest, r)
    | '\x7d' :: r => some ([m], r)
    | _ => none

/-- The members of an object that is the whole text. -/
def read (t : List Char) : Option (List (List Char × Scalar)) := do
  let r ← expect '\x7b' (skip t)
  match skip r with
  | '\x7d' :: r => if skip r = [] then some [] else none
  | r => do
    let (members, r) ← readMembers r.length r
    if skip r = [] then some members else none

/-! ### Round trips -/

theorem hexValue_digitChar : ∀ n < 16, hexValue (Nat.digitChar n) = some n := by decide

theorem readHex4_hex4 {n : Nat} (h : n < 0x10000) (r : List Char) :
    readHex4 (hex4 n ++ r) = some (n, r) := by
  rw [hex4]
  simp only [List.cons_append, List.nil_append, readHex4,
    hexValue_digitChar _ (Nat.mod_lt _ (by decide : 0 < 16)), Option.bind_eq_bind,
    Option.bind_some, Option.some_inj, Prod.mk.injEq, and_true]
  omega

/-- A character of the basic plane is read from its code. -/
theorem readUnicode_basic {c : Char} (h : c.toNat < 0x10000) (r : List Char) :
    readUnicode (hex4 c.toNat ++ r) = some (c, r) := by
  have hvalid : c.toNat < 0xD800 ∨ 0xDFFF < c.toNat ∧ c.toNat < 0x110000 := c.valid
  rw [readUnicode, readHex4_hex4 h]
  simp only [Option.bind_eq_bind, Option.bind_some]
  rw [if_neg (by omega), if_neg (by omega), Char.ofNat_toNat]

/-- Any other one is read from a pair of surrogates. -/
theorem readUnicode_pair {c : Char} {high low : Nat} (hhigh : 0xD800 ≤ high ∧ high < 0xDC00)
    (hlow : 0xDC00 ≤ low ∧ low < 0xE000)
    (hc : 0x10000 + (high - 0xD800) * 0x400 + (low - 0xDC00) = c.toNat) (r : List Char) :
    readUnicode (hex4 high ++ '\\' :: 'u' :: (hex4 low ++ r)) = some (c, r) := by
  rw [readUnicode, readHex4_hex4 (by omega)]
  simp only [Option.bind_eq_bind, Option.bind_some]
  rw [if_pos hhigh, readLow, readHex4_hex4 (by omega)]
  simp only [Option.bind_eq_bind, Option.bind_some]
  rw [if_pos hlow, hc, Char.ofNat_toNat]

/-- Any other printable character stands for itself. -/
theorem readChar_plain {c : Char} (hquote : c ≠ '"') (hslash : c ≠ '\\') (h : 32 ≤ c.toNat)
    (r : List Char) : readChar (c :: r) = some (c, r) := by
  rw [readChar.eq_def]
  split <;> rename_i heq <;> cases heq
  any_goals first | exact absurd rfl hslash | exact absurd rfl hquote
  exact if_neg (Nat.not_lt.mpr h)

theorem readChar_escape (c : Char) (r : List Char) : readChar (escape c ++ r) = some (c, r) := by
  rw [escape]
  by_cases hquote : c = '"'
  · rw [if_pos hquote, hquote]
    rfl
  rw [if_neg hquote]
  by_cases hslash : c = '\\'
  · rw [if_pos hslash, hslash]
    rfl
  rw [if_neg hslash]
  -- the five short escapes
  iterate 5
    split
    · subst_vars
      rfl
  split
  · rename_i hplain
    exact readChar_plain hquote hslash hplain.1 r
  split
  · rename_i hbasic
    show readUnicode (hex4 c.toNat ++ r) = some (c, r)
    exact readUnicode_basic hbasic r
  · rename_i hlarge
    show readUnicode ((hex4 _ ++ '\\' :: 'u' :: hex4 _) ++ r) = some (c, r)
    rw [List.append_assoc, List.cons_append, List.cons_append]
    have hvalid : c.toNat < 0xD800 ∨ 0xDFFF < c.toNat ∧ c.toNat < 0x110000 := c.valid
    exact readUnicode_pair (by omega) (by omega) (by omega) r

theorem escape_ne_quote (c : Char) (r r' : List Char) : escape c ++ r ≠ '"' :: r' := by
  intro h
  have h' := congrArg readChar h
  rw [readChar_escape] at h'
  cases h'

theorem readStr_flatMap {s : List Char} {n : Nat} (h : s.length < n) (r : List Char) :
    readStr n (s.flatMap escape ++ '"' :: r) = some (s, r) := by
  induction s generalizing n with
  | nil =>
    cases n with
    | zero => exact absurd h (Nat.not_lt_zero _)
    | succ n => rfl
  | cons c s ih =>
    cases n with
    | zero => exact absurd h (Nat.not_lt_zero _)
    | succ n =>
      rw [List.flatMap_cons, List.append_assoc, readStr.eq_def]
      split
      · rename_i heq
        exact absurd heq (escape_ne_quote _ _ _)
      · rename_i heq _
        cases heq
        rw [readChar_escape]
        simp only [Option.bind_eq_bind, Option.bind_some]
        rw [ih (Nat.lt_of_succ_lt_succ h)]
        rfl
      · rename_i heq
        cases heq

theorem length_escape_pos (c : Char) : 0 < (escape c).length := by
  unfold escape
  split_ifs <;> exact Nat.succ_pos _

theorem length_le_flatMap (s : List Char) : s.length ≤ (s.flatMap escape).length := by
  induction s with
  | nil => exact le_refl _
  | cons c s ih =>
    have hpos := length_escape_pos c
    rw [List.flatMap_cons, List.length_append, List.length_cons]
    omega

/-- A string is read from its text. -/
theorem readStr_dumpStr (s r : List Char) : ∃ t, dumpStr s ++ r = '"' :: t ∧
    readStr t.length t = some (s, r) := by
  refine ⟨s.flatMap escape ++ '"' :: r, ?_, readStr_flatMap ?_ r⟩
  · rw [dumpStr, List.cons_append, List.append_assoc]
    rfl
  · have hlen := length_le_flatMap s
    rw [List.length_append, List.length_cons]
    omega

theorem readDigits_toDigits (n : Nat) {r : List Char} (hr : Json.Delimited r) :
    readDigits (Nat.toDigits 10 n ++ r) = some (n, r) := by
  have hdigits : ∀ c ∈ Nat.toDigits 10 n, c.isDigit = true := fun c hc =>
    Nat.isDigit_of_mem_toDigits (by decide) (by decide) hc
  obtain ⟨htake, hdrop⟩ := Json.takeWhile_isDigit hdigits hr
  have hvalue : Nat.ofDigitChars 10 (Nat.toDigits 10 n) 0 = n := by
    simp [Nat.ofDigitChars_ten_toDigits]
  rw [readDigits]
  simp only [htake, hdrop, hvalue, if_true]

theorem readNum_renderNum (n : Int) {r : List Char} (hr : Json.Delimited r) :
    readNum (Json.renderNum n ++ r) = some (n, r) := by
  rw [Json.renderNum]
  split
  · rw [List.cons_append, readNum, readDigits_toDigits _ hr]
    simp only [Option.bind_eq_bind, Option.bind_some]
    rw [if_neg (by omega), Int.ofNat_natAbs_of_nonpos (by omega), Int.neg_neg]
  · obtain ⟨c, l, hl, hc⟩ := Json.digits_head n.natAbs
    have hdigits := readDigits_toDigits n.natAbs hr
    rw [readNum.eq_def]
    split
    · rename_i heq
      rw [hl, List.cons_append] at heq
      cases heq
      exact absurd hc (by decide)
    · rw [hdigits]
      simp only [Option.bind_eq_bind, Option.bind_some]
      rw [Int.natAbs_of_nonneg (by omega)]

theorem readScalar_dumpScalar (v : Scalar) {r : List Char} (hr : Json.Delimited r) :
    readScalar (dumpScalar v ++ r) = some (v, r) := by
  cases v with
  | null => rfl
  | num n =>
    have hnum := readNum_renderNum n hr
    rw [dumpScalar, readScalar.eq_def]
    have hshape := Json.shape_renderNum n r
    split
    · rename_i heq
      rw [heq] at hshape
      cases hshape
    · rename_i heq
      rw [heq] at hshape
      cases hshape
    · rw [hnum]
      rfl
  | str s =>
    obtain ⟨t, ht, hread⟩ := readStr_dumpStr s r
    rw [dumpScalar, ht, readScalar, hread]
    rfl

/-- The text goes on with a comma or a brace. -/
def Stops (r : List Char) : Prop := r.head? = some ',' ∨ r.head? = some '\x7d'

theorem Stops.skip {r : List Char} (h : Stops r) : skip r = r := by
  cases r with
  | nil => rfl
  | cons c r =>
    have hc : c = ',' ∨ c = '\x7d' := by simpa [Stops] using h
    rcases hc with rfl | rfl <;> rfl

theorem Stops.delimited {r : List Char} (h : Stops r) : Json.Delimited r := by
  intro c hc
  rw [Option.mem_def] at hc
  rcases h with h | h
  · rw [h, Option.some_inj] at hc
    rw [← hc]
    rfl
  · rw [h, Option.some_inj] at hc
    rw [← hc]
    rfl

theorem skip_dumpScalar (v : Scalar) (r : List Char) :
    skip (dumpScalar v ++ r) = dumpScalar v ++ r := by
  cases v with
  | null => rfl
  | num n =>
    rw [dumpScalar, Json.renderNum]
    split
    · rfl
    · obtain ⟨c, l, hl, hc⟩ := Json.digits_head n.natAbs
      have hne : ∀ d : Char, d.isDigit = false → c ≠ d := by
        rintro d hd rfl
        rw [hc] at hd
        cases hd
      rw [hl, List.cons_append, skip, List.dropWhile_cons_of_neg]
      simp only [Bool.or_eq_true, decide_eq_true_eq, hne ' ' rfl, hne '\t' rfl, hne '\n' rfl,
        hne '\r' rfl, or_self, not_false_eq_true]
  | str s => rfl

theorem readMember_dumpMember (m : List Char × Scalar) {r : List Char} (hr : Stops r) :
    readMember (dumpMember m ++ r) = some (m, r) := by
  obtain ⟨t, ht, hread⟩ := readStr_dumpStr m.1 (':' :: ' ' :: (dumpScalar m.2 ++ r))
  have htext : dumpMember m ++ r = '"' :: t := by
    rw [dumpMember, List.append_assoc, ← ht]
    rfl
  rw [htext, readMember]
  have hskip : skip ('"' :: t) = '"' :: t := rfl
  have hblank : skip (' ' :: (dumpScalar m.2 ++ r)) = dumpScalar m.2 ++ r :=
    skip_dumpScalar m.2 r
  have hcolon : ∀ r, skip (':' :: r) = ':' :: r := fun _ => rfl
  simp only [hskip, expect, if_true, Option.bind_eq_bind, Option.bind_some, hread, hcolon, hblank,
    readScalar_dumpScalar m.2 hr.delimited, hr.skip]

theorem readMembers_dumpMembers {members : List (List Char × Scalar)} {n : Nat}
    (hne : members ≠ []) (h : members.length ≤ n) (r : List Char) :
    readMembers n (dumpMembers members ++ '\x7d' :: r) = some (members, r) := by
  induction members generalizing n with
  | nil => exact absurd rfl hne
  | cons m rest ih =>
    cases n with
    | zero => exact absurd h (Nat.not_succ_le_zero _)
    | succ n =>
      have hlast : Stops ('\x7d' :: r) := Or.inr rfl
      cases rest with
      | nil =>
        rw [dumpMembers, readMembers, readMember_dumpMember m hlast]
        rfl
      | cons k rest =>
        have hmore : Stops (',' :: ' ' :: (dumpMembers (k :: rest) ++ '\x7d' :: r)) := Or.inl rfl
        have hrest := ih (List.cons_ne_nil k rest) (Nat.le_of_succ_le_succ h)
        -- a blank before a member is passed over
        have hblank : readMembers n (' ' :: (dumpMembers (k :: rest) ++ '\x7d' :: r)) =
            some (k :: rest, r) := by
          rw [← hrest]
          cases n <;> rfl
        rw [dumpMembers, List.append_assoc, List.cons_append, List.cons_append, readMembers,
          readMember_dumpMember m hmore]
        simp only [Option.bind_eq_bind, Option.bind_some, hblank]

theorem dumpMembers_head {members : List (List Char × Scalar)} (hne : members ≠ []) :
    ∃ t, dumpMembers members = '"' :: t := by
  cases members with
  | nil => exact absurd rfl hne
  | cons m rest =>
    cases rest with
    | nil => exact ⟨_, rfl⟩
    | cons n rest => exact ⟨_, rfl⟩

theorem length_dumpMembers (members : List (List Char × Scalar)) :
    members.length ≤ (dumpMembers members).length := by
  induction members with
  | nil => exact le_refl _
  | cons m rest ih =>
    cases rest with
    | nil => exact Nat.succ_le_succ (Nat.zero_le _)
    | cons n rest =>
      rw [dumpMembers]
      simp only [List.length_append, List.length_cons] at ih ⊢
      omega

/-- **An object is read from its text.** -/
theorem read_dumps (members : List (List Char × Scalar)) {r : List Char} (hr : skip r = []) :
    read (dumps members ++ r) = some members := by
  have hbrace : skip (dumps members ++ r) = '\x7b' :: (dumpMembers members ++ '\x7d' :: r) := by
    rw [dumps, List.cons_append, List.append_assoc]
    rfl
  rw [read, hbrace]
  simp only [expect, if_true, Option.bind_eq_bind, Option.bind_some]
  by_cases hne : members = []
  · subst hne
    have hend : skip (dumpMembers [] ++ '\x7d' :: r) = '\x7d' :: r := rfl
    simp only [hend, hr, if_true]
  · obtain ⟨t, ht⟩ := dumpMembers_head hne
    have hskip : skip (dumpMembers members ++ '\x7d' :: r) =
        dumpMembers members ++ '\x7d' :: r := by
      rw [ht]
      rfl
    have hlen : members.length ≤ (dumpMembers members ++ '\x7d' :: r).length := by
      have hmembers := length_dumpMembers members
      rw [List.length_append]
      omega
    have hread := readMembers_dumpMembers hne hlen r
    rw [hskip]
    split
    · rename_i heq
      rw [ht] at heq
      cases heq
    · rw [hread]
      simp only [Option.bind_some, hr, if_true]

/-! ### Lengths -/

theorem length_hex4 (n : Nat) : (hex4 n).length = 4 := rfl

theorem length_escape_le (c : Char) : (escape c).length ≤ 12 := by
  unfold escape
  split_ifs <;> simp [length_hex4]

theorem length_escape_basic {c : Char} (h : c.toNat < 0x10000) : (escape c).length ≤ 6 := by
  unfold escape
  split_ifs <;> simp [length_hex4]

/-- What is decoded from some bytes takes six characters a byte. -/
theorem length_escape_decodeAfter (n : Nat) (bytes : List UInt8) :
    ((Utf8.decodeAfter n bytes).flatMap escape).length ≤ 6 * (bytes.length - n) := by
  induction bytes generalizing n with
  | nil => cases n <;> exact Nat.zero_le _
  | cons b rest ih =>
    cases n with
    | succ n =>
      rw [Utf8.decodeAfter, List.length_cons, Nat.succ_sub_succ]
      exact ih n
    | zero =>
      have hle := Utf8.first_le b rest
      have htail := ih (Utf8.first b rest).2
      rw [Utf8.decodeAfter, List.flatMap_cons, List.length_append, List.length_cons]
      by_cases hsingle : (Utf8.first b rest).2 = 0
      · have hchar : (Utf8.first b rest).1.toNat < 0x10000 := by
          rcases Utf8.first_single hsingle with h | h
          · omega
          · rw [h]
            decide
        have hsix := length_escape_basic hchar
        omega
      · have htwelve := length_escape_le (Utf8.first b rest).1
        omega

/-- **A byte takes at most six characters.** -/
theorem length_escape_decodeLossy (bytes : List UInt8) :
    ((Utf8.decodeLossy bytes).flatMap escape).length ≤ 6 * bytes.length :=
  length_escape_decodeAfter 0 bytes

theorem ascii_hex4 (n : Nat) : ∀ c ∈ hex4 n, c.toNat < 128 := by
  have hdigit : ∀ k < 16, (Nat.digitChar k).toNat < 128 := by decide
  intro c hc
  simp only [hex4, List.mem_cons, List.not_mem_nil, or_false] at hc
  rcases hc with rfl | rfl | rfl | rfl <;> exact hdigit _ (Nat.mod_lt _ (by decide))

/-- The text of a string is ASCII. -/
theorem ascii_escape (c : Char) : ∀ d ∈ escape c, d.toNat < 128 := by
  intro d hd
  unfold escape at hd
  split_ifs at hd with _ _ _ _ _ _ _ hplain
  any_goals
    simp only [List.mem_cons, List.not_mem_nil, or_false] at hd
    rcases hd with rfl | rfl <;> decide
  · rw [List.mem_singleton.mp hd]
    omega
  · simp only [List.mem_cons] at hd
    rcases hd with rfl | rfl | hd
    · decide
    · decide
    · exact ascii_hex4 _ _ hd
  · simp only [List.mem_cons, List.mem_append] at hd
    rcases hd with rfl | rfl | hd | rfl | rfl | hd
    any_goals decide
    · exact ascii_hex4 _ _ hd
    · exact ascii_hex4 _ _ hd

theorem ascii_dumpStr (s : List Char) : ∀ d ∈ dumpStr s, d.toNat < 128 := by
  intro d hd
  rw [dumpStr, List.mem_cons, List.mem_append, List.mem_flatMap, List.mem_singleton] at hd
  rcases hd with rfl | ⟨c, _, hd⟩ | rfl
  · decide
  · exact ascii_escape c d hd
  · decide

theorem ascii_renderNum (n : Int) : ∀ d ∈ Json.renderNum n, d.toNat < 128 := by
  have hdigits : ∀ d ∈ Nat.toDigits 10 n.natAbs, d.toNat < 128 := by
    intro d hd
    have hdigit : d.isDigit = true :=
      Nat.isDigit_of_mem_toDigits (by decide) (by decide) hd
    rw [Char.isDigit_iff_toNat] at hdigit
    exact lt_of_le_of_lt hdigit.2 (by decide)
  intro d hd
  rw [Json.renderNum] at hd
  split at hd
  · rcases List.mem_cons.mp hd with rfl | hd
    · decide
    · exact hdigits d hd
  · exact hdigits d hd

theorem ascii_dumpMember (m : List Char × Scalar) : ∀ d ∈ dumpMember m, d.toNat < 128 := by
  intro d hd
  rw [dumpMember, List.mem_append, List.mem_cons, List.mem_cons] at hd
  rcases hd with hd | rfl | rfl | hd
  · exact ascii_dumpStr _ d hd
  · decide
  · decide
  · obtain ⟨key, v⟩ := m
    cases v with
    | null =>
      have hall : "null".toList.all fun d => d.toNat < 128 := by decide
      exact of_decide_eq_true (List.all_eq_true.mp hall d hd)
    | num n => exact ascii_renderNum n d hd
    | str s => exact ascii_dumpStr s d hd

/-- **The text of an object is ASCII.** -/
theorem ascii_dumps (members : List (List Char × Scalar)) : ∀ d ∈ dumps members, d.toNat < 128 := by
  have hmembers : ∀ d ∈ dumpMembers members, d.toNat < 128 := by
    induction members with
    | nil =>
      intro d hd
      cases hd
    | cons m rest ih =>
      cases rest with
      | nil => exact ascii_dumpMember m
      | cons n rest =>
        intro d hd
        rw [dumpMembers, List.mem_append, List.mem_cons, List.mem_cons] at hd
        rcases hd with hd | rfl | rfl | hd
        · exact ascii_dumpMember m d hd
        · decide
        · decide
        · exact ih d hd
  intro d hd
  rw [dumps, List.mem_cons, List.mem_append, List.mem_singleton] at hd
  rcases hd with rfl | hd | rfl
  · decide
  · exact hmembers d hd
  · decide

end Flat

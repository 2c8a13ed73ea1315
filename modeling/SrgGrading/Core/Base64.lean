import SrgGrading.Core.Integrity

/-!
# Base64

The text of a blob is its bytes in the standard alphabet.  The decoder takes
canonical text only, so that bytes have one text.

* `decode_encodeBase64`: encoded bytes decode to the bytes.
* `encode_decodeBase64`: text that decodes is the encoded bytes.
* `Blob.bytes_ok`: the bytes of a blob.
-/

open Fallible

namespace Grading

/-! ### Encoding -/

/-- The character of the standard base64 alphabet for a value. -/
def sextetChar (n : Nat) : Char :=
  if n < 26 then Char.ofNat (0x41 + n)
  else if n < 52 then Char.ofNat (0x61 + (n - 26))
  else if n < 62 then Char.ofNat (0x30 + (n - 52))
  else if n = 62 then '+'
  else '/'

/-- `STANDARD.encode`. -/
def encodeBase64 : List UInt8 → List Char
  | [] => []
  | [a] => [sextetChar (a.toNat / 4), sextetChar (a.toNat % 4 * 16), '=', '=']
  | [a, b] => [sextetChar (a.toNat / 4), sextetChar (a.toNat % 4 * 16 + b.toNat / 16),
      sextetChar (b.toNat % 16 * 4), '=']
  | a :: b :: c :: rest =>
    sextetChar (a.toNat / 4) :: sextetChar (a.toNat % 4 * 16 + b.toNat / 16) ::
      sextetChar (b.toNat % 16 * 4 + c.toNat / 64) :: sextetChar (c.toNat % 64) :: encodeBase64 rest

theorem sextet_sextetChar : ∀ n < 64, sextet (sextetChar n) = some n := by decide

theorem sextetChar_ne_pad : ∀ n < 64, sextetChar n ≠ '=' := by decide

theorem sextetChar_utf8Size : ∀ n < 64, (sextetChar n).utf8Size = 1 := by decide

/-- **Encoded bytes decode to the bytes.** -/
theorem decode_encodeBase64 (bytes : List UInt8) :
    decodeBase64 (encodeBase64 bytes) = some bytes := by
  have hbyte : ∀ b : UInt8, b.toNat < 256 := fun b => b.toNat_lt
  induction bytes using encodeBase64.induct with
  | case1 => rfl
  | case2 a =>
    have ha := hbyte a
    rw [encodeBase64, decodeBase64, sextet_sextetChar _ (by omega), sextet_sextetChar _ (by omega)]
    simp only [Option.bind_eq_bind, Option.bind_some]
    rw [if_pos (by omega), show a.toNat / 4 * 4 + a.toNat % 4 * 16 / 16 = a.toNat by omega,
      UInt8.ofNat_toNat]
  | case3 a b =>
    have ha := hbyte a
    have hb := hbyte b
    rw [encodeBase64, decodeBase64]
    · rw [sextet_sextetChar _ (by omega), sextet_sextetChar _ (by omega),
        sextet_sextetChar _ (by omega)]
      simp only [Option.bind_eq_bind, Option.bind_some]
      rw [if_pos (by omega),
        show a.toNat / 4 * 4 + (a.toNat % 4 * 16 + b.toNat / 16) / 16 = a.toNat by omega,
        show (a.toNat % 4 * 16 + b.toNat / 16) % 16 * 16 + b.toNat % 16 * 4 / 4 = b.toNat by omega,
        UInt8.ofNat_toNat, UInt8.ofNat_toNat]
    · exact sextetChar_ne_pad _ (by omega)
  | case4 a b c rest ih =>
    have ha := hbyte a
    have hb := hbyte b
    have hc := hbyte c
    rw [encodeBase64, decodeBase64]
    · rw [sextet_sextetChar _ (by omega), sextet_sextetChar _ (by omega),
        sextet_sextetChar _ (by omega), sextet_sextetChar _ (by omega), ih]
      simp only [Option.bind_eq_bind, Option.bind_some]
      rw [show a.toNat / 4 * 4 + (a.toNat % 4 * 16 + b.toNat / 16) / 16 = a.toNat by omega,
        show (a.toNat % 4 * 16 + b.toNat / 16) % 16 * 16 + (b.toNat % 16 * 4 + c.toNat / 64) / 4 =
          b.toNat by omega,
        show (b.toNat % 16 * 4 + c.toNat / 64) % 4 * 64 + c.toNat % 64 = c.toNat by omega,
        UInt8.ofNat_toNat, UInt8.ofNat_toNat, UInt8.ofNat_toNat]
    · exact fun _ h => absurd h (sextetChar_ne_pad _ (by omega))
    · exact fun h => absurd h (sextetChar_ne_pad _ (by omega))

/-- The text has characters of the alphabet and padding. -/
theorem forall_mem_encodeBase64 {P : Char → Prop} (halphabet : ∀ n < 64, P (sextetChar n))
    (hpad : P '=') (bytes : List UInt8) : ∀ c ∈ encodeBase64 bytes, P c := by
  have hbyte : ∀ b : UInt8, b.toNat < 256 := fun b => b.toNat_lt
  induction bytes using encodeBase64.induct with
  | case1 => intro c hc; cases hc
  | case2 a =>
    have ha := hbyte a
    intro c hc
    simp only [encodeBase64, List.mem_cons, List.not_mem_nil, or_false] at hc
    rcases hc with rfl | rfl | rfl | rfl
    · exact halphabet _ (by omega)
    · exact halphabet _ (by omega)
    · exact hpad
    · exact hpad
  | case3 a b =>
    have ha := hbyte a
    have hb := hbyte b
    intro c hc
    simp only [encodeBase64, List.mem_cons, List.not_mem_nil, or_false] at hc
    rcases hc with rfl | rfl | rfl | rfl
    · exact halphabet _ (by omega)
    · exact halphabet _ (by omega)
    · exact halphabet _ (by omega)
    · exact hpad
  | case4 a b c rest ih =>
    have ha := hbyte a
    have hb := hbyte b
    have hc := hbyte c
    intro d hd
    simp only [encodeBase64, List.mem_cons] at hd
    rcases hd with rfl | rfl | rfl | rfl | hd
    · exact halphabet _ (by omega)
    · exact halphabet _ (by omega)
    · exact halphabet _ (by omega)
    · exact halphabet _ (by omega)
    · exact ih d hd

theorem encodeBase64_utf8Size (bytes : List UInt8) :
    ∀ c ∈ encodeBase64 bytes, c.utf8Size = 1 :=
  forall_mem_encodeBase64 sextetChar_utf8Size (by decide) bytes

theorem length_encodeBase64 (bytes : List UInt8) :
    (encodeBase64 bytes).length = (bytes.length + 2) / 3 * 4 := by
  induction bytes using encodeBase64.induct with
  | case1 => rfl
  | case2 a => simp only [encodeBase64, List.length_cons, List.length_nil]
  | case3 a b => simp only [encodeBase64, List.length_cons, List.length_nil]
  | case4 a b c rest ih =>
    simp only [encodeBase64, List.length_cons, ih]
    omega

theorem len_encodeBase64 (bytes : List UInt8) :
    Text.len (String.ofList (encodeBase64 bytes)) = (bytes.length + 2) / 3 * 4 := by
  rw [Text.len_ofList_of_ascii (encodeBase64_utf8Size bytes), length_encodeBase64]

/-! ### Decoding -/

theorem sextet_spec {c : Char} {n : Nat} (h : sextet c = some n) : n < 64 ∧ c = sextetChar n := by
  have hback : ∀ m, m = c.toNat → Char.ofNat m = c := fun m hm => by
    rw [hm, Char.ofNat_toNat]
  rw [sextet] at h
  split at h
  · rename_i hc
    simp only [Text.isAsciiUppercase, Bool.and_eq_true, decide_eq_true_eq] at hc
    rw [Option.some_inj] at h
    refine ⟨by omega, ?_⟩
    rw [sextetChar, if_pos (by omega), hback _ (by omega)]
  · split at h
    · rename_i hc
      simp only [Text.isAsciiLowercase, Bool.and_eq_true, decide_eq_true_eq] at hc
      rw [Option.some_inj] at h
      refine ⟨by omega, ?_⟩
      rw [sextetChar, if_neg (by omega), if_pos (by omega), hback _ (by omega)]
    · split at h
      · rename_i hc
        simp only [Text.isAsciiDigit, Bool.and_eq_true, decide_eq_true_eq] at hc
        rw [Option.some_inj] at h
        refine ⟨by omega, ?_⟩
        rw [sextetChar, if_neg (by omega), if_neg (by omega), if_pos (by omega),
          hback _ (by omega)]
      · split at h
        · rename_i hc
          rw [Option.some_inj] at h
          rw [hc, ← h]
          decide
        · split at h
          · rename_i hc
            rw [Option.some_inj] at h
            rw [hc, ← h]
            decide
          · cases h

theorem toNat_ofNat {n : Nat} (h : n < 256) : (UInt8.ofNat n).toNat = n := by
  rw [UInt8.toNat_ofNat', Nat.mod_eq_of_lt h]

/-- **Text that decodes is the encoded bytes.** -/
theorem encode_decodeBase64 {l : List Char} : ∀ {bytes : List UInt8},
    decodeBase64 l = some bytes → l = encodeBase64 bytes := by
  induction l using decodeBase64.induct with
  | case1 =>
    intro bytes h
    cases h
    rfl
  | case2 a b =>
    intro bytes h
    simp only [decodeBase64, Option.bind_eq_bind, Option.bind_eq_some_iff,
      Option.ite_none_right_eq_some, Option.some_inj] at h
    obtain ⟨x, hx, y, hy, hstray, rfl⟩ := h
    obtain ⟨hx64, rfl⟩ := sextet_spec hx
    obtain ⟨hy64, rfl⟩ := sextet_spec hy
    rw [encodeBase64, toNat_ofNat (by omega), show (x * 4 + y / 16) / 4 = x by omega,
      show (x * 4 + y / 16) % 4 * 16 = y by omega]
  | case3 a b c hpad =>
    intro bytes h
    rw [decodeBase64] at h
    · simp only [Option.bind_eq_bind, Option.bind_eq_some_iff,
        Option.ite_none_right_eq_some, Option.some_inj] at h
      obtain ⟨x, hx, y, hy, z, hz, hstray, rfl⟩ := h
      obtain ⟨hx64, rfl⟩ := sextet_spec hx
      obtain ⟨hy64, rfl⟩ := sextet_spec hy
      obtain ⟨hz64, rfl⟩ := sextet_spec hz
      rw [encodeBase64, toNat_ofNat (by omega), toNat_ofNat (by omega),
        show (x * 4 + y / 16) / 4 = x by omega,
        show (x * 4 + y / 16) % 4 * 16 + (y % 16 * 16 + z / 4) / 16 = y by omega,
        show (y % 16 * 16 + z / 4) % 16 * 4 = z by omega]
    · exact hpad
  | case4 a b c d rest hpad hpads ih =>
    intro bytes h
    rw [decodeBase64] at h
    · simp only [Option.bind_eq_bind, Option.bind_eq_some_iff, Option.some_inj] at h
      obtain ⟨x, hx, y, hy, z, hz, w, hw, tail, htail, rfl⟩ := h
      obtain ⟨hx64, rfl⟩ := sextet_spec hx
      obtain ⟨hy64, rfl⟩ := sextet_spec hy
      obtain ⟨hz64, rfl⟩ := sextet_spec hz
      obtain ⟨hw64, rfl⟩ := sextet_spec hw
      rw [encodeBase64, ← ih htail, toNat_ofNat (by omega), toNat_ofNat (by omega),
        toNat_ofNat (by omega), show (x * 4 + y / 16) / 4 = x by omega,
        show (x * 4 + y / 16) % 4 * 16 + (y % 16 * 16 + z / 4) / 16 = y by omega,
        show (y % 16 * 16 + z / 4) % 16 * 4 + (z % 4 * 64 + w) / 64 = z by omega,
        show (z % 4 * 64 + w) % 64 = w by omega]
    · exact hpad
    · exact hpads
  | case5 l hnil hone htwo hmany =>
    intro bytes h
    rw [decodeBase64] at h
    · cases h
    · exact hnil
    · exact hone
    · exact htwo
    · exact hmany

/-- Bytes have one text. -/
theorem decodeBase64_inj {l m : List Char} {bytes : List UInt8} (hl : decodeBase64 l = some bytes)
    (hm : decodeBase64 m = some bytes) : l = m := by
  rw [encode_decodeBase64 hl, encode_decodeBase64 hm]

/-- The text of a blob is as long as its bytes say. -/
theorem len_of_decode {s : String} {bytes : List UInt8} (h : decodeBase64 s.toList = some bytes) :
    Text.len s = (bytes.length + 2) / 3 * 4 := by
  have hs : s = String.ofList (encodeBase64 bytes) := by
    rw [← encode_decodeBase64 h, String.ofList_toList]
  rw [hs, len_encodeBase64]

/-- **The bytes of a blob**: the bound on its text says no more than the bound on
its bytes. -/
theorem Blob.bytes_ok {blob : Blob} {bytes : List UInt8} : blob.bytes = .ok bytes ↔
    decodeBase64 blob.data.toList = some bytes ∧ bytes.length ≤ maxFileBytes := by
  simp only [Blob.bytes, bind_ok, check_ok, fetchOne_ok, pure_ok, decide_eq_true_eq]
  constructor
  · rintro ⟨_, _, _, hdecode, _, hlen, rfl⟩
    exact ⟨hdecode, hlen⟩
  · rintro ⟨hdecode, hlen⟩
    refine ⟨(), ?_, bytes, hdecode, (), hlen, rfl⟩
    rw [len_of_decode hdecode]
    omega

end Grading

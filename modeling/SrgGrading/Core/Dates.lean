import SrgGrading.Core.Revisions

/-!
# Reading dates

A date is written as RFC 3339 and read by a parser that takes four digits for the
year, and 60 for the second of a leap second.

* `dayOf_civil`: a day is read as the one that was written.
* `ofParts_scanned`: what is scanned is a date.
* `parse_rfc3339`: **a date is read as it was written**, unless its year has a
  sign.
-/

namespace Grading

/-! ### Scanning -/

/-- `scan::number`, of exactly `n` digits. -/
def scanNumber (n : Nat) (l : List Char) : Option (Nat × List Char) :=
  if (l.take n).length = n ∧ (l.take n).all Char.isDigit then
    some (Nat.ofDigitChars 10 (l.take n) 0, l.drop n)
  else none

/-- `scan::char`, for any of `cs`. -/
def scanChar (cs : List Char) : List Char → Option (Char × List Char)
  | [] => none
  | c :: rest => if cs.contains c then some (c, rest) else none

/-- `scan::nanosecond` where there is a point: nine digits count. -/
def scanFraction : List Char → Option (Nat × List Char)
  | '.' :: rest =>
    let digits := rest.takeWhile Char.isDigit
    let first := digits.take 9
    if digits = [] then none
    else some (Nat.ofDigitChars 10 first 0 * 10 ^ (9 - first.length), rest.dropWhile Char.isDigit)
  | l => some (0, l)

/-- `scan::timezone_offset`: seconds east of UTC. -/
def scanOffset (l : List Char) : Option (Int × List Char) := do
  let (sign, l) ← scanChar ['Z', 'z', '+', '-', '\u2212'] l
  if sign = 'Z' || sign = 'z' then return (0, l)
  let (hours, l) ← scanNumber 2 l
  let (_, l) ← scanChar [':'] l
  let (minutes, l) ← scanNumber 2 l
  if hours < 24 && minutes < 60 then
    return ((if sign = '+' then 1 else -1) * ((hours * 3600 + minutes * 60 : Nat) : Int), l)
  else none

/-- The day of a date, counted from 1970-01-01. -/
def dayOf (year month day : Int) : Int :=
  let y := if month ≤ 2 then year - 1 else year
  let mp := if month ≤ 2 then month + 9 else month - 3
  let yoe := y % 400
  y / 400 * 146097 + (365 * yoe + yoe / 4 - yoe / 100) + ((153 * mp + 2) / 5 + day - 1) - 719468

/-- `Parsed::to_naive_time`: the seconds of a day, and nanoseconds of which a second 60
has those of two seconds. -/
def toTime (hour minute second nanos : Nat) : Nat × Nat :=
  if second = 60 then (hour * 3600 + minute * 60 + 59, 1000000000 + nanos)
  else (hour * 3600 + minute * 60 + second, nanos)

/-- `DateTime::parse_from_rfc3339`, in UTC. -/
def parseRfc3339 (l : List Char) : Option DateTime := do
  let (year, l) ← scanNumber 4 l
  let (_, l) ← scanChar ['-'] l
  let (month, l) ← scanNumber 2 l
  let (_, l) ← scanChar ['-'] l
  let (day, l) ← scanNumber 2 l
  let (_, l) ← scanChar ['T', 't', ' '] l
  let (hour, l) ← scanNumber 2 l
  let (_, l) ← scanChar [':'] l
  let (minute, l) ← scanNumber 2 l
  let (_, l) ← scanChar [':'] l
  let (second, l) ← scanNumber 2 l
  let (nanos, l) ← scanFraction l
  let (offset, l) ← scanOffset l
  let date := dayOf year month day
  let time := toTime hour minute second nanos
  -- a date exists if it is the date of its day
  if l = [] && civil date = ((year : Int), (month : Int), (day : Int)) && hour < 24 &&
      minute < 60 && second ≤ 60 then
    DateTime.ofParts (date * 86400 + (time.1 : Int) - offset) time.2
  else none

/-! ### Dates -/

/-- The month and the day of a date are small. -/
theorem civil_range (day : Int) : (1 ≤ (civil day).2.1 ∧ (civil day).2.1 ≤ 12) ∧
    1 ≤ (civil day).2.2 ∧ (civil day).2.2 ≤ 31 := by
  have hpart : ∀ doy : Int, 1 ≤ doy - (153 * ((5 * doy + 2) / 153) + 2) / 5 + 1 ∧
      doy - (153 * ((5 * doy + 2) / 153) + 2) / 5 + 1 ≤ 31 := by
    intro doy
    omega
  obtain ⟨_, _, _, mp, _, _, hmp, _, hmonth, _, _⟩ := civil_spec day
  refine ⟨?_, hpart _⟩
  rw [hmonth]
  split <;> omega

/-- **The day of the date of a day is the day.** -/
theorem dayOf_civil (day : Int) : dayOf (civil day).1 (civil day).2.1 (civil day).2.2 = day := by
  obtain ⟨era, yoe, doy, mp, hday, hyoe, hmp, hfirst, hmonth, hyear, hdate⟩ := civil_spec day
  have hy : (if (civil day).2.1 ≤ 2 then (civil day).1 - 1 else (civil day).1) =
      yoe + era * 400 := by
    rw [hyear]
    split <;> omega
  have hm : (if (civil day).2.1 ≤ 2 then (civil day).2.1 + 9 else (civil day).2.1 - 3) = mp := by
    rw [hmonth]
    by_cases hlate : mp < 10
    · rw [if_pos hlate, if_neg (by omega)]
      omega
    · rw [if_neg hlate, if_pos (by omega)]
      omega
  have hera : (yoe + era * 400) / 400 = era := by omega
  have hyoe' : (yoe + era * 400) % 400 = yoe := by omega
  simp only [dayOf, hy, hm, hera, hyoe', hdate]
  omega

/-! ### Numbers -/

theorem scanNumber_decimal {width n : Nat} (hpos : 0 < width) (h : n < 10 ^ width)
    (r : List Char) : scanNumber width (decimal width n ++ r) = some (n, r) := by
  have hlen := length_decimal hpos h
  have htake : (decimal width n ++ r).take width = decimal width n := by
    rw [List.take_append_of_le_length hlen.ge, List.take_of_length_le hlen.le]
  have hdrop : (decimal width n ++ r).drop width = r := by
    rw [List.drop_append_of_le_length hlen.ge, List.drop_of_length_le hlen.le, List.nil_append]
  rw [scanNumber, htake, hdrop, if_pos ⟨hlen, List.all_eq_true.mpr (isDigit_decimal width n)⟩,
    value_decimal]

theorem bind_of_some {α β : Type} {o : Option α} {a : α} (h : o = some a) (f : α → Option β) :
    (o >>= f) = f a := by
  rw [h]
  rfl

theorem scanChar_of {cs : List Char} {c : Char} (h : cs.contains c = true) (r : List Char) :
    scanChar cs (c :: r) = some (c, r) := by
  rw [scanChar, if_pos h]

/-- The fraction of a second is read as it was written. -/
theorem scanFraction_text {n : Nat} (h : n < 1000000000) (r : List Char)
    (hr : Json.Delimited r) (hpoint : ∀ c ∈ r.head?, c ≠ '.') :
    scanFraction (fractionText n ++ r) = some (n, r) := by
  have hdigits : ∀ {width m : Nat}, 0 < width → width ≤ 9 → m < 10 ^ width →
      scanFraction ('.' :: (decimal width m ++ r)) = some (m * 10 ^ (9 - width), r) := by
    intro width m hpos hwidth hm
    have hlen := length_decimal hpos hm
    obtain ⟨htake, hdrop⟩ := Json.takeWhile_isDigit (isDigit_decimal width m) hr
    have hne : decimal width m ≠ [] := by
      intro hnil
      rw [hnil, List.length_nil] at hlen
      omega
    rw [scanFraction]
    simp only [htake, hdrop, List.take_of_length_le (hlen.le.trans hwidth), hlen, value_decimal,
      if_neg hne]
  rw [fractionText]
  split
  · rename_i h0
    cases r with
    | nil => rw [h0]; rfl
    | cons c r =>
      have hc := hpoint c rfl
      rw [List.nil_append, scanFraction.eq_def, h0]
      split
      · rename_i heq
        exact absurd (List.cons.inj heq).1 hc
      · rfl
  · split
    · rename_i h1
      rw [List.cons_append, hdigits (by decide) (by decide) (by omega)]
      congr 2
      omega
    · split
      · rename_i h2
        rw [List.cons_append, hdigits (by decide) (by decide) (by omega)]
        congr 2
        omega
      · rw [List.cons_append, hdigits (by decide) (by decide) (by omega)]
        congr 2
        omega

/-! ### Times -/

theorem scanNumber_sign {c : Char} (hc : c.isDigit = false) (r : List Char) :
    scanNumber 4 (c :: r) = none := by
  rw [scanNumber, if_neg]
  rintro ⟨_, hall⟩
  rw [List.take_succ_cons, List.all_cons, hc, Bool.false_and] at hall
  cases hall

/-- Hour, minute, second and fraction of a date make up its time of day. -/
theorem toTime_of_parts (d : DateTime) :
    toTime ((d.second % 86400).toNat / 3600) ((d.second % 86400).toNat / 60 % 60)
      ((d.second % 86400).toNat % 60 + d.nanos / 1000000000) (d.nanos % 1000000000) =
      ((d.second % 86400).toNat, d.nanos) := by
  obtain ⟨second, nanos, hbounded, hleap⟩ := d
  dsimp only
  rw [toTime]
  by_cases hlate : 1000000000 ≤ nanos
  · have hlast := hleap hlate
    rw [if_pos (by omega), Prod.mk.injEq]
    omega
  · rw [if_neg (by omega), Prod.mk.injEq]
    omega

theorem ofParts_self (d : DateTime) : DateTime.ofParts d.second d.nanos = some d :=
  dif_pos ⟨d.bounded, d.leap⟩

/-- A number of some digits. -/
theorem ofDigitChars_lt {l : List Char} (h : ∀ c ∈ l, c.isDigit = true) :
    Nat.ofDigitChars 10 l 0 < 10 ^ l.length := by
  induction l with
  | nil => decide
  | cons c l ih =>
    have hlow := ih fun d hd => h d (List.mem_cons_of_mem _ hd)
    have hdigit := h c List.mem_cons_self
    have hc : c.toNat - '0'.toNat ≤ 9 := by
      rw [Char.isDigit, Bool.and_eq_true, decide_eq_true_eq, decide_eq_true_eq] at hdigit
      have hle : c.toNat ≤ 57 := hdigit.2
      have hzero : '0'.toNat = 48 := rfl
      omega
    rw [Nat.ofDigitChars_cons, Nat.ofDigitChars_eq_ofDigitChars_zero, List.length_cons, pow_succ,
      Nat.mul_zero, Nat.zero_add]
    have hmul := Nat.mul_le_mul_left (10 ^ l.length) hc
    omega

/-- A fraction is less than a second. -/
theorem scanFraction_lt {l r : List Char} {nanos : Nat} (h : scanFraction l = some (nanos, r)) :
    nanos < 1000000000 := by
  rw [scanFraction.eq_def] at h
  split at h
  · rename_i rest
    dsimp only at h
    split at h
    · cases h
    · rw [Option.some_inj, Prod.mk.injEq] at h
      rw [← h.1]
      generalize hfirst : (rest.takeWhile Char.isDigit).take 9 = first
      have hdigits : ∀ c ∈ first, c.isDigit = true := by
        intro c hc
        rw [← hfirst] at hc
        exact List.all_eq_true.mp List.all_takeWhile c (List.mem_of_mem_take hc)
      have hlen : first.length ≤ 9 := by
        rw [← hfirst, List.length_take]
        exact min_le_left _ _
      calc Nat.ofDigitChars 10 first 0 * 10 ^ (9 - first.length)
          < 10 ^ first.length * 10 ^ (9 - first.length) :=
            Nat.mul_lt_mul_of_pos_right (ofDigitChars_lt hdigits) (Nat.pow_pos (by decide))
        _ = 10 ^ 9 := by rw [← pow_add, Nat.add_sub_cancel' hlen]
        _ = 1000000000 := by decide
  · cases h
    decide

/-- Offsets are minutes. -/
theorem scanOffset_minutes {l r : List Char} {offset : Int} (h : scanOffset l = some (offset, r)) :
    offset % 60 = 0 := by
  rw [scanOffset, Option.bind_eq_bind, Option.bind_eq_some_iff] at h
  obtain ⟨⟨sign, l₁⟩, _, h⟩ := h
  dsimp only at h
  by_cases hzulu : (decide (sign = 'Z') || decide (sign = 'z')) = true
  · rw [if_pos hzulu] at h
    cases h
    rfl
  · rw [if_neg hzulu] at h
    simp only [Option.bind_eq_bind, Option.bind_eq_some_iff] at h
    obtain ⟨⟨hours, l₂⟩, _, ⟨c, l₃⟩, _, ⟨minutes, l₄⟩, _, h⟩ := h
    dsimp only at h
    split at h
    · have hoffset := (Prod.mk.inj (Option.some_inj.mp h)).1
      rw [← hoffset]
      split <;> omega
    · cases h

/-- What is scanned is always the date of its parts. -/
theorem ofParts_scanned {f f' l l' : List Char} {nanos hour minute second : Nat} {date offset : Int}
    (hnanos : scanFraction f = some (nanos, f')) (hoffset : scanOffset l = some (offset, l')) :
    (DateTime.ofParts (date * 86400 + ((toTime hour minute second nanos).1 : Int) - offset)
      (toTime hour minute second nanos).2).isSome = true := by
  have hsmall := scanFraction_lt hnanos
  have hminutes := scanOffset_minutes hoffset
  rw [DateTime.ofParts, dif_pos]
  · rfl
  · rw [toTime]
    split
    · dsimp only
      omega
    · dsimp only
      omega

/-- **A date is read as it was written**, unless its year has a sign. -/
theorem parse_rfc3339 (d : DateTime) :
    parseRfc3339 (rfc3339 d) = if rfc3339Parses d then some d else none := by
  have hrange := civil_range (d.second / 86400)
  have hday := dayOf_civil (d.second / 86400)
  rw [rfc3339Parses]
  by_cases hyear : 0 ≤ (civil (d.second / 86400)).1 ∧ (civil (d.second / 86400)).1 ≤ 9999
  · rw [if_pos (by simpa using hyear)]
    have htime : (d.second % 86400).toNat < 86400 := by omega
    have hleap : (d.second % 86400).toNat % 60 + d.nanos / 1000000000 ≤ 60 := by
      have hbounded := d.bounded
      omega
    have hfraction : d.nanos % 1000000000 < 1000000000 := Nat.mod_lt _ (by decide)
    have hz : Json.Delimited ['Z'] := delimited_cons [] rfl
    have hzulu : ∀ c ∈ ['Z'].head?, c ≠ '.' := by
      intro c hc
      cases hc
      decide
    have hoffset : scanOffset ['Z'] = some (0, []) := rfl
    have hyearNat : ((civil (d.second / 86400)).1.toNat : Int) = (civil (d.second / 86400)).1 :=
      Int.toNat_of_nonneg hyear.1
    have hmonthNat : ((civil (d.second / 86400)).2.1.toNat : Int) =
        (civil (d.second / 86400)).2.1 := Int.toNat_of_nonneg (by omega)
    have hdayNat : ((civil (d.second / 86400)).2.2.toNat : Int) =
        (civil (d.second / 86400)).2.2 := Int.toNat_of_nonneg (by omega)
    have htext : rfc3339 d = decimal 4 (civil (d.second / 86400)).1.toNat ++
        ('-' :: (decimal 2 (civil (d.second / 86400)).2.1.toNat ++
        ('-' :: (decimal 2 (civil (d.second / 86400)).2.2.toNat ++
        ('T' :: (decimal 2 ((d.second % 86400).toNat / 3600) ++
        (':' :: (decimal 2 ((d.second % 86400).toNat / 60 % 60) ++
        (':' :: (decimal 2 ((d.second % 86400).toNat % 60 + d.nanos / 1000000000) ++
        (fractionText (d.nanos % 1000000000) ++ ['Z']))))))))))) := by
      simp only [rfc3339, dateTimeText, yearText, if_pos hyear, List.append_assoc,
        List.cons_append]
    have hdash : ∀ r, scanChar ['-'] ('-' :: r) = some ('-', r) := scanChar_of rfl
    have htee : ∀ r, scanChar ['T', 't', ' '] ('T' :: r) = some ('T', r) := scanChar_of rfl
    have hcolon : ∀ r, scanChar [':'] (':' :: r) = some (':', r) := scanChar_of rfl
    rw [parseRfc3339, htext]
    refine (bind_of_some (scanNumber_decimal (by decide) (by omega) _) _).trans ?_
    refine (bind_of_some (hdash _) _).trans ?_
    refine (bind_of_some (scanNumber_decimal (by decide) (by omega) _) _).trans ?_
    refine (bind_of_some (hdash _) _).trans ?_
    refine (bind_of_some (scanNumber_decimal (by decide) (by omega) _) _).trans ?_
    refine (bind_of_some (htee _) _).trans ?_
    refine (bind_of_some (scanNumber_decimal (by decide) (by omega) _) _).trans ?_
    refine (bind_of_some (hcolon _) _).trans ?_
    refine (bind_of_some (scanNumber_decimal (by decide) (by omega) _) _).trans ?_
    refine (bind_of_some (hcolon _) _).trans ?_
    refine (bind_of_some (scanNumber_decimal (by decide) (by omega) _) _).trans ?_
    refine (bind_of_some (scanFraction_text hfraction _ hz hzulu) _).trans ?_
    refine (bind_of_some hoffset _).trans ?_
    dsimp only
    rw [hyearNat, hmonthNat, hdayNat, hday, toTime_of_parts, if_pos (by
      simp only [decide_true, Bool.true_and, Bool.and_eq_true, decide_eq_true_eq]
      omega)]
    have hsecond : d.second / 86400 * 86400 + ((d.second % 86400).toNat : Int) - 0 = d.second := by
      omega
    rw [hsecond]
    exact ofParts_self d
  · rw [if_neg (by simpa using hyear), rfc3339, dateTimeText, parseRfc3339]
    simp only [yearText, if_neg hyear, List.cons_append]
    rw [scanNumber_sign (by split <;> rfl)]
    rfl

end Grading

import SrgGrading.Core.Protocol

/-!
# What the text of a revision determines

A revision is stored under the hash of its JSON.  The JSON determines it, its
dates included, so two revisions with one digest are the same one unless the
hash collides.

* `civil_inj`: year, month and day determine the day.
* `rfc3339_inj`: the text of a date determines it.
* `Revision.toJson_inj`: the JSON of a revision determines it.
-/

open Fallible

namespace Grading

/-! ### Days -/

/-- The dividend of the year of a day in its era. -/
def yearDividend (doe : Nat) : Int :=
  (doe : Int) - (doe : Int) / 1460 + (doe : Int) / 36524 - (doe : Int) / 146096

/-- The first day of a year of an era. -/
def yearStart (year : Nat) : Nat := 365 * year + year / 4 - year / 100

theorem yearDividend_mono : Monotone yearDividend := by
  refine monotone_nat_of_le_succ fun n => ?_
  rw [yearDividend, yearDividend]
  omega

/-- The dividend passes a multiple of 365 on the first day of each year. -/
theorem yearDividend_start : ∀ year : Nat, year < 400 →
    365 * (year : Int) ≤ yearDividend (yearStart year) ∧
      yearDividend (yearStart (year + 1) - 1) < 365 * ((year : Int) + 1) := by
  decide +kernel

/-- **The year of a day of an era**, and that the day is in it. -/
theorem year_spec {doe yoe : Int} (h0 : 0 ≤ doe) (hlt : doe < 146097)
    (hyoe : yoe = (doe - doe / 1460 + doe / 36524 - doe / 146096) / 365) :
    0 ≤ yoe ∧ yoe < 400 ∧ 0 ≤ doe - (365 * yoe + yoe / 4 - yoe / 100) ∧
      doe - (365 * yoe + yoe / 4 - yoe / 100) ≤ 365 := by
  have hrange : 0 ≤ yoe ∧ yoe < 400 := by omega
  obtain ⟨year, rfl⟩ := Int.eq_ofNat_of_zero_le hrange.1
  obtain ⟨day, rfl⟩ := Int.eq_ofNat_of_zero_le h0
  have hyear : year < 400 := by omega
  obtain ⟨hstart, hend⟩ := yearDividend_start year hyear
  have hbetween : 365 * (year : Int) ≤ yearDividend day ∧
      yearDividend day < 365 * ((year : Int) + 1) := by
    rw [yearDividend]
    omega
  -- a day before the year has a smaller dividend, a day after it a larger one
  have hfirst : yearStart year ≤ day := by
    by_contra hbefore
    rcases Nat.eq_zero_or_pos year with hzero | hpos
    · rw [hzero] at hbefore
      exact hbefore (Nat.zero_le day)
    · obtain ⟨previous, rfl⟩ : ∃ k, year = k + 1 := ⟨year - 1, by omega⟩
      have hprevious := (yearDividend_start previous (by omega)).2
      have hle := yearDividend_mono (show day ≤ yearStart (previous + 1) - 1 by omega)
      push_cast at hbetween
      omega
  have hlast : day ≤ yearStart year + 365 := by
    by_cases hnext : year + 1 < 400
    · by_contra hafter
      have hlength : yearStart (year + 1) ≤ yearStart year + 366 := by
        rw [yearStart, yearStart]
        omega
      have hnextStart := (yearDividend_start (year + 1) hnext).1
      have hle := yearDividend_mono (show yearStart (year + 1) ≤ day by omega)
      push_cast at hnextStart
      omega
    · -- the last year of an era ends with it
      have hlastYear : year = 399 := by omega
      rw [hlastYear, yearStart]
      omega
  rw [yearStart] at hfirst hlast
  omega

/-- The parts of a day. -/
theorem civil_spec (day : Int) : ∃ era yoe doy mp : Int,
    day + 719468 = era * 146097 + (365 * yoe + yoe / 4 - yoe / 100) + doy ∧
      (0 ≤ yoe ∧ yoe < 400) ∧ (0 ≤ mp ∧ mp < 12) ∧ 153 * mp ≤ 5 * doy + 2 ∧
      (civil day).2.1 = (if mp < 10 then mp + 3 else mp - 9) ∧
      (civil day).1 = yoe + era * 400 + (if (civil day).2.1 ≤ 2 then 1 else 0) ∧
      (civil day).2.2 = doy - (153 * mp + 2) / 5 + 1 := by
  have hdoe := Int.emod_nonneg (day + 719468) (show (146097 : Int) ≠ 0 by decide)
  have hlt := Int.emod_lt_of_pos (day + 719468) (show (0 : Int) < 146097 by decide)
  have hyear := year_spec hdoe hlt rfl
  refine ⟨(day + 719468) / 146097, _, _, _, ?_, ⟨hyear.1, hyear.2.1⟩, ⟨?_, ?_⟩, ?_, rfl, rfl, rfl⟩
  · have hdiv := Int.mul_ediv_add_emod (day + 719468) 146097
    omega
  · exact Int.ediv_nonneg (by omega) (by decide)
  · exact Int.ediv_lt_of_lt_mul (by decide) (by omega)
  · exact Int.mul_ediv_self_le (by decide)

/-- **Year, month and day determine the day.** -/
theorem civil_inj {a b : Int} (hyear : (civil a).1 = (civil b).1)
    (hmonth : (civil a).2.1.toNat = (civil b).2.1.toNat)
    (hday : (civil a).2.2.toNat = (civil b).2.2.toNat) : a = b := by
  obtain ⟨eraA, yoeA, doyA, mpA, ha, hyoeA, hmpA, hfirstA, hmA, hyA, hdA⟩ := civil_spec a
  obtain ⟨eraB, yoeB, doyB, mpB, hb, hyoeB, hmpB, hfirstB, hmB, hyB, hdB⟩ := civil_spec b
  have hmp : mpA = mpB := by
    rw [hmA, hmB] at hmonth
    by_cases hA : mpA < 10 <;> by_cases hB : mpB < 10
    · rw [if_pos hA, if_pos hB] at hmonth
      omega
    · rw [if_pos hA, if_neg hB] at hmonth
      omega
    · rw [if_neg hA, if_pos hB] at hmonth
      omega
    · rw [if_neg hA, if_neg hB] at hmonth
      omega
  have hsame : (civil a).2.1 = (civil b).2.1 := by rw [hmA, hmB, hmp]
  rw [hyA, hyB, hsame] at hyear
  have hyears : yoeA + eraA * 400 = yoeB + eraB * 400 := by
    split at hyear <;> omega
  have hyoe : yoeA = yoeB := by omega
  have hera : eraA = eraB := by omega
  have hdoy : doyA = doyB := by
    rw [hdA, hdB, hmp] at hday
    rw [hmp] at hfirstA
    omega
  rw [hyoe, hera, hdoy] at ha
  omega

/-! ### Digits -/

theorem isDigit_decimal (width n : Nat) : ∀ c ∈ decimal width n, c.isDigit = true := by
  intro c hc
  rw [decimal, List.mem_append] at hc
  rcases hc with hzero | hdigit
  · rw [List.eq_of_mem_replicate hzero]
    rfl
  · exact Nat.isDigit_of_mem_toDigits (by decide) (by decide) hdigit

theorem value_decimal (width n : Nat) : Nat.ofDigitChars 10 (decimal width n) 0 = n := by
  rw [decimal, Nat.ofDigitChars_append, Nat.ofDigitChars_replicate_zero, Nat.mul_zero,
    Nat.ofDigitChars_ten_toDigits]

theorem decimal_inj {width m n : Nat} {r r' : List Char} (hr : Json.Delimited r)
    (hr' : Json.Delimited r') (h : decimal width m ++ r = decimal width n ++ r') :
    m = n ∧ r = r' := by
  obtain ⟨hsame, hrest⟩ :=
    Json.digits_append_inj hr hr' (isDigit_decimal width m) (isDigit_decimal width n) h
  have hvalue := congrArg (fun l => Nat.ofDigitChars 10 l 0) hsame
  simp only [value_decimal] at hvalue
  exact ⟨hvalue, hrest⟩

theorem length_decimal {width n : Nat} (hpos : 0 < width) (h : n < 10 ^ width) :
    (decimal width n).length = width := by
  have hle := (Nat.length_toDigits_le_iff (b := 10) (by decide) hpos).mpr h
  rw [decimal, List.length_append, List.length_replicate]
  omega

theorem decimal_cons (width n : Nat) : ∃ c l, decimal width n = c :: l ∧ c.isDigit = true := by
  cases hd : decimal width n with
  | nil =>
    rw [decimal, List.append_eq_nil_iff] at hd
    exact absurd hd.2 Nat.toDigits_ne_nil
  | cons c l =>
    refine ⟨c, l, rfl, isDigit_decimal width n c ?_⟩
    rw [hd]
    exact List.mem_cons_self

/-! ### Times -/

theorem delimited_cons {c : Char} (r : List Char) (hc : c.isDigit = false) :
    Json.Delimited (c :: r) := by
  intro d hd
  rw [List.head?_cons, Option.mem_some_iff] at hd
  rw [← hd]
  exact hc

theorem yearText_inj {y y' : Int} {r r' : List Char}
    (h : yearText y ++ '-' :: r = yearText y' ++ '-' :: r') : y = y' ∧ r = r' := by
  have hdash := fun r => delimited_cons (c := '-') r rfl
  have hunsigned : ∀ {n : Nat} {s : Char} {l l' : List Char}, s.isDigit = false →
      decimal 4 n ++ l ≠ s :: l' := by
    intro n s l l' hs heq
    obtain ⟨c, d, hc, hdigit⟩ := decimal_cons 4 n
    rw [hc, List.cons_append, List.cons.injEq] at heq
    rw [heq.1, hs] at hdigit
    cases hdigit
  have hsign : ∀ z : Int, (if z < 0 then '-' else '+' : Char).isDigit = false := by
    intro z
    split <;> rfl
  rw [yearText, yearText] at h
  by_cases hy : 0 ≤ y ∧ y ≤ 9999
  · by_cases hy' : 0 ≤ y' ∧ y' ≤ 9999
    · rw [if_pos hy, if_pos hy'] at h
      obtain ⟨hnat, hrest⟩ := decimal_inj (hdash r) (hdash r') h
      obtain ⟨_, hr⟩ := List.cons.inj hrest
      exact ⟨by omega, hr⟩
    · rw [if_pos hy, if_neg hy', List.cons_append] at h
      exact absurd h (hunsigned (hsign y'))
  · by_cases hy' : 0 ≤ y' ∧ y' ≤ 9999
    · rw [if_neg hy, if_pos hy', List.cons_append] at h
      exact absurd h.symm (hunsigned (hsign y))
    · rw [if_neg hy, if_neg hy', List.cons_append, List.cons_append, List.cons.injEq] at h
      obtain ⟨hnat, hrest⟩ := decimal_inj (hdash r) (hdash r') h.2
      obtain ⟨_, hr⟩ := List.cons.inj hrest
      refine ⟨?_, hr⟩
      have hsame : (y < 0) = (y' < 0) := by
        have hs := h.1
        by_cases hneg : y < 0 <;> by_cases hneg' : y' < 0 <;> simp [hneg, hneg'] at hs ⊢
      have hiff : y < 0 ↔ y' < 0 := iff_of_eq hsame
      omega

/-- The fraction of a second has no, three, six or nine digits. -/
theorem fractionText_inj {m n : Nat} (hm : m < 1000000000) (hn : n < 1000000000)
    (h : fractionText m = fractionText n) : m = n := by
  have hspec : ∀ k < 1000000000, (k = 0 ∧ fractionText k = []) ∨
      (k ≠ 0 ∧ k % 1000000 = 0 ∧ fractionText k = '.' :: decimal 3 (k / 1000000) ∧
        (fractionText k).length = 4) ∨
      (k % 1000000 ≠ 0 ∧ k % 1000 = 0 ∧ fractionText k = '.' :: decimal 6 (k / 1000) ∧
        (fractionText k).length = 7) ∨
      (k % 1000 ≠ 0 ∧ fractionText k = '.' :: decimal 9 k ∧ (fractionText k).length = 10) := by
    intro k hk
    rw [fractionText]
    by_cases h0 : k = 0
    · exact Or.inl ⟨h0, if_pos h0⟩
    · rw [if_neg h0]
      by_cases h1 : k % 1000000 = 0
      · rw [if_pos h1, List.length_cons, length_decimal (by decide) (by omega)]
        exact Or.inr (Or.inl ⟨h0, h1, rfl, rfl⟩)
      · rw [if_neg h1]
        by_cases h2 : k % 1000 = 0
        · rw [if_pos h2, List.length_cons, length_decimal (by decide) (by omega)]
          exact Or.inr (Or.inr (Or.inl ⟨h1, h2, rfl, rfl⟩))
        · rw [if_neg h2, List.length_cons, length_decimal (by decide) (by omega)]
          exact Or.inr (Or.inr (Or.inr ⟨h2, rfl, rfl⟩))
  have hvalue : ∀ {w a b : Nat}, '.' :: decimal w a = '.' :: decimal w b → a = b := by
    intro w a b heq
    have hdigits := congrArg (fun l => Nat.ofDigitChars 10 l 0) (List.cons.inj heq).2
    simpa only [value_decimal] using hdigits
  have hlength := congrArg List.length h
  rcases hspec m hm with ⟨hm0, hmt⟩ | ⟨_, hm0, hmt, hml⟩ | ⟨_, hm0, hmt, hml⟩ | ⟨_, hmt, hml⟩ <;>
    rcases hspec n hn with ⟨hn0, hnt⟩ | ⟨_, hn0, hnt, hnl⟩ | ⟨_, hn0, hnt, hnl⟩ | ⟨_, hnt, hnl⟩
  all_goals first
    | (rw [hml, hnl] at hlength; omega)
    | (rw [hmt, hnl] at hlength; cases hlength)
    | (rw [hml, hnt] at hlength; cases hlength)
    | (rw [hm0, hn0])
    | (rw [hmt, hnt] at h
       have heq := hvalue h
       omega)

/-- Day, hour, minute and second determine the second. -/
theorem daytime_inj {x y : Int} (hday : x / 86400 = y / 86400)
    (hhour : (x % 86400).toNat / 3600 = (y % 86400).toNat / 3600)
    (hminute : (x % 86400).toNat / 60 % 60 = (y % 86400).toNat / 60 % 60)
    (hsecond : (x % 86400).toNat % 60 = (y % 86400).toNat % 60) : x = y := by
  omega

/-- Minute, second and fraction determine a date: a sixtieth second is a leap second. -/
theorem DateTime.eq_of_parts {a b : DateTime} (hday : a.second / 86400 = b.second / 86400)
    (hhour : (a.second % 86400).toNat / 3600 = (b.second % 86400).toNat / 3600)
    (hminute : (a.second % 86400).toNat / 60 % 60 = (b.second % 86400).toNat / 60 % 60)
    (hsecond : (a.second % 86400).toNat % 60 + a.nanos / 1000000000 =
      (b.second % 86400).toNat % 60 + b.nanos / 1000000000)
    (hnanos : a.nanos % 1000000000 = b.nanos % 1000000000) : a = b := by
  obtain ⟨x, m, hm, hx⟩ := a
  obtain ⟨y, n, hn, hy⟩ := b
  simp only [DateTime.mk.injEq]
  dsimp only at hday hhour hminute hsecond hnanos
  have hcarry : m / 1000000000 = n / 1000000000 := by
    by_cases hlate : 1000000000 ≤ m
    · have hlast := hx hlate
      by_cases hlate' : 1000000000 ≤ n
      · omega
      · omega
    · by_cases hlate' : 1000000000 ≤ n
      · have hlast := hy hlate'
        omega
      · omega
  refine ⟨daytime_inj hday hhour hminute ?_, ?_⟩
  · omega
  · omega

/-- **The text of a date determines it.** -/
theorem rfc3339_inj {a b : DateTime} (h : rfc3339 a = rfc3339 b) : a = b := by
  have hdash := fun r => delimited_cons (c := '-') r rfl
  have htee := fun r => delimited_cons (c := 'T') r rfl
  have hcolon := fun r => delimited_cons (c := ':') r rfl
  have hfraction : ∀ n, Json.Delimited (fractionText n ++ ['Z']) := by
    intro n
    rw [fractionText]
    split
    · exact delimited_cons _ rfl
    · split
      · exact delimited_cons _ rfl
      · split <;> exact delimited_cons _ rfl
  have hcons : ∀ {c : Char} {r r' : List Char}, c :: r = c :: r' → r = r' := fun h =>
    (List.cons.inj h).2
  simp only [rfc3339, dateTimeText, List.append_assoc, List.cons_append] at h
  obtain ⟨hyear, h⟩ := yearText_inj h
  obtain ⟨hmonth, h⟩ := decimal_inj (hdash _) (hdash _) h
  obtain ⟨hday, h⟩ := decimal_inj (htee _) (htee _) (hcons h)
  obtain ⟨hhour, h⟩ := decimal_inj (hcolon _) (hcolon _) (hcons h)
  obtain ⟨hminute, h⟩ := decimal_inj (hcolon _) (hcolon _) (hcons h)
  obtain ⟨hsecond, h⟩ := decimal_inj (hfraction _) (hfraction _) (hcons h)
  have hdays := civil_inj hyear hmonth hday
  have hnanos := fractionText_inj (Nat.mod_lt _ (by decide)) (Nat.mod_lt _ (by decide))
    (List.append_cancel_right h)
  exact DateTime.eq_of_parts hdays hhour hminute hsecond hnanos

/-! ### Revisions -/

theorem dateTimeJson_inj {a b : DateTime} (h : dateTimeJson a = dateTimeJson b) : a = b := by
  rw [dateTimeJson, dateTimeJson, Json.str.injEq] at h
  exact rfc3339_inj h

theorem stringsJson_inj {l l' : List String} (h : stringsJson l = stringsJson l') : l = l' :=
  arr_inj stringJson_inj h

/-- A member that may be left out, before members with other keys. -/
theorem memberIfSome_append_inj {α : Type} {key : String} {f : α → Json}
    (hf : ∀ {a b}, f a = f b → a = b) {o o' : Option α} {r r' : List (List Char × Json)}
    (hr : ∀ m ∈ r.head?, m.1 ≠ key.toList) (hr' : ∀ m ∈ r'.head?, m.1 ≠ key.toList)
    (h : memberIfSome key f o ++ r = memberIfSome key f o' ++ r') : o = o' ∧ r = r' := by
  cases o with
  | none =>
    cases o' with
    | none => exact ⟨rfl, h⟩
    | some b =>
      rw [memberIfSome, memberIfSome, List.nil_append, List.singleton_append] at h
      exact absurd rfl (hr (member key (f b)) (by rw [h]; rfl))
  | some a =>
    cases o' with
    | none =>
      rw [memberIfSome, memberIfSome, List.nil_append, List.singleton_append] at h
      exact absurd rfl (hr' (member key (f a)) (by rw [← h]; rfl))
    | some b =>
      simp only [memberIfSome, member, List.singleton_append, List.cons.injEq, Prod.mk.injEq,
        true_and] at h
      exact ⟨congrArg some (hf h.1), h.2⟩

theorem ScorePolicy.toJson_inj {a b : ScorePolicy} (h : a.toJson = b.toJson) : a = b := by
  simp only [ScorePolicy.toJson, member, Json.obj.injEq, List.cons.injEq, Prod.mk.injEq, true_and,
    and_true] at h
  cases a
  cases b
  simp only [ScorePolicy.mk.injEq]
  exact ⟨stringJson_inj h.1, stringJson_inj h.2⟩

theorem Assignment.toJson_inj {a b : Assignment} (h : a.toJson = b.toJson) : a = b := by
  simp only [Assignment.toJson, member, Json.obj.injEq, List.cons.injEq, Prod.mk.injEq, true_and,
    and_true, Json.num.injEq] at h
  obtain ⟨htitle, hopens, hdeadline, hbranch, htemplate, hrevision, himage, hintegrity, htests,
    hprofile, hpoints, htimeout, hresources, hscore⟩ := h
  cases a
  cases b
  simp only [Assignment.mk.injEq]
  exact ⟨stringJson_inj htitle, dateTimeJson_inj hopens, dateTimeJson_inj hdeadline,
    stringJson_inj hbranch, stringJson_inj htemplate, stringJson_inj hrevision,
    stringJson_inj himage, stringJson_inj hintegrity, stringJson_inj htests,
    stringJson_inj hprofile, hpoints, natJson_inj htimeout, Resources.toJson_inj hresources,
    ScorePolicy.toJson_inj hscore⟩

theorem ProtectedFile.toJson_inj {a b : ProtectedFile} (h : a.toJson = b.toJson) : a = b := by
  simp only [ProtectedFile.toJson, member, Json.obj.injEq, List.cons.injEq, Prod.mk.injEq,
    true_and, and_true] at h
  cases a
  cases b
  simp only [ProtectedFile.mk.injEq]
  exact ⟨stringJson_inj h.1, stringJson_inj h.2⟩

theorem Manifest.toJson_inj {a b : Manifest} (h : a.toJson = b.toJson) : a = b := by
  simp only [Manifest.toJson, member, Json.obj.injEq, List.cons.injEq, Prod.mk.injEq, true_and,
    and_true] at h
  obtain ⟨hschema, hrevision, heditable, hfiles⟩ := h
  have hentry : Function.Injective
      (fun e : String × ProtectedFile => (e.1.toList, e.2.toJson)) := by
    intro e e' he
    rw [Prod.mk.injEq] at he
    exact Prod.ext (String.toList_inj.mp he.1) (ProtectedFile.toJson_inj he.2)
  cases a
  cases b
  simp only [Manifest.mk.injEq]
  exact ⟨natJson_inj hschema, stringJson_inj hrevision, stringsJson_inj heditable,
    OrderedMap.ext (List.map_injective_iff.mpr hentry hfiles)⟩

theorem ScriptTests.toJson_inj {a b : ScriptTests} (h : a.toJson = b.toJson) : a = b := by
  simp only [ScriptTests.toJson, member, Json.obj.injEq, List.cons.injEq, Prod.mk.injEq, true_and,
    and_true] at h
  cases a
  cases b
  rw [ScriptTests.mk.injEq]
  exact natJson_inj h

theorem CacheMode.toJson_inj {a b : CacheMode} (h : a.toJson = b.toJson) : a = b := by
  have hne : "read_only" ≠ "private_copy" := by decide
  cases a <;> cases b
  · rfl
  · exact absurd (stringJson_inj h) hne
  · exact absurd (stringJson_inj h).symm hne
  · rfl

theorem CacheArtifact.toJson_inj {a b : CacheArtifact} (h : a.toJson = b.toJson) : a = b := by
  simp only [CacheArtifact.toJson, member, Json.obj.injEq, List.cons.injEq, Prod.mk.injEq,
    true_and, and_true] at h
  obtain ⟨hname, hpath, hmount, hmode, hsize⟩ := h
  cases a
  cases b
  simp only [CacheArtifact.mk.injEq]
  exact ⟨stringJson_inj hname, stringJson_inj hpath, stringJson_inj hmount,
    CacheMode.toJson_inj hmode, natJson_inj hsize⟩

theorem Caching.toJson_inj {a b : Caching} (h : a.toJson = b.toJson) : a = b := by
  simp only [Caching.toJson, member, Json.obj.injEq, List.cons.injEq, Prod.mk.injEq, true_and,
    and_true] at h
  obtain ⟨hversion, hdir, hcommand, htimeout, hresources, harchitecture, hartifacts⟩ := h
  cases a
  cases b
  simp only [Caching.mk.injEq]
  exact ⟨natJson_inj hversion, stringJson_inj hdir, stringsJson_inj hcommand,
    natJson_inj htimeout, Resources.toJson_inj hresources, stringJson_inj harchitecture,
    arr_inj CacheArtifact.toJson_inj hartifacts⟩

theorem Seed.toJson_inj {a b : Seed} (h : a.toJson = b.toJson) : a = b := by
  simp only [Seed.toJson, member, Json.obj.injEq, List.cons.injEq, Prod.mk.injEq, true_and,
    and_true] at h
  obtain ⟨hconfig, hkey, hdigest, hnamespace, hpvc⟩ := h
  cases a
  cases b
  simp only [Seed.mk.injEq]
  exact ⟨Caching.toJson_inj hconfig, stringJson_inj hkey, stringJson_inj hdigest,
    stringJson_inj hnamespace, stringJson_inj hpvc⟩

theorem Workflow.toJson_inj {a b : Workflow} (h : a.toJson = b.toJson) : a = b := by
  simp only [Workflow.toJson, member, Json.obj.injEq, List.cons.injEq, Prod.mk.injEq, true_and,
    and_true] at h
  obtain ⟨hpublic, hprivate⟩ := h
  obtain ⟨_, privateA⟩ := a
  obtain ⟨_, privateB⟩ := b
  have hcommand : privateA = privateB := by
    cases privateA <;> cases privateB
    · rfl
    · cases hprivate
    · cases hprivate
    · exact congrArg some (stringsJson_inj hprivate)
  simp only [Workflow.mk.injEq]
  exact ⟨stringsJson_inj hpublic, hcommand⟩

theorem Grader.toJson_inj {a b : Grader} (h : a.toJson = b.toJson) : a = b := by
  simp only [Grader.toJson, Json.obj.injEq, List.append_assoc, List.cons_append,
    List.nil_append] at h
  have hworkflow : ∀ (o : Option Workflow),
      ∀ m ∈ (memberIfSome "workflow" Workflow.toJson o).head?, m.1 ≠ "source_digest".toList := by
    intro o m hm
    cases o with
    | none => cases hm
    | some w =>
      rw [memberIfSome, List.head?_cons, Option.mem_some_iff] at hm
      rw [← hm]
      change "workflow".toList ≠ "source_digest".toList
      decide
  have hrepository : ∀ (v : Json) (r : List (List Char × Json)),
      ∀ m ∈ (member "repository" v :: r).head?, m.1 ≠ "caching".toList := by
    intro v r m hm
    rw [List.head?_cons, Option.mem_some_iff] at hm
    rw [← hm]
    change "repository".toList ≠ "caching".toList
    decide
  obtain ⟨hcaching, h⟩ :=
    memberIfSome_append_inj Seed.toJson_inj (hrepository _ _) (hrepository _ _) h
  simp only [member, List.cons.injEq, Prod.mk.injEq, true_and] at h
  obtain ⟨hrepo, hrevision, himage, h⟩ := h
  obtain ⟨hsource, h⟩ := memberIfSome_append_inj stringJson_inj (hworkflow _) (hworkflow _) h
  cases a
  cases b
  simp only [Grader.mk.injEq]
  exact ⟨hcaching, stringJson_inj hrepo, stringJson_inj hrevision, stringJson_inj himage, hsource,
    memberIfSome_inj Workflow.toJson_inj h⟩

/-- **A revision is determined by its JSON.** -/
theorem Revision.toJson_inj {a b : Revision} (h : a.toJson = b.toJson) : a = b := by
  simp only [Revision.toJson, member, Json.obj.injEq, List.cons_append, List.nil_append,
    List.cons.injEq, Prod.mk.injEq, true_and] at h
  obtain ⟨hcourse, hid, hassignment, hmanifest, htests, hgrader⟩ := h
  cases a
  cases b
  simp only [Revision.mk.injEq]
  exact ⟨stringJson_inj hcourse, stringJson_inj hid, Assignment.toJson_inj hassignment,
    Manifest.toJson_inj hmanifest, ScriptTests.toJson_inj htests,
    memberIfSome_inj Grader.toJson_inj hgrader⟩

/-- Revisions with one digest are the same one, where the hash does not collide. -/
theorem Revision.digest_inj [Sha256] {inputs : List UInt8 → Prop} (hcf : CollisionFree inputs)
    {a b : Revision} (ha : inputs (toVec a.toJson)) (hb : inputs (toVec b.toJson))
    (h : a.digest = b.digest) : a = b :=
  Revision.toJson_inj (toVec_inj (hcf.eq ha hb h))

end Grading

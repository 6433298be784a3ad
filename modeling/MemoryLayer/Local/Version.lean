import MemoryLayer.Lib.Decimal
import MemoryLayer.Local.Path
import Mathlib.Data.Nat.Log

namespace MemoryLayer.Local

open Decimal

/-! # Version strings

A version is the time of its making, as RFC 3339 writes it with nanoseconds, and a random suffix.  Zeros
at the end of the fraction of a second are left out, so the letter after it comes earlier for some times
than for others.

- `Instant`, `Instant.Before`: points in time, by date and time of day.
- `appendInt`, `appendNano`, `formatRFC3339Nano`, `newVersion`: the version of an instant.
- `Swallows`, `YearsSort`, `Sortable`: when the order of two instants is that of their versions.
- `newVersion_lt_iff`: **it is so exactly for sortable instants.**
-/

/-- A point in time: date and time of day, in UTC. -/
structure Instant where
  year : Int
  month : Nat
  day : Nat
  hour : Nat
  minute : Nat
  second : Nat
  nanosecond : Nat
  month_le : month ≤ 12
  day_le : day ≤ 31
  hour_lt : hour < 24
  minute_lt : minute < 60
  second_lt : second < 60
  nanosecond_lt : nanosecond < 10 ^ 9
  deriving DecidableEq

/-- The first instant is before the second. -/
def Instant.Before (t t' : Instant) : Prop :=
  t.year < t'.year ∨ t.year = t'.year ∧ (t.month < t'.month ∨ t.month = t'.month ∧ (t.day < t'.day
    ∨ t.day = t'.day ∧ (t.hour < t'.hour ∨ t.hour = t'.hour ∧ (t.minute < t'.minute
      ∨ t.minute = t'.minute ∧ (t.second < t'.second
        ∨ t.second = t'.second ∧ t.nanosecond < t'.nanosecond)))))

instance (t t' : Instant) : Decidable (t.Before t') := inferInstanceAs (Decidable (_ ∨ _))

/-! ### Formatting -/

/-- A number with at least so many digits. -/
def appendInt (x : Int) (width : Nat) : GoString :=
  (if x < 0 then text "-" else []) ++ digits (max width (Nat.log 10 x.natAbs + 1)) x.natAbs

/-- The fraction of a second, without zeros at the end. -/
def appendNano (nanosecond : Nat) : GoString :=
  if nanosecond = 0 then [] else 46 :: trim (appendInt nanosecond 9)

/-- Time in the layout `time.RFC3339Nano`, in UTC. -/
def formatRFC3339Nano (t : Instant) : GoString :=
  appendInt t.year 4 ++ 45 :: (appendInt t.month 2 ++ 45 :: (appendInt t.day 2 ++ 84 ::
    (appendInt t.hour 2 ++ 58 :: (appendInt t.minute 2 ++ 58 :: (appendInt t.second 2 ++
      (appendNano t.nanosecond ++ [90]))))))

/-- A hexadecimal digit. -/
def hexDigit (n : Nat) : UInt8 := if n < 10 then UInt8.ofNat (48 + n) else UInt8.ofNat (87 + n)

/-- `hex.EncodeToString`. -/
def hex (bytes : List UInt8) : GoString :=
  bytes.flatMap fun b => [hexDigit (b.toNat / 16), hexDigit (b.toNat % 16)]

/-- The three random bytes of a version. -/
abbrev Suffix := UInt8 × UInt8 × UInt8

/-- The version for an instant. -/
def newVersion (t : Instant) (suffix : Suffix) : GoString :=
  formatRFC3339Nano t ++ 45 :: hex [suffix.1, suffix.2.1, suffix.2.2]

/-! ### Sortable instants -/

/-- The second fraction is as far after the first as the zeros at the end of the first reach. -/
def Swallows (m n : Nat) : Prop := ∃ k < 10, m % 10 ^ k = 0 ∧ n < m + 10 ^ k

instance (m n : Nat) : Decidable (Swallows m n) :=
  inferInstanceAs (Decidable (∃ k < 10, m % 10 ^ k = 0 ∧ n < m + 10 ^ k))

/-- How many digits a year is written with. -/
def yearWidth (year : Int) : Nat := max 4 (Nat.log 10 year.natAbs + 1)

/-- The order of different years is that of their digits. -/
def YearsSort (y y' : Int) : Prop :=
  if y < 0 then
    0 ≤ y' ∨ y.natAbs / 10 ^ (yearWidth y - yearWidth y') < y'.natAbs
  else y.natAbs ≤ y'.natAbs / 10 ^ (yearWidth y' - yearWidth y)

instance (y y' : Int) : Decidable (YearsSort y y') := by
  unfold YearsSort
  infer_instance

/-- The instants are in the same second. -/
def Instant.SameSecond (t t' : Instant) : Prop :=
  t.year = t'.year ∧ t.month = t'.month ∧ t.day = t'.day ∧ t.hour = t'.hour ∧ t.minute = t'.minute
    ∧ t.second = t'.second

instance (t t' : Instant) : Decidable (t.SameSecond t') := inferInstanceAs (Decidable (_ ∧ _))

/-- The order of the instants is that of their versions. -/
def Sortable (t t' : Instant) : Prop :=
  (t.year = t'.year ∨ YearsSort t.year t'.year)
    ∧ ¬ (t.SameSecond t' ∧ Swallows t.nanosecond t'.nanosecond)

instance (t t' : Instant) : Decidable (Sortable t t') := inferInstanceAs (Decidable (_ ∧ _))

/-! ### Fixed width -/

theorem log_lt {n w : Nat} (hw : 0 < w) (h : n < 10 ^ w) : Nat.log 10 n + 1 ≤ w := by
  by_cases hn : n = 0
  · subst hn
    exact hw
  · exact (Nat.log_lt_iff_lt_pow (by decide) hn).mpr h

theorem appendInt_eq {n w : Nat} (hw : 0 < w) (h : n < 10 ^ w) : appendInt n w = digits w n := by
  have hlog := log_lt hw h
  rw [appendInt, if_neg (by omega), Int.natAbs_natCast, Nat.max_eq_left hlog, List.nil_append]

/-- Two digits, followed by the same character. -/
theorem field_lt {a b : Nat} (ha : a < 100) (hb : b < 100) (c : UInt8) (x y : GoString) :
    appendInt a 2 ++ c :: x < appendInt b 2 ++ c :: y ↔ a < b ∨ a = b ∧ x < y := by
  rw [appendInt_eq (by decide) (by omega), appendInt_eq (by decide) (by omega),
    digits_append_lt (by omega) (by omega), List.cons_lt_cons_iff]
  simp

/-! ### The fraction of a second -/

/-- The letter does not come before a digit. -/
theorem not_letter_lt_digits {w : Nat} (hw : 0 < w) (n : Nat) (x y : GoString) :
    ¬ (90 :: y < digits w n ++ x) := by
  obtain ⟨w, rfl⟩ : ∃ v, w = v + 1 := ⟨w - 1, by omega⟩
  have hletter : (90 : UInt8).toNat = 90 := rfl
  rw [digits, List.cons_append, List.cons_lt_cons_iff, UInt8.lt_iff_toNat_lt, toNat_byte, ← UInt8.toNat_inj,
    toNat_byte]
  omega

/-- Fractions that are not zero, as they are written. -/
theorem trimmed_lt {m n z z' a a' : Nat} (hmn : m < n) (hn : n < 10 ^ 9) (hz : z < 9) (hz' : z' < 9)
    (hm : m = a * 10 ^ z) (hn' : n = a' * 10 ^ z') (x y : GoString) :
    digits (9 - z) a ++ 90 :: x < digits (9 - z') a' ++ 90 :: y ↔ ¬ n < m + 10 ^ z := by
  have hpow : ∀ w, 0 < 10 ^ w := fun w => Nat.pow_pos (by decide)
  have hsize : ∀ {w b}, w < 9 → b * 10 ^ w < 10 ^ 9 → b < 10 ^ (9 - w) := by
    intro w b hw hlt
    have hsplit : 10 ^ 9 = 10 ^ (9 - w) * 10 ^ w := by
      rw [← pow_add]
      congr 1
      omega
    rw [hsplit] at hlt
    exact Nat.lt_of_mul_lt_mul_right hlt
  have ha : a < 10 ^ (9 - z) := hsize hz (by omega)
  have ha' : a' < 10 ^ (9 - z') := hsize hz' (by omega)
  have hnext : m + 10 ^ z = (a + 1) * 10 ^ z := by
    rw [hm, Nat.add_mul, Nat.one_mul]
  rcases Nat.lt_or_ge z z' with hlt | hge
  · -- the second ends earlier, and its digits are larger
    obtain ⟨d, rfl⟩ : ∃ d, z' = z + d := ⟨z' - z, by omega⟩
    have hlarger : a < a' * 10 ^ d := by
      rw [hm, hn', pow_add, mul_comm (10 ^ z), ← mul_assoc] at hmn
      exact Nat.lt_of_mul_lt_mul_right hmn
    have hwidth : 9 - z = 9 - (z + d) + d := by omega
    rw [hwidth] at ha
    have hdiv : a / 10 ^ d < a' := Nat.div_lt_of_lt_mul (by rwa [mul_comm])
    rw [hwidth, longer_append_lt_digits ha ha', iff_true_left (.inl hdiv), hnext, hn', pow_add,
      mul_comm (10 ^ z), ← mul_assoc, not_lt]
    exact Nat.mul_le_mul_right _ hlarger
  · -- the second has the same digits or more: it swallows the first unless one of them is larger
    obtain ⟨d, rfl⟩ : ∃ d, z = z' + d := ⟨z - z', by omega⟩
    have hwidth : 9 - z' = 9 - (z' + d) + d := by omega
    rw [hwidth] at ha'
    have hletter : ¬ (a = a' / 10 ^ d ∧ 90 :: x < digits d a' ++ 90 :: y) := by
      rintro ⟨heq, hlt⟩
      rcases Nat.eq_zero_or_pos d with rfl | hd
      · rw [pow_zero, Nat.div_one] at heq
        rw [hm, hn', heq] at hmn
        exact absurd hmn (Nat.lt_irrefl _)
      · exact not_letter_lt_digits hd a' _ _ hlt
    rw [hwidth, digits_append_lt_longer ha ha', or_iff_left hletter, hnext, hn', not_lt, pow_add,
      mul_comm (10 ^ z'), ← mul_assoc, Nat.mul_le_mul_right_iff (hpow z'), ← Nat.le_div_iff_mul_le (hpow d)]
    exact Iff.rfl

/-- **The order of fractions is that of the numbers, unless the first swallows the second.** -/
theorem appendNano_lt {m n : Nat} (hmn : m < n) (hn : n < 10 ^ 9) (x y : GoString) :
    appendNano m ++ 90 :: x < appendNano n ++ 90 :: y ↔ ¬ Swallows m n := by
  have hwrite : ∀ {k}, 0 < k → k < 10 ^ 9 → ∃ z a, z < 9 ∧ k = a * 10 ^ z ∧ a % 10 ≠ 0
      ∧ appendNano k = 46 :: digits (9 - z) a := by
    intro k hpos hlt
    obtain ⟨z, a, hz, hk, ha, htrim⟩ := trim_digits hpos hlt
    refine ⟨z, a, hz, hk, ha, ?_⟩
    rw [appendNano, if_neg (by omega), appendInt_eq (by decide) hlt, htrim]
  obtain ⟨z', a', hz', hn', -, hwrite'⟩ := hwrite (Nat.zero_lt_of_lt hmn) hn
  rcases Nat.eq_zero_or_pos m with rfl | hm
  · -- without a fraction the letter comes at once
    rw [hwrite', appendNano, if_pos rfl]
    have hnot : ¬ ([] ++ 90 :: x < (46 :: digits (9 - z') a') ++ 90 :: y) := by
      rw [List.nil_append, List.cons_append, List.cons_lt_cons_iff]
      rintro (h | ⟨h, -⟩)
      · exact absurd h (by decide)
      · exact absurd h (by decide)
    exact iff_of_false hnot fun h => h ⟨9, by decide, by decide, by omega⟩
  · obtain ⟨z, a, hz, hm', ha, hwrite⟩ := hwrite hm (by omega)
    rw [hwrite, hwrite', List.cons_append, List.cons_append, List.cons_lt_cons_iff]
    have hdot : ¬ ((46 : UInt8) < 46) := by decide
    rw [or_iff_right hdot, and_iff_right rfl, trimmed_lt hmn hn hz hz' hm' hn']
    refine not_congr ⟨fun h => ⟨z, by omega, by rw [hm']; exact Nat.mul_mod_left .., h⟩, ?_⟩
    rintro ⟨k, hk, hdvd, hlt⟩
    rcases Nat.lt_or_ge z k with hzk | hkz
    · -- there is no further factor of ten
      obtain ⟨d, rfl⟩ : ∃ d, k = z + 1 + d := ⟨k - z - 1, by omega⟩
      have hfactor : 10 ^ z * 10 ∣ 10 ^ z * a := by
        rw [mul_comm _ a, ← hm', ← pow_succ]
        exact Nat.dvd_trans (pow_dvd_pow 10 (by omega)) (Nat.dvd_of_mod_eq_zero hdvd)
      have hten := Nat.dvd_of_mul_dvd_mul_left (Nat.pow_pos (by decide)) hfactor
      exact absurd (Nat.mod_eq_zero_of_dvd hten) ha
    · have hle : 10 ^ k ≤ 10 ^ z := Nat.pow_le_pow_right (by decide) hkz
      omega

/-! ### Years -/

theorem natAbs_lt_pow_yearWidth (y : Int) : y.natAbs < 10 ^ yearWidth y := by
  have hlog := Nat.lt_pow_succ_log_self (b := 10) (by decide) y.natAbs
  exact Nat.lt_of_lt_of_le hlog (Nat.pow_le_pow_right (by decide) (Nat.le_max_right ..))

theorem yearWidth_le {y y' : Int} (h : y.natAbs ≤ y'.natAbs) : yearWidth y ≤ yearWidth y' := by
  have hlog := Nat.log_mono_right (b := 10) h
  unfold yearWidth
  omega

/-- The dash comes before a digit. -/
theorem dash_lt_digits {w : Nat} (hw : 0 < w) (n : Nat) (x y : GoString) :
    45 :: x < digits w n ++ y ∧ ¬ (digits w n ++ y < 45 :: x) := by
  obtain ⟨w, rfl⟩ : ∃ v, w = v + 1 := ⟨w - 1, by omega⟩
  have hdash : (45 : UInt8).toNat = 45 := rfl
  rw [digits, List.cons_append, List.cons_lt_cons_iff, List.cons_lt_cons_iff, UInt8.lt_iff_toNat_lt,
    UInt8.lt_iff_toNat_lt, toNat_byte, ← UInt8.toNat_inj, ← UInt8.toNat_inj, toNat_byte]
  omega

/-- Years that are not negative: the later one may have more digits. -/
theorem digits_year_lt {y y' : Int} (h : y.natAbs < y'.natAbs) (x x' : GoString) :
    digits (yearWidth y) y.natAbs ++ 45 :: x < digits (yearWidth y') y'.natAbs ++ 45 :: x'
      ↔ y.natAbs ≤ y'.natAbs / 10 ^ (yearWidth y' - yearWidth y) := by
  have hy := natAbs_lt_pow_yearWidth y
  have hy' := natAbs_lt_pow_yearWidth y'
  have hwidth := yearWidth_le (Nat.le_of_lt h)
  obtain ⟨d, hd⟩ : ∃ d, yearWidth y' = yearWidth y + d := ⟨yearWidth y' - yearWidth y, by omega⟩
  rw [hd] at hy' ⊢
  rw [digits_append_lt_longer hy hy', Nat.add_sub_cancel_left]
  rcases Nat.eq_zero_or_pos d with rfl | hpos
  · rw [pow_zero, Nat.div_one]
    exact iff_of_true (.inl h) (Nat.le_of_lt h)
  · rw [and_iff_left (dash_lt_digits hpos _ _ _).1, ← Nat.le_iff_lt_or_eq]

/-- Negative years: the earlier one may have more digits. -/
theorem digits_year_gt {y y' : Int} (h : y'.natAbs < y.natAbs) (x x' : GoString) :
    digits (yearWidth y) y.natAbs ++ 45 :: x < digits (yearWidth y') y'.natAbs ++ 45 :: x'
      ↔ y.natAbs / 10 ^ (yearWidth y - yearWidth y') < y'.natAbs := by
  have hy := natAbs_lt_pow_yearWidth y
  have hy' := natAbs_lt_pow_yearWidth y'
  have hwidth := yearWidth_le (Nat.le_of_lt h)
  obtain ⟨d, hd⟩ : ∃ d, yearWidth y = yearWidth y' + d := ⟨yearWidth y - yearWidth y', by omega⟩
  rw [hd] at hy ⊢
  rw [longer_append_lt_digits hy hy', Nat.add_sub_cancel_left]
  refine or_iff_left ?_
  rintro ⟨heq, hlt⟩
  rcases Nat.eq_zero_or_pos d with rfl | hpos
  · rw [pow_zero, Nat.div_one] at heq
    omega
  · exact (dash_lt_digits hpos _ _ _).2 hlt

/-- **Different years, followed by a dash.** -/
theorem appendInt_year_lt {y y' : Int} (h : y < y') (x x' : GoString) :
    appendInt y 4 ++ 45 :: x < appendInt y' 4 ++ 45 :: x' ↔ YearsSort y y' := by
  have hwrite : ∀ y : Int, appendInt y 4 = (if y < 0 then text "-" else [])
      ++ digits (yearWidth y) y.natAbs := fun y => rfl
  have hpos : ∀ y, 0 < yearWidth y := fun y => by
    unfold yearWidth
    omega
  rw [hwrite, hwrite, YearsSort]
  by_cases hy : y < 0
  · rw [if_pos hy, if_pos hy]
    by_cases hy' : y' < 0
    · rw [if_pos hy', or_iff_right (by omega), ← digits_year_gt (by omega) x x']
      exact List.cons_lt_cons_iff.trans (by simp)
    · rw [if_neg hy']
      refine iff_of_true ?_ (.inl (by omega))
      exact (dash_lt_digits (hpos y') _ _ _).1
  · rw [if_neg hy, if_neg hy, if_neg (by omega), List.nil_append, List.nil_append,
      digits_year_lt (by omega)]

/-! ### Versions -/

theorem append_lt_append (p x y : GoString) : p ++ x < p ++ y ↔ x < y := by
  induction p with
  | nil => rfl
  | cons c p ih => rw [List.cons_append, List.cons_append, List.cons_lt_cons_self, ih]

/-- **The order of two instants is that of their versions exactly when they are sortable**, whatever the
    suffixes. -/
theorem newVersion_lt_iff {t t' : Instant} (h : t.Before t') (suffix suffix' : Suffix) :
    newVersion t suffix < newVersion t' suffix' ↔ Sortable t t' := by
  have hassoc : ∀ (t : Instant) (suffix : Suffix), newVersion t suffix
      = appendInt t.year 4 ++ 45 :: (appendInt t.month 2 ++ 45 :: (appendInt t.day 2 ++ 84 ::
        (appendInt t.hour 2 ++ 58 :: (appendInt t.minute 2 ++ 58 :: (appendInt t.second 2 ++
          (appendNano t.nanosecond ++ 90 :: 45 :: hex [suffix.1, suffix.2.1, suffix.2.2])))))) := by
    intro t suffix
    simp [newVersion, formatRFC3339Nano]
  rw [hassoc, hassoc]
  rcases h with hyear | ⟨hyear, hrest⟩
  · rw [appendInt_year_lt hyear, Sortable, or_iff_right (by omega)]
    exact (and_iff_left fun hsame => absurd hsame.1.1 (by omega)).symm
  · have hmonth := t.month_le
    have hmonth' := t'.month_le
    have hday := t.day_le
    have hday' := t'.day_le
    have hhour := t.hour_lt
    have hhour' := t'.hour_lt
    have hminute := t.minute_lt
    have hminute' := t'.minute_lt
    have hsecond := t.second_lt
    have hsecond' := t'.second_lt
    rw [hyear, append_lt_append, List.cons_lt_cons_self, field_lt (by omega) (by omega),
      field_lt (by omega) (by omega), field_lt (by omega) (by omega), field_lt (by omega) (by omega),
      appendInt_eq (by decide) (by omega), appendInt_eq (by decide) (by omega),
      digits_append_lt (by omega) (by omega)]
    -- the fractions count only within one second
    have hnano := fun hlt => appendNano_lt (m := t.nanosecond) hlt t'.nanosecond_lt
      (45 :: hex [suffix.1, suffix.2.1, suffix.2.2]) (45 :: hex [suffix'.1, suffix'.2.1, suffix'.2.2])
    unfold Sortable Instant.SameSecond
    grind

end MemoryLayer.Local

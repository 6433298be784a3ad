import Mathlib.Algebra.Order.Ring.Nat
import Mathlib.Data.List.DropRight

namespace Decimal

/-! # Decimal digits and the order of byte strings

Numbers that are written with a fixed number of digits are ordered as byte strings.

- `digits`: the last digits of a number, as ASCII bytes.
- `digits_append_lt`: **the order of digits, followed by anything.**
- `digits_add`, `digits_append_lt_longer`, `longer_append_lt_digits`: digits in two parts.
- `trim`, `trim_digits`: digits without zeros at the end.
-/

/-- The ASCII byte for a digit. -/
def byte (n : Nat) : UInt8 := UInt8.ofNat (48 + n % 10)

/-- The last `w` decimal digits of `n`. -/
def digits : Nat → Nat → List UInt8
  | 0, _ => []
  | w + 1, n => byte (n / 10 ^ w) :: digits w n

theorem toNat_byte (n : Nat) : (byte n).toNat = 48 + n % 10 := by
  have := Nat.mod_lt n (show 10 > 0 by decide)
  rw [byte, UInt8.toNat_ofNat', Nat.mod_eq_of_lt (by omega)]

theorem byte_lt_byte {m n : Nat} : byte m < byte n ↔ m % 10 < n % 10 := by
  rw [UInt8.lt_iff_toNat_lt, toNat_byte, toNat_byte]
  omega

theorem byte_eq_byte {m n : Nat} : byte m = byte n ↔ m % 10 = n % 10 := by
  rw [← UInt8.toNat_inj, toNat_byte, toNat_byte]
  omega

theorem mem_digits {w n : Nat} {c : UInt8} (h : c ∈ digits w n) : 48 ≤ c.toNat ∧ c.toNat ≤ 57 := by
  induction w with
  | zero => cases h
  | succ w ih =>
    rcases List.mem_cons.mp h with rfl | h
    · rw [toNat_byte]
      omega
    · exact ih h

/-- Only the last digits count. -/
theorem digits_mod {w v n : Nat} (h : w ≤ v) : digits w (n % 10 ^ v) = digits w n := by
  induction w with
  | zero => rfl
  | succ w ih =>
    rw [digits, digits, ih (by omega)]
    congr 1
    rw [byte_eq_byte]
    obtain ⟨u, rfl⟩ : ∃ u, v = w + (u + 1) := ⟨v - w - 1, by omega⟩
    rw [pow_add, Nat.mod_mul_right_div_self, pow_succ', Nat.mod_mul_right_mod]

/-- **The order of digits, followed by anything.** -/
theorem digits_append_lt {w a b : Nat} (ha : a < 10 ^ w) (hb : b < 10 ^ w) (x y : List UInt8) :
    digits w a ++ x < digits w b ++ y ↔ a < b ∨ a = b ∧ x < y := by
  induction w generalizing a b with
  | zero =>
    rw [pow_zero, Nat.lt_one_iff] at ha hb
    subst ha hb
    simp [digits]
  | succ w ih =>
    have hpos : 0 < 10 ^ w := Nat.pow_pos (by decide)
    have hdiv : ∀ n, n < 10 ^ (w + 1) → n / 10 ^ w % 10 = n / 10 ^ w := by
      intro n hn
      rw [pow_succ'] at hn
      exact Nat.mod_eq_of_lt (Nat.div_lt_of_lt_mul (by rwa [mul_comm] at hn))
    rw [digits, digits, List.cons_append, List.cons_append, List.cons_lt_cons_iff, byte_lt_byte,
      byte_eq_byte, hdiv a ha, hdiv b hb, ← digits_mod (Nat.le_refl w) (n := a),
      ← digits_mod (Nat.le_refl w) (n := b), ih (Nat.mod_lt _ hpos) (Nat.mod_lt _ hpos)]
    have hsplit_a := Nat.div_add_mod a (10 ^ w)
    have hsplit_b := Nat.div_add_mod b (10 ^ w)
    have hmod_a := Nat.mod_lt a hpos
    have hmod_b := Nat.mod_lt b hpos
    constructor
    · rintro (hlt | ⟨heq, hlt | ⟨hmod, hxy⟩⟩)
      · exact .inl (Nat.lt_of_div_lt_div hlt)
      · rw [heq] at hsplit_a
        omega
      · rw [heq, hmod] at hsplit_a
        exact .inr ⟨by omega, hxy⟩
    · rintro (hlt | ⟨rfl, hxy⟩)
      · rcases Nat.lt_or_eq_of_le (Nat.div_le_div_right (c := 10 ^ w) (Nat.le_of_lt hlt)) with h | h
        · exact .inl h
        · rw [h] at hsplit_a
          exact .inr ⟨h, .inl (by omega)⟩
      · exact .inr ⟨rfl, .inr ⟨rfl, hxy⟩⟩

/-- Digits in two parts. -/
theorem digits_add (v w n : Nat) : digits (v + w) n = digits v (n / 10 ^ w) ++ digits w n := by
  induction v with
  | zero => simp [digits]
  | succ v ih =>
    rw [Nat.succ_add, digits, digits, ih, List.cons_append, Nat.div_div_eq_div_mul, ← pow_add,
      Nat.add_comm w v]

/-- Against more digits, those in excess count as what follows. -/
theorem digits_append_lt_longer {w d a b : Nat} (ha : a < 10 ^ w) (hb : b < 10 ^ (w + d))
    (x y : List UInt8) :
    digits w a ++ x < digits (w + d) b ++ y
      ↔ a < b / 10 ^ d ∨ a = b / 10 ^ d ∧ x < digits d b ++ y := by
  rw [pow_add, mul_comm] at hb
  rw [digits_add, List.append_assoc, digits_append_lt ha (Nat.div_lt_of_lt_mul hb)]

theorem longer_append_lt_digits {w d a b : Nat} (ha : a < 10 ^ (w + d)) (hb : b < 10 ^ w)
    (x y : List UInt8) :
    digits (w + d) a ++ x < digits w b ++ y
      ↔ a / 10 ^ d < b ∨ a / 10 ^ d = b ∧ digits d a ++ x < y := by
  rw [pow_add, mul_comm] at ha
  rw [digits_add, List.append_assoc, digits_append_lt (Nat.div_lt_of_lt_mul ha) hb]

/-! ### Zeros at the end -/

/-- Drop the zeros at the end. -/
def trim (s : List UInt8) : List UInt8 := s.rdropWhile (· = 48)

/-- What is left of the digits of a number are those of the number without its factors of ten. -/
theorem trim_digits {w n : Nat} (hpos : 0 < n) (hlt : n < 10 ^ w) :
    ∃ z m, z < w ∧ n = m * 10 ^ z ∧ m % 10 ≠ 0 ∧ trim (digits w n) = digits (w - z) m := by
  induction w generalizing n with
  | zero =>
    rw [pow_zero] at hlt
    omega
  | succ w ih =>
    have hlast : digits (w + 1) n = digits w (n / 10) ++ [byte n] := by
      rw [digits_add w 1 n]
      simp [digits]
    by_cases hzero : n % 10 = 0
    · have hbyte : byte n = 48 := UInt8.toNat_inj.mp (by rw [toNat_byte, hzero]; rfl)
      rw [pow_succ] at hlt
      obtain ⟨z, m, hz, hn, hm, htrim⟩ := ih (n := n / 10) (by omega) (by omega)
      refine ⟨z + 1, m, by omega, ?_, hm, ?_⟩
      · rw [pow_succ, ← mul_assoc, ← hn]
        omega
      · rw [hlast, trim, List.rdropWhile_concat_pos _ _ _ (by rw [hbyte]; rfl), Nat.add_sub_add_right]
        exact htrim
    · refine ⟨0, n, by omega, by simp, hzero, ?_⟩
      have hbyte : byte n ≠ 48 := by
        intro h
        have := toNat_byte n
        rw [h] at this
        have h48 : (48 : UInt8).toNat = 48 := rfl
        omega
      rw [trim, hlast, List.rdropWhile_concat_neg _ _ _ (by simpa using hbyte), ← hlast]
      rfl

end Decimal

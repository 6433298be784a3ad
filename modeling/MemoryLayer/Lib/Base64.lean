import Mathlib.Data.List.Basic

namespace Base64

/-! # Base64 without padding

The alphabet for URLs and file names: three bytes become four characters, and one or two bytes at the
end become two or three.

- `digit`, `encode`, `decode`: the encoding and its inverse.
- `encode_injective`: **no two byte strings are encoded alike.**
- `mem_encode`, `two_le_length_encode`: what an encoding looks like.
-/

/-- The character for six bits. -/
def digit (n : Nat) : UInt8 :=
  if n < 26 then UInt8.ofNat (65 + n)
  else if n < 52 then UInt8.ofNat (97 + (n - 26))
  else if n < 62 then UInt8.ofNat (48 + (n - 52))
  else if n = 62 then 45
  else 95

/-- The six bits of a character. -/
def value (c : UInt8) : Nat :=
  if 97 ≤ c.toNat ∧ c.toNat ≤ 122 then c.toNat - 97 + 26
  else if c.toNat = 95 then 63
  else if 65 ≤ c.toNat then c.toNat - 65
  else if 48 ≤ c.toNat then c.toNat - 48 + 52
  else 62

theorem value_digit {n : Nat} (h : n < 64) : value (digit n) = n := by
  have hall : ∀ n : Fin 64, value (digit n) = n := by decide
  exact hall ⟨n, h⟩

/-- The encoding, three bytes at a time. -/
def encode : List UInt8 → List UInt8
  | [] => []
  | [a] => [digit (a.toNat / 4), digit (a.toNat % 4 * 16)]
  | [a, b] =>
    [digit (a.toNat / 4), digit (a.toNat % 4 * 16 + b.toNat / 16), digit (b.toNat % 16 * 4)]
  | a :: b :: c :: rest =>
    digit (a.toNat / 4) :: digit (a.toNat % 4 * 16 + b.toNat / 16)
      :: digit (b.toNat % 16 * 4 + c.toNat / 64) :: digit (c.toNat % 64) :: encode rest

/-- The decoding, four characters at a time. -/
def decode : List UInt8 → List UInt8
  | a :: b :: c :: d :: rest =>
    UInt8.ofNat (value a * 4 + value b / 16) :: UInt8.ofNat (value b % 16 * 16 + value c / 4)
      :: UInt8.ofNat (value c % 4 * 64 + value d) :: decode rest
  | [a, b, c] => [UInt8.ofNat (value a * 4 + value b / 16), UInt8.ofNat (value b % 16 * 16 + value c / 4)]
  | [a, b] => [UInt8.ofNat (value a * 4 + value b / 16)]
  | _ => []

theorem ofNat_eq_of_toNat {a : UInt8} {n : Nat} (h : n = a.toNat) : UInt8.ofNat n = a := by
  rw [h, UInt8.ofNat_toNat]

theorem decode_encode (bytes : List UInt8) : decode (encode bytes) = bytes := by
  induction bytes using encode.induct with
  | case1 => rfl
  | case2 a =>
    have ha := a.toNat_lt
    rw [encode, decode, value_digit (by omega), value_digit (by omega),
      ofNat_eq_of_toNat (a := a) (by omega)]
  | case3 a b =>
    have ha := a.toNat_lt
    have hb := b.toNat_lt
    rw [encode, decode, value_digit (by omega), value_digit (by omega), value_digit (by omega),
      ofNat_eq_of_toNat (a := a) (by omega), ofNat_eq_of_toNat (a := b) (by omega)]
  | case4 a b c rest ih =>
    have ha := a.toNat_lt
    have hb := b.toNat_lt
    have hc := c.toNat_lt
    rw [encode, decode, value_digit (by omega), value_digit (by omega), value_digit (by omega),
      value_digit (by omega), ofNat_eq_of_toNat (a := a) (by omega),
      ofNat_eq_of_toNat (a := b) (by omega), ofNat_eq_of_toNat (a := c) (by omega), ih]

/-- **No two byte strings are encoded alike.** -/
theorem encode_injective : Function.Injective encode :=
  Function.LeftInverse.injective decode_encode

/-- An encoding consists of digits. -/
theorem mem_encode {bytes : List UInt8} {c : UInt8} (h : c ∈ encode bytes) : ∃ n < 64, c = digit n := by
  induction bytes using encode.induct with
  | case1 => cases h
  | case2 a =>
    have := a.toNat_lt
    simp only [encode, List.mem_cons, List.not_mem_nil, or_false] at h
    rcases h with h | h
    all_goals exact ⟨_, by omega, h⟩
  | case3 a b =>
    have := a.toNat_lt
    have := b.toNat_lt
    simp only [encode, List.mem_cons, List.not_mem_nil, or_false] at h
    rcases h with h | h | h
    all_goals exact ⟨_, by omega, h⟩
  | case4 a b c rest ih =>
    have := a.toNat_lt
    have := b.toNat_lt
    have := c.toNat_lt
    simp only [encode, List.mem_cons] at h
    rcases h with h | h | h | h | h
    · exact ⟨_, by omega, h⟩
    · exact ⟨_, by omega, h⟩
    · exact ⟨_, by omega, h⟩
    · exact ⟨_, by omega, h⟩
    · exact ih h

theorem two_le_length_encode {bytes : List UInt8} (h : bytes ≠ []) : 2 ≤ (encode bytes).length := by
  match bytes with
  | [a] => exact Nat.le_refl _
  | [a, b] => exact Nat.le_add_left _ _
  | a :: b :: c :: rest =>
    simp only [encode, List.length_cons]
    omega

end Base64

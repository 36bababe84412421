import Mathlib.Order.GaloisConnection.Basic
import Mathlib.Tactic.Ring

namespace UgmeeLua.FloatCode

/-! Codes for natural numbers with a mantissa from `h` up to `2 * h`: numbers below `2 * h` are their own codes, and
`h` more stands for twice the number. -/

/-- The code of a number, which is rounded up where it has none. -/
def encode (h : Nat) [NeZero h] (x : Nat) : Nat := if x < 2 * h then x else h + encode h ((x + 1) / 2)
termination_by x
decreasing_by
  have := Nat.pos_of_neZero h
  omega

/-- The number that a code stands for. -/
def decode (h : Nat) [NeZero h] (b : Nat) : Nat := if b < 2 * h then b else 2 * decode h (b - h)
termination_by b
decreasing_by
  have := Nat.pos_of_neZero h
  omega

variable {h x b : Nat} [NeZero h]

theorem encode_small (hx : x < 2 * h) : encode h x = x := by
  rw [encode, if_pos hx]

theorem encode_large (hx : 2 * h ≤ x) : encode h x = h + encode h ((x + 1) / 2) := by
  rw [encode, if_neg (Nat.not_lt.mpr hx)]

theorem decode_small (hb : b < 2 * h) : decode h b = b := by
  rw [decode, if_pos hb]

theorem decode_large (hb : 2 * h ≤ b) : decode h b = 2 * decode h (b - h) := by
  rw [decode, if_neg (Nat.not_lt.mpr hb)]

theorem decode_add (hb : h ≤ b) : decode h (b + h) = 2 * decode h b := by
  rw [decode_large (by omega), Nat.add_sub_cancel]

theorem le_encode (hx : h ≤ x) : h ≤ encode h x := by
  by_cases hsmall : x < 2 * h
  · rwa [encode_small hsmall]
  · rw [encode_large (Nat.not_lt.mp hsmall)]
    exact Nat.le_add_right h _

theorem le_decode (hb : h ≤ b) : h ≤ decode h b := by
  induction b using Nat.strong_induction_on with
  | h b ih =>
    by_cases hsmall : b < 2 * h
    · rwa [decode_small hsmall]
    · have hpos := Nat.pos_of_neZero h
      have := ih (b - h) (by omega) (by omega)
      rw [decode_large (Nat.not_lt.mp hsmall)]
      omega

/-- A code is enough for a number exactly when what it stands for is. -/
theorem encode_le_iff : encode h x ≤ b ↔ x ≤ decode h b := by
  induction x using Nat.strong_induction_on generalizing b with
  | h x ih =>
    by_cases hx : x < 2 * h
    · rw [encode_small hx]
      by_cases hb : b < 2 * h
      · rw [decode_small hb]
      · have := @le_decode h (b - h) _ (by omega)
        rw [decode_large (Nat.not_lt.mp hb)]
        omega
    · have hpos := Nat.pos_of_neZero h
      rw [encode_large (Nat.not_lt.mp hx)]
      by_cases hb : b < 2 * h
      · have := @le_encode h ((x + 1) / 2) _ (by omega)
        rw [decode_small hb]
        omega
      · have hhalf := @ih ((x + 1) / 2) (by omega) (b - h)
        rw [decode_large (Nat.not_lt.mp hb)]
        omega

theorem gc : GaloisConnection (encode h) (decode h) := fun _ _ => encode_le_iff

/-- Every code is that of the number it stands for. -/
theorem encode_decode (b : Nat) : encode h (decode h b) = b := by
  induction b using Nat.strong_induction_on with
  | h b ih =>
    by_cases hb : b < 2 * h
    · rw [decode_small hb, encode_small hb]
    · have hpos := Nat.pos_of_neZero h
      have hlarge := @le_decode h (b - h) _ (by omega)
      have hhalf : (2 * decode h (b - h) + 1) / 2 = decode h (b - h) := by omega
      rw [decode_large (Nat.not_lt.mp hb), encode_large (by omega), hhalf, ih (b - h) (by omega)]
      omega

/-- One code more is no more than one part in `h` more. -/
theorem decode_succ_le (hb : h ≤ b) : decode h (b + 1) ≤ decode h b + decode h b / h := by
  have hpos := Nat.pos_of_neZero h
  induction b using Nat.strong_induction_on with
  | h b ih =>
    by_cases hlarge : 2 * h ≤ b
    · have hstep := ih (b - h) (by omega) (by omega)
      have hsucc : b + 1 - h = b - h + 1 := by omega
      have hdiv : 2 * (decode h (b - h) / h) ≤ 2 * decode h (b - h) / h := Nat.mul_div_le_mul_div_assoc ..
      rw [decode_large hlarge, decode_large (by omega), hsucc]
      omega
    · have hone : 1 ≤ b / h := (Nat.one_le_div_iff hpos).mpr hb
      rw [decode_small (Nat.not_le.mp hlarge)]
      by_cases hlast : b + 1 < 2 * h
      · rw [decode_small hlast]
        omega
      · have hdown : b + 1 - h = h := by omega
        rw [decode_large (Nat.not_lt.mp hlast), hdown, decode_small (by omega)]
        omega

/-- Rounding adds no more than one part in `h`. -/
theorem decode_encode_le (x : Nat) : decode h (encode h x) ≤ x + x / h := by
  by_cases hsmall : encode h x ≤ h
  · have hx := encode_le_iff.mp hsmall
    have hpos := Nat.pos_of_neZero h
    rw [decode_small (by omega)] at hx
    rw [encode_small (by omega), decode_small (by omega)]
    exact Nat.le_add_right ..
  · obtain ⟨c, hc⟩ := Nat.exists_eq_add_of_lt (Nat.not_le.mp hsmall)
    have hbelow : decode h (h + c) < x := by
      rw [← Nat.not_le, ← encode_le_iff]
      omega
    have hstep := decode_succ_le (Nat.le_add_right h c)
    have hdiv := Nat.div_le_div_right (c := h) (Nat.le_of_lt hbelow)
    rw [hc]
    omega

/-- The mantissa and the exponent of a code. -/
theorem decode_eq (hb : h ≤ b) : decode h b = (b % h + h) * 2 ^ (b / h - 1) := by
  have hpos := Nat.pos_of_neZero h
  induction b using Nat.strong_induction_on with
  | h b ih =>
    by_cases hlarge : 2 * h ≤ b
    · have hexp : b / h = (b - h) / h + 1 := by
        rw [← Nat.add_div_right _ hpos, Nat.sub_add_cancel hb]
      have hone : 1 ≤ (b - h) / h := (Nat.one_le_div_iff hpos).mpr (by omega)
      obtain ⟨e, he⟩ := Nat.exists_eq_add_of_le' hone
      rw [decode_large hlarge, ih (b - h) (by omega) (by omega), hexp, he, ← Nat.mod_eq_sub_mod hb]
      simp only [Nat.add_sub_cancel]
      rw [Nat.pow_succ]
      ring
    · have hdiv : b / h = 1 := by
        rw [Nat.div_eq_iff hpos]
        omega
      have hmod : b % h = b - h := by
        rw [Nat.mod_eq_sub_mod hb, Nat.mod_eq_of_lt (by omega)]
      rw [decode_small (Nat.not_le.mp hlarge), hdiv, hmod]
      omega

end UgmeeLua.FloatCode

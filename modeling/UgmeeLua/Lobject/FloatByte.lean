import UgmeeLua.Core.Instruction
import UgmeeLua.Lib.FloatCode

namespace UgmeeLua

open OpCode Instruction FloatCode

/-! ## Floating point bytes -/

/-- The loop of `luaO_int2fb`, on an `unsigned int` of 32 bits. -/
def int2fbLoop (x e : Nat) : Nat × Nat :=
  if x ≥ 16 then int2fbLoop (((x + 1) % 2 ^ 32) >>> 1) (e + 1) else (x, e)
termination_by x
decreasing_by
  rw [Nat.shiftRight_one]
  omega

def luaOInt2fb (x : Nat) : Nat :=
  let (x, e) := int2fbLoop x 0
  if x < 8 then x else (e + 1) <<< 3 ||| (x - 8)

def luaOFb2int (x : Nat) : Nat :=
  let e := x >>> 3 &&& 31
  if e = 0 then x else ((x &&& 7) + 8) <<< (e - 1)

/-- The largest size that has a code of its own and fits an `int`. -/
def maxFb : Nat := 15 * 2 ^ 27

section Codes

variable {x b : Nat}

/-- A pass of the loop is one of the code; the mantissa does not fall below eight. -/
theorem int2fbLoop_encode (hx : x < 2 ^ 32 - 1) (e : Nat) :
    8 * (int2fbLoop x e).2 + (int2fbLoop x e).1 = 8 * e + encode 8 x ∧
      ((int2fbLoop x e).1 < 8 → (int2fbLoop x e).2 = e ∧ x < 8) ∧ (int2fbLoop x e).1 < 16 := by
  induction x using Nat.strong_induction_on generalizing e with
  | h x ih =>
    rw [int2fbLoop]
    by_cases hlarge : x ≥ 16
    · have hwrap : ((x + 1) % 2 ^ 32) >>> 1 = (x + 1) / 2 := by
        rw [Nat.mod_eq_of_lt (by omega), Nat.shiftRight_one]
      rw [if_pos hlarge, hwrap, encode_large hlarge]
      obtain ⟨hcode, hsmall, hlast⟩ := ih ((x + 1) / 2) (by omega) (by omega) (e + 1)
      refine ⟨by omega, fun h => ?_, hlast⟩
      have := (hsmall h).2
      omega
    · rw [if_neg hlarge, encode_small (Nat.not_le.mp hlarge)]
      exact ⟨rfl, fun h => ⟨rfl, h⟩, Nat.not_le.mp hlarge⟩

theorem luaOInt2fb_eq (hx : x < 2 ^ 32 - 1) : luaOInt2fb x = encode 8 x := by
  obtain ⟨hcode, hsmall, hlast⟩ := int2fbLoop_encode hx 0
  unfold luaOInt2fb
  dsimp only
  split_ifs with h
  · have := (hsmall h).1
    omega
  · have hor := @Nat.shiftLeft_add_eq_or_of_lt 3 ((int2fbLoop x 0).1 - 8) (by omega) ((int2fbLoop x 0).2 + 1)
    rw [← hor, Nat.shiftLeft_eq]
    omega

theorem luaOFb2int_eq (hb : b < 256) : luaOFb2int b = decode 8 b := by
  have he : b >>> 3 &&& 31 = b / 8 := by
    rw [Nat.shiftRight_eq_div_pow, Nat.and_two_pow_sub_one_eq_mod _ 5]
    omega
  have hm : b &&& 7 = b % 8 := Nat.and_two_pow_sub_one_eq_mod b 3
  unfold luaOFb2int
  dsimp only
  rw [he, hm]
  split_ifs with h
  · rw [decode_small (by omega)]
  · rw [decode_eq (by omega), Nat.shiftLeft_eq]

theorem decode_maxFb : decode 8 231 = maxFb := by
  rw [decode_eq (by decide)]
  rfl

/-- The code of a size is less than 232. -/
theorem encode_le_maxFb (hx : x ≤ maxFb) : encode 8 x ≤ 231 := by
  rw [encode_le_iff, decode_maxFb]
  exact hx

end Codes

section Sizes

variable {x y : Nat}

theorem maxFb_lt : maxFb < 2 ^ 31 := by decide

theorem luaOInt2fb_code (hx : x ≤ maxFb) : luaOInt2fb x = encode 8 x ∧ luaOInt2fb x < 256 := by
  have hmax := maxFb_lt
  have heq := @luaOInt2fb_eq x (by omega)
  have hle := encode_le_maxFb hx
  exact ⟨heq, by omega⟩

theorem luaOFb2int_luaOInt2fb (hx : x ≤ maxFb) : luaOFb2int (luaOInt2fb x) = decode 8 (encode 8 x) := by
  obtain ⟨heq, hlt⟩ := luaOInt2fb_code hx
  rw [luaOFb2int_eq hlt, heq]

/-- No field of an instruction is lost in its word. -/
theorem ofWord_toWord_fields {op : OpCode} {a b c : Nat} (hop : OpCode.ofNat op.toNat = op) (hop' : op.toNat < 2 ^ 6)
    (ha : a < 2 ^ 8) (hb : b < 2 ^ 9) (hc : c < 2 ^ 9) : ofWord (toWord ⟨op, a, b, c⟩) = ⟨op, a, b, c⟩ := by
  have h1 : (op.toNat + 2 ^ 6 * a + 2 ^ 14 * c + 2 ^ 23 * b) % 2 ^ 6 = op.toNat := by omega
  have h2 : (op.toNat + 2 ^ 6 * a + 2 ^ 14 * c + 2 ^ 23 * b) / 2 ^ 6 % 2 ^ 8 = a := by omega
  have h3 : (op.toNat + 2 ^ 6 * a + 2 ^ 14 * c + 2 ^ 23 * b) / 2 ^ 23 % 2 ^ 9 = b := by omega
  have h4 : (op.toNat + 2 ^ 6 * a + 2 ^ 14 * c + 2 ^ 23 * b) / 2 ^ 14 % 2 ^ 9 = c := by omega
  unfold ofWord toWord
  dsimp only
  rw [h1, h2, h3, h4, hop]

/-- Sizes are rounded up by no more than an eighth, which a second time changes nothing, and their codes grow with
them and fit the fields of `OP_NEWTABLE`. -/
theorem luaOFb2int_rounds (hx : x ≤ 15 * 2 ^ 27) :
    x ≤ luaOFb2int (luaOInt2fb x) ∧ luaOFb2int (luaOInt2fb x) < x + x / 8 + 1 ∧
      luaOFb2int (luaOInt2fb x) < 2 ^ 31 ∧ luaOInt2fb (luaOFb2int (luaOInt2fb x)) = luaOInt2fb x ∧
      (∀ y ≤ x, luaOInt2fb y ≤ luaOInt2fb x) ∧ luaOInt2fb x < 256 ∧
      ∀ a < 2 ^ 8, ∀ y ≤ 15 * 2 ^ 27, ofWord (toWord ⟨OP_NEWTABLE, a, luaOInt2fb x, luaOInt2fb y⟩) =
        ⟨OP_NEWTABLE, a, luaOInt2fb x, luaOInt2fb y⟩ := by
  obtain ⟨hcode, hbyte⟩ := luaOInt2fb_code hx
  have hback := luaOFb2int_luaOInt2fb hx
  have hmax : decode 8 (encode 8 x) ≤ maxFb := by
    rw [← decode_maxFb]
    exact gc.monotone_u (encode_le_maxFb hx)
  have hlimit := maxFb_lt
  have hround := @decode_encode_le 8 _ x
  refine ⟨?_, ?_, ?_, ?_, ?_, hbyte, ?_⟩
  · rw [hback]
    exact gc.le_u_l x
  · rw [hback]
    omega
  · rw [hback]
    omega
  · rw [hback, (luaOInt2fb_code hmax).1, encode_decode, hcode]
  · intro y hy
    rw [hcode, (luaOInt2fb_code (hy.trans hx)).1]
    exact gc.monotone_l hy
  · intro a ha y hy
    have hbyte' := (luaOInt2fb_code hy).2
    exact ofWord_toWord_fields rfl (by decide) ha (by omega) (by omega)

/-- A table of 100 items gets room for 104. -/
theorem luaOFb2int_rounds_hundred : luaOFb2int (luaOInt2fb 100) = 104 ∧
    100 ≤ luaOFb2int (luaOInt2fb 100) ∧ luaOFb2int (luaOInt2fb 100) < 100 + 100 / 8 + 1 := by
  have hround := @luaOFb2int_rounds 100 (by decide)
  refine ⟨?_, hround.1, hround.2.1⟩
  simp [luaOInt2fb, int2fbLoop, luaOFb2int]

end Sizes

end UgmeeLua

import UgmeeLua.Code.Expdesc
import UgmeeLua.Vm.Arith

namespace UgmeeLua

open OpCode LuaNumber

variable {N : Type} [LuaNumber N]

/-- The number that the `switch` of `constfolding` computes, `none` where it returns at once. -/
def foldNumber (op : OpCode) (v1 v2 : N) : Option N :=
  match op with
  | OP_ADD => some (luaiNumadd v1 v2)
  | OP_SUB => some (luaiNumsub v1 v2)
  | OP_MUL => some (luaiNummul v1 v2)
  | OP_DIV => if luaiNumeq v2 zero then none else some (luaiNumdiv v1 v2)
  | OP_MOD => if luaiNumeq v2 zero then none else some (luaiNummod v1 v2)
  | OP_POW => some (luaiNumpow v1 v2)
  | OP_UNM => some (luaiNumunm v1)
  | OP_LEN => none
  | OP_BOR => some (ofInteger (luaiBinor v1 v2))
  | OP_BAND => some (ofInteger (luaiBinand v1 v2))
  | OP_BXOR => some (ofInteger (luaiBinxor v1 v2))
  | OP_BRSHFT => some (ofInteger (luaiBinrshft v1 v2))
  | OP_BLSHFT => some (ofInteger (luaiBinlshft v1 v2))
  | _ => some zero

/-- `constfolding`: whether it folded, and the two expressions afterwards. -/
def constfolding (op : OpCode) (e1 e2 : Expdesc N) : Bool × Expdesc N × Expdesc N :=
  match e1.isnumeral, e2.isnumeral with
  | some v1, some v2 =>
    match foldNumber op v1 v2 with
    | some r => if luaiNumisnan r then (false, e1, e2) else (true, { e1 with k := .VKNUM r }, e2)
    | none => (false, e1, e2)
  | _, _ => (false, e1, e2)

/-- The opcodes that `luaK_prefix` and `luaK_posfix` pass to `codearith`. -/
def codearithOps : List OpCode := [
  OP_BNOT, OP_UNM, OP_LEN,
  OP_ADD, OP_SUB, OP_MUL, OP_DIV, OP_MOD, OP_POW,
  OP_BOR, OP_BAND, OP_BXOR, OP_BLSHFT, OP_BRSHFT]

/-- Folding agrees with execution: a folded descriptor is the numeral that the opcode stores for
the two numerals in registers, and where nothing is folded nothing changes. -/
def FoldingAgrees (h : Heap N) (op : OpCode) (e1 e2 : Expdesc N) : Prop :=
  match constfolding op e1 e2 with
  | (true, e1', e2') => ∃ v1 v2 r, e1.isnumeral = some v1 ∧ e2.isnumeral = some v2 ∧
      e1'.isnumeral = some r ∧ e2' = e2 ∧
      execOperator h op (.number v1) (.number v2) = some (.value (.number r))
  | (false, e1', e2') => e1' = e1 ∧ e2' = e2

/-- Every opcode but `OP_BNOT` folds to the number that it stores. -/
theorem foldNumber_correct (h : Heap N) (op : OpCode) (v1 v2 r : N) (hop : op ∈ codearithOps)
    (hb : op ≠ OP_BNOT) (hr : foldNumber op v1 v2 = some r) :
    execOperator h op (.number v1) (.number v2) = some (.value (.number r)) := by
  cases op
  case OP_DIV | OP_MOD =>
    simp only [foldNumber] at hr
    split_ifs at hr
    cases hr
    rfl
  case OP_BNOT => exact absurd rfl hb
  case OP_LEN => cases hr
  case OP_ADD | OP_SUB | OP_MUL | OP_POW | OP_UNM | OP_BOR | OP_BAND | OP_BXOR | OP_BLSHFT |
      OP_BRSHFT =>
    cases hr
    rfl
  all_goals simp [codearithOps] at hop

/-- `OP_BNOT` falls through to the default case and leaves the number zero. -/
theorem constfolding_bnot (v1 v2 : N) :
    constfolding OP_BNOT (initExp (.VKNUM v1)) (initExp (.VKNUM v2)) =
      (true, initExp (.VKNUM zero), initExp (.VKNUM v2)) := by
  simp [constfolding, Expdesc.isnumeral, initExp, foldNumber, luaiNumisnan, luaiNumeq, eq_zero]

/-- Folding agrees with execution except for `!` on numerals. -/
theorem constfolding_correct (h : Heap N) (op : OpCode) (e1 e2 : Expdesc N)
    (hop : op ∈ codearithOps) :
    FoldingAgrees h op e1 e2 ↔
      ¬ (op = OP_BNOT ∧ e1.isnumeral.isSome ∧ e2.isnumeral.isSome) := by
  by_cases hnum : e1.isnumeral.isSome ∧ e2.isnumeral.isSome
  · obtain ⟨v1, h1⟩ := Option.isSome_iff_exists.mp hnum.1
    obtain ⟨v2, h2⟩ := Option.isSome_iff_exists.mp hnum.2
    have he1 := (isnumeral_eq_some e1 v1).mp h1
    have he2 := (isnumeral_eq_some e2 v2).mp h2
    by_cases hb : op = OP_BNOT
    · subst hb he1 he2
      have differs : ¬ FoldingAgrees h OP_BNOT (initExp (.VKNUM v1)) (initExp (.VKNUM v2)) := by
        rw [FoldingAgrees, constfolding_bnot]
        rintro ⟨w1, w2, r, -, -, -, -, hexec⟩
        cases hexec
      simp [differs, hnum]
    · simp only [hb, false_and, not_false_eq_true, iff_true, FoldingAgrees, constfolding, h1, h2]
      cases hr : foldNumber op v1 v2 with
      | none => exact ⟨rfl, rfl⟩
      | some r =>
        simp only
        split_ifs
        · exact ⟨rfl, rfl⟩
        · have hexec := foldNumber_correct h op v1 v2 r hop hb hr
          refine ⟨v1, v2, r, rfl, rfl, ?_, rfl, hexec⟩
          subst he1
          rfl
  · have unfolded : constfolding op e1 e2 = (false, e1, e2) := by
      unfold constfolding
      split
      · next v1 v2 h1 h2 => exact absurd ⟨by simp [h1], by simp [h2]⟩ hnum
      · rfl
    rw [FoldingAgrees, unfolded]
    simp only [and_self, true_iff]
    exact fun hb => hnum hb.2

theorem constfolding_correct_sum :
    OP_ADD ∈ codearithOps ∧
      (FoldingAgrees Heap.bare OP_ADD (initExp (.VKNUM (2 : Int))) (initExp (.VKNUM 3)) ↔
        ¬ (OP_ADD = OP_BNOT ∧ (initExp (.VKNUM (2 : Int))).isnumeral.isSome ∧
          (initExp (.VKNUM (3 : Int))).isnumeral.isSome)) :=
  ⟨by decide, constfolding_correct Heap.bare OP_ADD _ _ (by decide)⟩

/-- `!1` folds to the number 0, while `OP_BNOT` stores false for the number 1. -/
theorem constfolding_bnot_one :
    constfolding OP_BNOT (initExp (.VKNUM (1 : Int))) (initExp (.VKNUM 0)) =
        (true, initExp (.VKNUM 0), initExp (.VKNUM 0)) ∧
      execOperator Heap.bare OP_BNOT (.number (1 : Int)) (.number 0) =
        some (.value (.boolean false)) :=
  ⟨rfl, rfl⟩

end UgmeeLua

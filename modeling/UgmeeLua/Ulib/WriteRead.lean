import UgmeeLua.Ulib.SameTable

namespace UgmeeLua.Misc

open Blank

variable {N : Type} [DecidableEq N] {L : TextLibrary N} {t : KeyValues} {ref : Nat}

/-- The length is that of the strings before the first nil. -/
def leading (args : List (Option (List Char))) : Nat := (args.takeWhile Option.isSome).length

theorem leading_full (args : List (Option (List Char))) :
    leading args = 0 ∨ ∃ s, args[leading args - 1]? = some (some s) := by
  induction args with
  | nil => exact .inl rfl
  | cons a args ih =>
    cases a with
    | none => exact .inl rfl
    | some s =>
      have hlen : leading (some s :: args) = leading args + 1 := rfl
      refine .inr ?_
      rcases ih with hzero | ⟨s', hs'⟩
      · exact ⟨s, by rw [hlen, hzero]; rfl⟩
      · by_cases hzero : leading args = 0
        · exact ⟨s, by rw [hlen, hzero]; rfl⟩
        · refine ⟨s', ?_⟩
          rwa [hlen, Nat.add_sub_cancel, ← Nat.succ_pred_eq_of_ne_zero hzero, List.getElem?_cons_succ]

theorem leading_end (args : List (Option (List Char))) : args[leading args]?.join = none := by
  induction args with
  | nil => rfl
  | cons a args ih =>
    cases a with
    | none => rfl
    | some s => exact ih

/-- Whole numbers, and the documented behaviour of the rest. -/
def decimalText : TextLibrary Nat where
  toStringLibrary := decimals
  explode s := s.splitOn '\n'
  len := leading
  explode_eq _ := rfl
  len_full := leading_full
  len_end := leading_end

/-- `{ id = "a b", groups = { "x", "y" } }` -/
def sampleTable : KeyValues :=
  .text (.str ['i', 'd']) ['a', ' ', 'b'] (.table (.str ['g']) 1
    (.text (.num 1) ['x'] (.text (.num 2) ['y'] .nil)) .nil)

theorem sampleTable_level : sampleTable.Everywhere KeyValues.Level := by
  have hgroups : (KeyValues.text (.num 1) ['x'] (.text (.num 2) ['y'] .nil)).Level := by
    refine ⟨by decide, fun n hn => ?_⟩
    have hcases : n = 1 ∨ n = 2 := by simpa [KeyValues.keys] using hn
    rcases hcases with rfl | rfl <;> decide
  refine ⟨⟨by decide, fun n hn => ?_⟩, hgroups, trivial, trivial⟩
  simp [sampleTable, KeyValues.keys] at hn

theorem sampleTable_clean : sampleTable.All Clean := by
  have hclean : ∀ s, (!decide (slashes <:+: s) && s.all fun c =>
      c ≠ '"' && c ≠ '\\' && c ≠ '\n' && c ≠ '\r' && c ≠ '\x00') = true → Clean s := by
    intro s h
    simpa [Clean, and_assoc] using h
  exact ⟨hclean _ (by decide), hclean _ (by decide), hclean _ (by decide),
    ⟨hclean _ (by decide), hclean _ (by decide), hclean _ (by decide), hclean _ (by decide), trivial⟩,
    trivial⟩

theorem sampleTable_inOrder : sampleTable.Everywhere KeyValues.InOrder := by
  refine ⟨fun n s h => by simp [sampleTable, KeyValues.listed] at h, ⟨fun n s h => ?_, trivial, trivial⟩⟩
  cases n with
  | zero =>
    obtain rfl : ['x'] = s := by simpa [KeyValues.listed] using h
    rfl
  | succ n =>
    cases n with
    | zero =>
      obtain rfl : ['y'] = s := by simpa [KeyValues.listed] using h
      rfl
    | succ n => simp [KeyValues.listed] at h

theorem decimals_counts_two : decimals.Counts 2 where
  reads k h1 h2 := by
    obtain rfl | rfl : k = 1 ∨ k = 2 := by omega
    all_goals decide +kernel
  digits k h1 h2 := by
    obtain rfl | rfl : k = 1 ∨ k = 2 := by omega
    all_goals exact List.all_eq_true.mp (by decide +kernel)
  inj j k _ _ _ _ h := h

end UgmeeLua.Misc

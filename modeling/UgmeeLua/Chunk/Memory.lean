import UgmeeLua.Core.Number

namespace UgmeeLua

/-- The machine that writes and reads chunks: how it lays out the objects of C in memory. -/
structure Target (N : Type) where
  littleEndian : Bool
  integral : Bool
  numberBytes : N → Bytes
  numberOf : Bytes → N
  numberBytes_length : ∀ n, (numberBytes n).length = 8
  numberOf_numberBytes : ∀ n, numberOf (numberBytes n) = n

namespace Target

variable {N : Type} (T : Target N)

/-- The bytes of an unsigned integer of `w` bytes. -/
def wordBytes (w n : Nat) : Bytes :=
  let l := (List.range w).map fun i => UInt8.ofNat (n / 256 ^ i)
  if T.littleEndian then l else l.reverse

def wordOf (l : Bytes) : Nat :=
  (if T.littleEndian then l else l.reverse).foldr (fun b n => b.toNat + 256 * n) 0

@[simp] theorem wordBytes_length (w n : Nat) : (T.wordBytes w n).length = w := by
  unfold wordBytes
  split_ifs <;> simp

theorem foldr_digits (w n : Nat) (h : n < 256 ^ w) :
    ((List.range w).map fun i => UInt8.ofNat (n / 256 ^ i)).foldr
      (fun b n => b.toNat + 256 * n) 0 = n := by
  induction w generalizing n with
  | zero =>
    have hn : n = 0 := by simpa using h
    rw [hn]
    rfl
  | succ w ih =>
    have hdiv : n / 256 < 256 ^ w := by
      rw [Nat.div_lt_iff_lt_mul (by decide)]
      rw [pow_succ] at h
      exact h
    have htail : ((List.range w).map fun i => UInt8.ofNat (n / 256 ^ (i + 1))) =
        (List.range w).map fun i => UInt8.ofNat (n / 256 / 256 ^ i) := by
      apply List.map_congr_left
      intro i _
      rw [pow_succ, Nat.mul_comm, Nat.div_div_eq_div_mul]
    have hhead : (UInt8.ofNat (n / 256 ^ 0)).toNat = n % 256 := by simp
    rw [List.range_succ_eq_map, List.map_cons, List.map_map, List.foldr_cons, hhead]
    show n % 256 + 256 * (((List.range w).map fun i => UInt8.ofNat (n / 256 ^ (i + 1))).foldr
      (fun b n => b.toNat + 256 * n) 0) = n
    rw [htail, ih _ hdiv]
    omega

theorem wordOf_wordBytes {w n : Nat} (h : n < 256 ^ w) : T.wordOf (T.wordBytes w n) = n := by
  unfold wordOf wordBytes
  cases T.littleEndian
  · simp only [Bool.false_eq_true, if_false, List.reverse_reverse]
    exact foldr_digits w n h
  · simp only [if_true]
    exact foldr_digits w n h

end Target

end UgmeeLua

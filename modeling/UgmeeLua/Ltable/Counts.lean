import UgmeeLua.Ltable.Resize

namespace UgmeeLua.Ltable

open Scatter Ltable.Table

variable {N : Type}

/-- The sum of the first counts. -/
def upto (nums : Nat → Nat) : Nat → Nat
  | 0 => nums 0
  | j + 1 => upto nums j + nums (j + 1)

section Sums

variable {nums nums' : Nat → Nat}

theorem upto_add (nums : Nat → Nat) (lg c j : Nat) :
    upto (fun l => if l = lg then nums l + c else nums l) j =
      upto nums j + if lg ≤ j then c else 0 := by
  induction j with
  | zero =>
    simp only [upto]
    split_ifs <;> omega
  | succ j ih =>
    simp only [upto, ih]
    split_ifs <;> omega

theorem upto_mono (nums : Nat → Nat) {i j : Nat} (h : i ≤ j) : upto nums i ≤ upto nums j := by
  induction h with
  | refl => exact Nat.le_refl _
  | step _ ih => exact Nat.le_trans ih (Nat.le_add_right _ _)

theorem upto_injective (h : ∀ j, upto nums j = upto nums' j) : nums = nums' := by
  funext j
  cases j with
  | zero => exact h 0
  | succ j =>
    have hj := h j
    have hnext := h (j + 1)
    simp only [upto] at hnext
    omega

/-- A size that `computesizes` may come to. -/
def SizeOf (nums : Nat → Nat) (r : Nat × Nat) : Prop :=
  r = (0, 0) ∨ ∃ j ≤ MAXBITS, r = (2 ^ j, upto nums j)

theorem computesizesLoop_spec {narray : Nat} (hall : upto nums MAXBITS = narray) (fuel : Nat)
    {i twotoi a na n : Nat} (hi : i ≤ MAXBITS) (htwo : twotoi = 2 ^ i)
    (ha : a + nums i = upto nums i) (hn : SizeOf nums (n, na)) :
    SizeOf nums (computesizesLoop nums narray fuel i twotoi a na n) := by
  induction fuel generalizing i twotoi a na n with
  | zero => exact hn
  | succ fuel ih =>
    have hbetter : ∀ b : Prop, [Decidable b] →
        SizeOf nums (if b then twotoi else n, if b then a + nums i else na) := by
      intro b _
      by_cases hb : b
      · rw [if_pos hb, if_pos hb, ha, htwo]
        exact .inr ⟨i, hi, rfl⟩
      · rw [if_neg hb, if_neg hb]
        exact hn
    simp only [computesizesLoop]
    by_cases hmore : twotoi / 2 < narray
    · rw [if_pos hmore]
      by_cases hdone : a + nums i = narray
      · rw [if_pos hdone]
        exact hbetter _
      · have hlt : i < MAXBITS := by
          refine Nat.lt_of_le_of_ne hi fun heq => hdone ?_
          rw [ha, heq, hall]
        rw [if_neg hdone]
        refine ih hlt ?_ ?_ (hbetter _)
        · rw [htwo, Nat.pow_succ]
        · rw [ha]
          rfl
    · rw [if_neg hmore]
      exact hn

theorem computesizes_spec {narray : Nat} (hall : upto nums MAXBITS = narray) :
    SizeOf nums (computesizes nums narray) :=
  computesizesLoop_spec hall narray (Nat.zero_le _) rfl (Nat.zero_add _) (.inl rfl)

end Sums

/-- The bound of the keys that are counted in the first slices. -/
def bound (j : Nat) : Nat := min (2 ^ j) MAXASIZE

/-- How many of the first places of an array have a value. -/
def filled (array : Nat → TValue N) (n : Nat) : Nat :=
  (List.range n).countP fun i => !(array i).isNil

theorem filled_mono (array : Nat → TValue N) {m n : Nat} (h : m ≤ n) :
    filled array m ≤ filled array n := by
  have hsub : (List.range m).Sublist (List.range n) := List.range_sublist.mpr h
  exact hsub.countP_le

theorem filled_slice (array : Nat → TValue N) {m n : Nat} (h : m ≤ n) :
    filled array m + (List.range' m (n - m)).countP (fun i => !(array i).isNil) =
      filled array n := by
  have hsplit : List.range n = List.range m ++ List.range' m (n - m) := by
    have happ := List.range'_append_1 (s := 0) (m := m) (n := n - m)
    rw [Nat.zero_add, Nat.add_sub_cancel' h] at happ
    rw [List.range_eq_range', List.range_eq_range', happ]
  rw [filled, filled, hsplit, List.countP_append]

theorem countP_shift (p : Nat → Bool) (m n : Nat) :
    (List.range' (m + 1) n).countP (fun j => p (j - 1)) = (List.range' m n).countP p := by
  induction n generalizing m with
  | zero => rfl
  | succ n ih => rw [List.range'_succ, List.range'_succ, List.countP_cons, List.countP_cons, ih]; rfl

section Arrays

variable (t : Table N)

/-- How many elements `numusearray` has gone over before a slice. -/
def visited (lg : Nat) : Nat := if lg = 0 then 0 else min (2 ^ (lg - 1)) t.sizearray

theorem visited_succ (lg : Nat) : visited t (lg + 1) = min (2 ^ lg) t.sizearray := rfl

theorem visited_le (lg : Nat) : visited t lg ≤ visited t (lg + 1) := by
  rw [visited_succ, visited]
  split_ifs with hlg
  · exact Nat.zero_le _
  · have hpow : 2 ^ (lg - 1) ≤ 2 ^ lg := Nat.pow_le_pow_right (by decide) (Nat.sub_le _ _)
    omega

theorem visited_mono {i j : Nat} (h : i ≤ j) : visited t i ≤ visited t j := by
  induction h with
  | refl => exact Nat.le_refl _
  | step _ ih => exact Nat.le_trans ih (visited_le t _)

theorem visited_le_sizearray (lg : Nat) : visited t lg ≤ t.sizearray := by
  unfold visited
  split_ifs
  · exact Nat.zero_le _
  · exact Nat.min_le_right _ _

theorem numusearrayLoop_spec (n lg ause : Nat) (nums : Nat → Nat) :
    let r := numusearrayLoop t (List.range' lg n) (visited t lg + 1) ause nums
    r.1 + filled t.array (visited t lg) = ause + filled t.array (visited t (lg + n)) ∧
      ∀ l, r.2 l + (if lg ≤ l ∧ l < lg + n then filled t.array (visited t l) else 0) =
        nums l + if lg ≤ l ∧ l < lg + n then filled t.array (visited t (l + 1)) else 0 := by
  induction n generalizing lg ause nums with
  | zero =>
    refine ⟨rfl, fun l => ?_⟩
    have hnot : ¬ (lg ≤ l ∧ l < lg + 0) := by omega
    rw [if_neg hnot, if_neg hnot]
    rfl
  | succ n ih =>
    simp only [List.range'_succ, numusearrayLoop]
    by_cases hbreak : 2 ^ lg > t.sizearray ∧ visited t lg + 1 > t.sizearray
    · rw [if_pos hbreak]
      have hfull : ∀ l, lg ≤ l → visited t l = t.sizearray := by
        intro l hl
        have hle := visited_mono t hl
        have hmax := visited_le_sizearray t l
        omega
      refine ⟨by rw [hfull lg (Nat.le_refl _), hfull _ (Nat.le_add_right _ _)], fun l => ?_⟩
      by_cases hl : lg ≤ l
      · rw [hfull l hl, hfull (l + 1) (Nat.le_succ_of_le hl)]
      · have hnot : ¬ (lg ≤ l ∧ l < lg + (n + 1)) := fun h => hl h.1
        rw [if_neg hnot, if_neg hnot]
    · rw [if_neg hbreak, ← visited_succ]
      have hle := visited_le t lg
      have hcount : (List.range' (visited t lg + 1) (visited t (lg + 1) + 1 - (visited t lg + 1))).countP
          (fun j => !(t.array (j - 1)).isNil) + filled t.array (visited t lg) =
          filled t.array (visited t (lg + 1)) := by
        rw [← filled_slice t.array hle, Nat.add_comm, Nat.add_sub_add_right,
          countP_shift fun i => !(t.array i).isNil]
      have hmax : max (visited t lg + 1) (visited t (lg + 1) + 1) = visited t (lg + 1) + 1 := by omega
      rw [hmax]
      obtain ⟨hsum, hnums⟩ := ih (lg + 1) (ause + (List.range' (visited t lg + 1)
        (visited t (lg + 1) + 1 - (visited t lg + 1))).countP (fun j => !(t.array (j - 1)).isNil))
        (fun l => if l = lg then nums l + (List.range' (visited t lg + 1)
          (visited t (lg + 1) + 1 - (visited t lg + 1))).countP (fun j => !(t.array (j - 1)).isNil)
          else nums l)
      have hlast : lg + (n + 1) = lg + 1 + n := by omega
      rw [hlast]
      refine ⟨by omega, fun l => ?_⟩
      have hl := hnums l
      by_cases heq : l = lg
      · subst heq
        have hnot : ¬ (l + 1 ≤ l ∧ l < l + 1 + n) := by omega
        have hyes : l ≤ l ∧ l < l + 1 + n := by omega
        rw [if_neg hnot, if_neg hnot, if_pos rfl] at hl
        rw [if_pos hyes, if_pos hyes]
        omega
      · have hiff : (lg ≤ l ∧ l < lg + 1 + n) ↔ (lg + 1 ≤ l ∧ l < lg + 1 + n) := by omega
        rw [if_neg heq] at hl
        simp only [hiff]
        exact hl

theorem visited_bound (j : Nat) : visited t (min j MAXBITS + 1) = min (bound j) t.sizearray := by
  have hpow : 2 ^ min j MAXBITS = bound j := by
    rcases Nat.le_total j MAXBITS with h | h
    · rw [Nat.min_eq_left h, bound, MAXASIZE, Nat.min_eq_left (Nat.pow_le_pow_right (by decide) h)]
    · rw [Nat.min_eq_right h, bound, MAXASIZE, Nat.min_eq_right (Nat.pow_le_pow_right (by decide) h)]
  rw [visited_succ, hpow]

theorem numusearray_spec :
    (numusearray t fun _ => 0).1 = filled t.array (min MAXASIZE t.sizearray) ∧
      ∀ j, upto (numusearray t fun _ => 0).2 j = filled t.array (min (bound j) t.sizearray) := by
  obtain ⟨hsum, hnums⟩ := numusearrayLoop_spec t (MAXBITS + 1) 0 0 fun _ => 0
  have hzero : filled t.array (visited t 0) = 0 := rfl
  have hstart : numusearray t (fun _ => 0) =
      numusearrayLoop t (List.range' 0 (MAXBITS + 1)) (visited t 0 + 1) 0 fun _ => 0 := by
    rw [numusearray, List.range_eq_range']
    rfl
  rw [← hstart] at hsum hnums
  refine ⟨?_, fun j => ?_⟩
  · have hlast : visited t (0 + (MAXBITS + 1)) = min MAXASIZE t.sizearray := by
      rw [Nat.zero_add, visited_succ]
      rfl
    rw [hlast, hzero] at hsum
    omega
  · rw [← visited_bound]
    induction j with
    | zero =>
      have hfirst := hnums 0
      rw [if_pos (by decide), if_pos (by decide), hzero] at hfirst
      have hmin : min 0 MAXBITS + 1 = 0 + 1 := rfl
      rw [hmin, upto]
      omega
    | succ j ih =>
      have hnext := hnums (j + 1)
      rw [upto, ih]
      by_cases hj : j + 1 ≤ MAXBITS
      · have hin : 0 ≤ j + 1 ∧ j + 1 < 0 + (MAXBITS + 1) := by omega
        rw [if_pos hin, if_pos hin] at hnext
        rw [Nat.min_eq_left (Nat.le_of_succ_le hj), Nat.min_eq_left hj]
        omega
      · have hout : ¬ (0 ≤ j + 1 ∧ j + 1 < 0 + (MAXBITS + 1)) := by omega
        rw [if_neg hout, if_neg hout] at hnext
        have hle : MAXBITS ≤ j := by omega
        rw [Nat.min_eq_right hle, Nat.min_eq_right (Nat.le_succ_of_le hle)]
        omega

end Arrays

variable [LuaNumber N]

/-- How many elements of the hash part have a key for an array of a size. -/
def nodeCount (t : Table N) (n : Nat) : Nat := t.live.countP fun p => index p.1 < n

/-- How many keys there are for an array of a size, with an extra key. -/
def total (t : Table N) (ek : TValue N) (n : Nat) : Nat :=
  filled t.array (min n t.sizearray) + nodeCount t n + if index ek < n then 1 else 0

section Totals

variable {t : Table N} {key ek : TValue N} {nums : Nat → Nat}

omit [LuaNumber N] in
theorem ceillog2_le {x j : Nat} : ceillog2 (x + 1) ≤ j ↔ x < 2 ^ j := by
  unfold ceillog2
  split_ifs with hone
  · have hx : x = 0 := by omega
    rw [hx]
    exact ⟨fun _ => Nat.two_pow_pos j, fun _ => Nat.zero_le _⟩
  · have hx : x ≠ 0 := by omega
    rw [Nat.add_sub_cancel]
    exact Nat.log2_lt hx

theorem countint_eq (key : TValue N) (nums : Nat → Nat) : countint key nums =
    if index key < MAXASIZE then
      (1, fun lg => if lg = ceillog2 (index key + 1) then nums lg + 1 else nums lg)
    else (0, nums) := by
  have hint : (0 < (arrayindex key).toInt ∧ (arrayindex key).toInt ≤ MAXASIZE) ↔
      index key < MAXASIZE := by
    have hmax : MAXASIZE = 67108864 := by decide
    have hone : (1 : BitVec 32).toNat = 1 := rfl
    have hlt := (arrayindex key).isLt
    rw [index, hmax, BitVec.toInt_eq_toNat_cond, BitVec.toNat_sub, hone]
    split_ifs <;> omega
  unfold countint
  dsimp only
  by_cases hin : index key < MAXASIZE
  · have hnat : (arrayindex key).toInt.toNat = index key + 1 := by
      have hmax : MAXASIZE = 67108864 := by decide
      have hone : (1 : BitVec 32).toNat = 1 := rfl
      have hlt := (arrayindex key).isLt
      rw [index, hmax, BitVec.toNat_sub, hone] at hin
      rw [index, BitVec.toNat_sub, hone, BitVec.toInt_eq_toNat_cond]
      split_ifs <;> omega
    rw [if_pos hin, if_pos (hint.mpr hin), hnat]
  · rw [if_neg hin, if_neg (fun h => hin (hint.mp h))]

theorem countint_spec (key : TValue N) (nums : Nat → Nat) :
    (countint key nums).1 = (if index key < MAXASIZE then 1 else 0) ∧
      ∀ j, upto (countint key nums).2 j = upto nums j + if index key < bound j then 1 else 0 := by
  rw [countint_eq]
  by_cases hin : index key < MAXASIZE
  · rw [if_pos hin, if_pos hin]
    refine ⟨rfl, fun j => ?_⟩
    have hiff : ceillog2 (index key + 1) ≤ j ↔ index key < bound j := by
      rw [ceillog2_le, bound]
      omega
    rw [upto_add nums (ceillog2 (index key + 1)) 1 j]
    simp only [hiff]
  · rw [if_neg hin, if_neg hin]
    refine ⟨rfl, fun j => ?_⟩
    have hnot : ¬ index key < bound j := by
      rw [bound]
      omega
    rw [if_neg hnot]
    rfl

theorem numusehashLoop_spec (is : List Nat) (totaluse ause : Nat) (nums : Nat → Nat) :
    let r := numusehashLoop t is totaluse ause nums
    let ps := is.filterMap t.pairAt
    r.1 = totaluse + ps.length ∧ r.2.1 = ause + ps.countP (fun p => index p.1 < MAXASIZE) ∧
      ∀ j, upto r.2.2 j = upto nums j + ps.countP (fun p => index p.1 < bound j) := by
  induction is generalizing totaluse ause nums with
  | nil => exact ⟨rfl, rfl, fun _ => rfl⟩
  | cons i is ih =>
    simp only [numusehashLoop]
    cases hp : t.pairAt i with
    | none =>
      have hnil : (t.node i).val.isNil = true := (TValue.isNil_iff _).mpr (pairAt_eq_none.mp hp)
      rw [if_pos hnil, List.filterMap_cons_none hp]
      exact ih totaluse ause nums
    | some p =>
      obtain ⟨hkey, hval, hne⟩ := pairAt_eq_some.mp hp
      have hnot : ¬ (t.node i).val.isNil = true := by
        rw [hval, isNil_eq_false hne]
        exact Bool.false_ne_true
      obtain ⟨hone, hslices⟩ := countint_spec p.1 nums
      rw [if_neg hnot, hkey, List.filterMap_cons_some hp]
      obtain ⟨htotal, hause, hnums⟩ :=
        ih (totaluse + 1) (ause + (countint p.1 nums).1) (countint p.1 nums).2
      refine ⟨?_, ?_, fun j => ?_⟩
      · rw [htotal, List.length_cons]
        omega
      · rw [hause, hone, List.countP_cons]
        simp only [decide_eq_true_eq]
        omega
      · rw [hnums, hslices, List.countP_cons]
        simp only [decide_eq_true_eq]
        omega

theorem numusehash_spec (t : Table N) (nums : Nat → Nat) :
    (numusehash t nums).1 = t.live.length ∧ (numusehash t nums).2.1 = nodeCount t MAXASIZE ∧
      ∀ j, upto (numusehash t nums).2.2 j = upto nums j + nodeCount t (bound j) := by
  obtain ⟨htotal, hause, hnums⟩ :=
    numusehashLoop_spec (t := t) (List.range t.sizenode).reverse 0 0 nums
  have hperm := nodes_perm t
  refine ⟨?_, ?_, fun j => ?_⟩
  · rw [← hperm.length_eq, ← Nat.zero_add (nodes t).length]
    exact htotal
  · rw [nodeCount, ← hperm.countP_eq, ← Nat.zero_add ((nodes t).countP _)]
    exact hause
  · rw [nodeCount, ← hperm.countP_eq]
    exact hnums j

/-- The counts that `rehash` makes. -/
structure Counted (t : Table N) (ek : TValue N) (nums : Nat → Nat) (narray : Nat) : Prop where
  sizes : rehashSizes t ek = ((computesizes nums narray).1,
    filled t.array (min MAXASIZE t.sizearray) + t.live.length + 1 - (computesizes nums narray).2)
  narray : narray = total t ek MAXASIZE
  slices : ∀ j, upto nums j = total t ek (bound j)

theorem rehashSizes_counted (t : Table N) (ek : TValue N) :
    ∃ nums narray, Counted t ek nums narray := by
  obtain ⟨hause, harray⟩ := numusearray_spec t
  obtain ⟨htotal, hhause, hhash⟩ := numusehash_spec t (numusearray t fun _ => 0).2
  obtain ⟨hone, hextra⟩ := countint_spec ek (numusehash t (numusearray t fun _ => 0).2).2.2
  refine ⟨(countint ek (numusehash t (numusearray t fun _ => 0).2).2.2).2,
    (numusearray t fun _ => 0).1 + (numusehash t (numusearray t fun _ => 0).2).2.1 +
      (countint ek (numusehash t (numusearray t fun _ => 0).2).2.2).1, ?_, ?_, fun j => ?_⟩
  · rw [← hause, ← htotal]
    rfl
  · rw [hause, hhause, hone]
    rfl
  · rw [hextra, hhash, harray]
    rfl

/-- The sizes of a rehash: those of the array and of the rest. -/
theorem rehashSizes_spec (t : Table N) (ek : TValue N) :
    (rehashSizes t ek).1 ≤ MAXASIZE ∧ (rehashSizes t ek).2 =
      filled t.array (min MAXASIZE t.sizearray) + t.live.length + 1 -
        total t ek (rehashSizes t ek).1 := by
  obtain ⟨nums, narray, hsizes, hnarray, hslices⟩ := rehashSizes_counted t ek
  have hall : upto nums MAXBITS = narray := by
    have hbound : bound MAXBITS = MAXASIZE := Nat.min_self _
    rw [hslices, hnarray, hbound]
  rw [hsizes]
  rcases computesizes_spec hall with hr | ⟨j, hj, hr⟩
  · have hzero : total t ek 0 = 0 := by simp [total, filled, nodeCount]
    rw [hr]
    exact ⟨Nat.zero_le _, by rw [hzero]⟩
  · have hle : 2 ^ j ≤ MAXASIZE := Nat.pow_le_pow_right (by decide) hj
    have hbound : bound j = 2 ^ j := Nat.min_eq_left hle
    rw [hr, hslices, hbound]
    exact ⟨hle, rfl⟩

/-- The size of the array follows from how many keys there are for each size. -/
theorem rehashSizes_congr {t' : Table N} {ek' : TValue N}
    (h : ∀ n ≤ MAXASIZE, total t' ek' n = total t ek n) :
    (rehashSizes t' ek').1 = (rehashSizes t ek).1 := by
  obtain ⟨nums, narray, hsizes, hnarray, hslices⟩ := rehashSizes_counted t ek
  obtain ⟨nums', narray', hsizes', hnarray', hslices'⟩ := rehashSizes_counted t' ek'
  have hnums : nums' = nums := by
    refine upto_injective fun j => ?_
    rw [hslices, hslices']
    exact h (bound j) (Nat.min_le_right _ _)
  have hsame : narray' = narray := by rw [hnarray, hnarray', h _ (Nat.le_refl _)]
  rw [hsizes, hsizes', hnums, hsame]

end Totals

end UgmeeLua.Ltable

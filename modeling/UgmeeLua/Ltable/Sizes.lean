import UgmeeLua.Ltable.Maps
import Mathlib.Data.Finset.Card
import Mathlib.Data.Finset.Range

namespace UgmeeLua.Ltable

open Scatter Ltable.Table LawfulNumber

variable {N : Type}

section Largest

variable {nums : Nat → Nat} {narray : Nat}

/-- More than half of `1..2 ^ j` is used. -/
def HalfUsed (nums : Nat → Nat) (j : Nat) : Prop := 2 ^ j < 2 * upto nums j

/-- The largest of the first powers of two of which more than half is used, or 0. -/
structure Best (nums : Nat → Nat) (i n : Nat) : Prop where
  chosen : n = 0 ∨ ∃ j < i, n = 2 ^ j ∧ HalfUsed nums j
  largest : ∀ j < i, HalfUsed nums j → 2 ^ j ≤ n

theorem Best.extend {i k n : Nat} (h : Best nums i n) (hik : i ≤ k)
    (hnone : ∀ j, i ≤ j → j < k → ¬ HalfUsed nums j) : Best nums k n := by
  refine ⟨h.chosen.imp_right fun hj => ?_, fun j hj hused => ?_⟩
  · obtain ⟨j, hlt, hn⟩ := hj
    exact ⟨j, Nat.lt_of_lt_of_le hlt hik, hn⟩
  · by_cases hji : j < i
    · exact h.largest j hji hused
    · exact absurd hused (hnone j (Nat.le_of_not_lt hji) hj)

/-- One pass of the loop of `computesizes`. -/
theorem Best.step {i n a : Nat} (h : Best nums i n) (ha : a + nums i = upto nums i)
    (hprev : 2 * a ≤ 2 ^ i) :
    Best nums (i + 1) (if nums i > 0 ∧ a + nums i > 2 ^ i / 2 then 2 ^ i else n) := by
  have hhalf : HalfUsed nums i ↔ nums i > 0 ∧ a + nums i > 2 ^ i / 2 := by
    rw [HalfUsed, ← ha]
    omega
  split_ifs with hbetter
  · refine ⟨.inr ⟨i, Nat.lt_succ_self i, rfl, hhalf.mpr hbetter⟩, fun j hj _ => ?_⟩
    exact Nat.pow_le_pow_right (by decide) (Nat.le_of_lt_succ hj)
  · refine h.extend (Nat.le_succ i) fun j hle hlt hused => ?_
    have hji : j = i := by omega
    subst hji
    exact hbetter (hhalf.mp hused)

theorem upto_le_of_all (hall : upto nums MAXBITS = narray) {j : Nat} (hj : j ≤ MAXBITS) :
    upto nums j ≤ narray := hall ▸ upto_mono nums hj

theorem computesizesLoop_best (hall : upto nums MAXBITS = narray)
    (hsmall : ∀ j ≤ MAXBITS, upto nums j ≤ 2 ^ j) (fuel : Nat) {i a na n : Nat} (hi : i ≤ MAXBITS)
    (hfuel : narray ≤ fuel + i) (ha : a + nums i = upto nums i) (hprev : 2 * a ≤ 2 ^ i)
    (hn : Best nums i n) :
    Best nums (MAXBITS + 1) (computesizesLoop nums narray fuel i (2 ^ i) a na n).1 := by
  -- past the last slice that is looked at no size is used by half
  have hstop : ∀ k m, k ≤ MAXBITS + 1 → 2 * narray ≤ 2 ^ k → Best nums k m →
      Best nums (MAXBITS + 1) m := by
    intro k m hk hlarge hbest
    refine hbest.extend hk fun j hkj hj hused => ?_
    have hle := upto_le_of_all hall (Nat.le_of_lt_succ hj)
    have hpow : 2 ^ k ≤ 2 ^ j := Nat.pow_le_pow_right (by decide) hkj
    rw [HalfUsed] at hused
    omega
  induction fuel generalizing i a na n with
  | zero =>
    have hlt : i < 2 ^ i := Nat.lt_two_pow_self
    by_cases hzero : i = 0
    · subst hzero
      exact hstop 0 n (Nat.zero_le _) (by omega) hn
    · obtain ⟨k, rfl⟩ : ∃ k, i = k + 1 := ⟨i - 1, by omega⟩
      have hk : k < 2 ^ k := Nat.lt_two_pow_self
      exact hstop (k + 1) n (Nat.le_succ_of_le hi) (by rw [Nat.pow_succ]; omega) hn
  | succ fuel ih =>
    have hstep := hn.step ha hprev
    simp only [computesizesLoop]
    by_cases hmore : 2 ^ i / 2 < narray
    · rw [if_pos hmore]
      have hle := hsmall i hi
      have hpow : 2 ^ (i + 1) = 2 * 2 ^ i := Nat.pow_succ'
      by_cases hdone : a + nums i = narray
      · rw [if_pos hdone]
        refine hstop (i + 1) _ (Nat.succ_le_succ hi) ?_ hstep
        omega
      · have hlt : i < MAXBITS := by
          refine Nat.lt_of_le_of_ne hi fun heq => hdone ?_
          rw [ha, heq, hall]
        have htwo : 2 ^ i * 2 = 2 ^ (i + 1) := by rw [Nat.pow_succ]
        rw [if_neg hdone, htwo]
        refine ih hlt (by omega) ?_ (by omega) hstep
        rw [ha]
        rfl
    · rw [if_neg hmore]
      refine hstop i n (Nat.le_succ_of_le hi) ?_ hn
      have hpos : 0 < 2 ^ i := Nat.two_pow_pos i
      by_cases hzero : i = 0
      · subst hzero
        omega
      · have heven : 2 ^ i = 2 ^ (i - 1) * 2 := by
          rw [← Nat.pow_succ]
          congr 1
          omega
        omega

theorem computesizes_best (hall : upto nums MAXBITS = narray)
    (hsmall : ∀ j ≤ MAXBITS, upto nums j ≤ 2 ^ j) :
    Best nums (MAXBITS + 1) (computesizes nums narray).1 := by
  refine computesizesLoop_best hall hsmall narray (Nat.zero_le _) (Nat.le_refl _) (Nat.zero_add _)
    (by decide) ⟨.inl rfl, fun j hj => ?_⟩
  exact absurd hj (Nat.not_lt_zero j)

/-- The indices at which the loop of `computesizes` reads `nums`. -/
def computesizesIndices (nums : Nat → Nat) (narray : Nat) : Nat → Nat → Nat → Nat → List Nat
  | 0, _, _, _ => []
  | fuel + 1, i, twotoi, a =>
    if twotoi / 2 < narray then
      i :: if a + nums i = narray then []
        else computesizesIndices nums narray fuel (i + 1) (twotoi * 2) (a + nums i)
    else []

theorem computesizesIndices_le (hall : upto nums MAXBITS = narray) (fuel : Nat) {i twotoi a : Nat}
    (hi : i ≤ MAXBITS) (ha : a + nums i = upto nums i) :
    ∀ l ∈ computesizesIndices nums narray fuel i twotoi a, l ≤ MAXBITS := by
  induction fuel generalizing i twotoi a with
  | zero => exact fun l hl => absurd hl List.not_mem_nil
  | succ fuel ih =>
    intro l hl
    rw [computesizesIndices] at hl
    split_ifs at hl with hmore hdone
    · rw [List.mem_singleton.mp hl]
      exact hi
    · have hlt : i < MAXBITS := by
        refine Nat.lt_of_le_of_ne hi fun heq => hdone ?_
        rw [ha, heq, hall]
      rcases List.mem_cons.mp hl with rfl | hl
      · exact hi
      · exact ih hlt (by rw [ha]; rfl) l hl
    · exact absurd hl List.not_mem_nil

end Largest

variable [LuaNumber N]

section Keys

/-- The integer key `i + 1` is present, or is the extra key. -/
def Present (t : Table N) (ek : TValue N) (i : Nat) : Prop :=
  (∃ w, Has t (.number (castNum (BitVec.ofNat 32 (i + 1)))) w) ∨
    luaORawequalObj (.number (castNum (BitVec.ofNat 32 (i + 1)))) ek = true

open Classical in
/-- How many of the integer keys `1..n` are present, the extra key included. -/
noncomputable def intKeys (t : Table N) (ek : TValue N) (n : Nat) : Nat :=
  ((Finset.range n).filter (Present t ek)).card

theorem intKeys_le (t : Table N) (ek : TValue N) (n : Nat) : intKeys t ek n ≤ n := by
  classical
  rw [intKeys]
  exact (Finset.card_filter_le _ _).trans_eq (Finset.card_range n)

variable {hash : TValue N → Nat} {t : Table N} {ek : TValue N}

omit [LuaNumber N] in
theorem filled_succ (array : Nat → TValue N) (n : Nat) :
    filled array (n + 1) = filled array n + if (array n).isNil then 0 else 1 := by
  rw [filled, List.range_succ, List.countP_append, List.countP_singleton]
  cases (array n).isNil <;> rfl

variable [LawfulNumber N]

/-- At most one node has an integer key. -/
theorem Inv.nodeCount_succ (h : Inv hash t) {n : Nat} (hn : n < 2 ^ 31) :
    (nodeCount t (n + 1) = nodeCount t n + 1 ∧ ∃ p ∈ t.live, index p.1 = n) ∨
      (nodeCount t (n + 1) = nodeCount t n ∧ ¬ ∃ p ∈ t.live, index p.1 = n) := by
  have hsum : ∀ ps : List (TValue N × TValue N),
      ps.countP (fun p => index p.1 < n + 1) =
        ps.countP (fun p => index p.1 < n) + ps.countP (fun p => index p.1 = n) := by
    intro ps
    induction ps with
    | nil => rfl
    | cons p ps ih =>
      simp only [List.countP_cons, ih, decide_eq_true_eq]
      split_ifs <;> omega
  have hone : ∀ ps : List (TValue N × TValue N),
      ps.Pairwise (fun p q => luaORawequalObj p.1 q.1 = false) →
      ps.countP (fun p => index p.1 = n) ≤ 1 := by
    intro ps hps
    induction hps with
    | nil => exact Nat.zero_le _
    | @cons p ps hp _ ih =>
      rw [List.countP_cons]
      by_cases hidx : index p.1 = n
      · have hnone : ps.countP (fun p => index p.1 = n) = 0 := by
          refine List.countP_eq_zero.mpr fun q hq hqn => ?_
          have heq : index q.1 = index p.1 := (of_decide_eq_true hqn).trans hidx.symm
          have hequal := rawequal_of_index (hidx ▸ hn) heq
          rw [hp q hq] at hequal
          cases hequal
        rw [hnone]
        split_ifs <;> omega
      · rw [if_neg (by rw [decide_eq_true_eq]; exact hidx)]
        exact ih
  have hsplit := hsum (nodes t)
  have hle := hone (nodes t) (nodes_apart h.elements)
  have hmem : (∃ p ∈ t.live, index p.1 = n) ↔ 0 < (nodes t).countP fun p => index p.1 = n := by
    rw [List.countP_pos_iff]
    simp only [(nodes_perm t).mem_iff, decide_eq_true_eq]
  rw [nodeCount, nodeCount, ← (nodes_perm t).countP_eq, ← (nodes_perm t).countP_eq, hmem]
  omega

theorem present_iff {i : Nat} (hi : i < 2 ^ 31) :
    Present t ek i ↔ (i < t.sizearray ∧ t.array i ≠ .nil) ∨ (∃ p ∈ t.live, index p.1 = i) ∨
      index ek = i := by
  have hidx : index (.number (castNum (BitVec.ofNat 32 (i + 1))) : TValue N) = i := index_castNum hi
  have hequal : ∀ k : TValue N,
      luaORawequalObj (.number (castNum (BitVec.ofNat 32 (i + 1)))) k = true ↔ index k = i := by
    intro k
    refine ⟨fun hk => ?_, fun hk => rawequal_of_index (by rw [hidx]; exact hi) (hk.trans hidx.symm)⟩
    rw [← hidx, index, index, arrayindex_congr hk]
  rw [Present, hequal, ← or_assoc]
  refine or_congr_left ⟨fun hw => ?_, fun hw => ?_⟩
  · obtain ⟨w, hne, ⟨hin, hval⟩ | ⟨p, hp, hpk, -⟩⟩ := hw
    · rw [hidx] at hin hval
      exact .inl ⟨hin, hval ▸ hne⟩
    · exact .inr ⟨p, hp, (hequal p.1).mp (rawequal_symm hpk)⟩
  · rcases hw with ⟨hin, hne⟩ | ⟨p, hp, hpi⟩
    · exact ⟨t.array i, hne, .inl ⟨by rw [hidx]; exact hin, by rw [hidx]⟩⟩
    · obtain ⟨j, -, hj⟩ := mem_contents.mp hp
      exact ⟨p.2, (pairAt_eq_some.mp hj).2.2,
        .inr ⟨p, hp, rawequal_symm ((hequal p.1).mpr hpi), rfl⟩⟩

/-- What `rehash` counts are the integer keys. -/
theorem Inv.total_eq (h : Inv hash t) (hek : ∀ w, ¬ Has t ek w) {n : Nat} (hn : n ≤ 2 ^ 31) :
    total t ek n = intKeys t ek n := by
  classical
  induction n with
  | zero => simp [total, filled, nodeCount, intKeys]
  | succ n ih =>
    have hlt : n < 2 ^ 31 := hn
    have hpresent := (present_iff hlt : Present t ek n ↔ _)
    have hout : ∀ p ∈ t.live, t.sizearray ≤ index p.1 := fun p hp =>
      (mem_nodes h.elements ((nodes_perm t).mem_iff.mpr hp)).2.2
    have hfilled : filled t.array (min (n + 1) t.sizearray) = filled t.array (min n t.sizearray) +
        if n < t.sizearray ∧ t.array n ≠ .nil then 1 else 0 := by
      by_cases hin : n < t.sizearray
      · rw [Nat.min_eq_left (Nat.le_of_lt hin), Nat.min_eq_left hin, filled_succ]
        by_cases hnil : t.array n = .nil
        · have hnot : ¬ (n < t.sizearray ∧ t.array n ≠ .nil) := fun hc => hc.2 hnil
          rw [if_neg hnot, (TValue.isNil_iff _).mpr hnil]
          rfl
        · have hyes : n < t.sizearray ∧ t.array n ≠ .nil := ⟨hin, hnil⟩
          rw [if_pos hyes, isNil_eq_false hnil]
          rfl
      · have hnot : ¬ (n < t.sizearray ∧ t.array n ≠ .nil) := fun hc => hin hc.1
        rw [Nat.min_eq_right (Nat.le_of_not_lt hin), if_neg hnot,
          Nat.min_eq_right (Nat.le_succ_of_le (Nat.le_of_not_lt hin)), Nat.add_zero]
    -- a key is in one place only, and the extra key in none
    have harray : n < t.sizearray ∧ t.array n ≠ .nil →
        (¬ ∃ p ∈ t.live, index p.1 = n) ∧ index ek ≠ n := by
      intro hin
      refine ⟨fun hp => ?_, fun hidx => ?_⟩
      · obtain ⟨p, hp, hpn⟩ := hp
        have hfar := hout p hp
        omega
      · exact hek (t.array n) ⟨hin.2, .inl ⟨hidx ▸ hin.1, by rw [hidx]⟩⟩
    have hnode : (∃ p ∈ t.live, index p.1 = n) → index ek ≠ n := by
      intro hp hidx
      obtain ⟨p, hp, hpn⟩ := hp
      obtain ⟨j, -, hj⟩ := mem_contents.mp hp
      exact hek p.2 ⟨(pairAt_eq_some.mp hj).2.2,
        .inr ⟨p, hp, rawequal_of_index (hpn ▸ hlt) (hidx.trans hpn.symm), rfl⟩⟩
    have hcard : intKeys t ek (n + 1) = intKeys t ek n + if Present t ek n then 1 else 0 := by
      rw [intKeys, Finset.range_add_one, Finset.filter_insert]
      split_ifs
      · rw [Finset.card_insert_of_notMem (by simp)]
        rfl
      · rfl
    have hih := ih (Nat.le_of_lt hlt)
    rw [total] at hih
    rw [hcard, total, hfilled]
    rcases h.nodeCount_succ hlt with ⟨hcount, hp⟩ | ⟨hcount, hp⟩
    · have hnot : ¬ (n < t.sizearray ∧ t.array n ≠ .nil) := fun hc => (harray hc).1 hp
      have hne := hnode hp
      rw [hcount, if_neg hnot, if_pos (hpresent.mpr (.inr (.inl hp)))]
      split_ifs at hih ⊢ <;> omega
    · rw [hcount]
      by_cases hin : n < t.sizearray ∧ t.array n ≠ .nil
      · have hne := (harray hin).2
        rw [if_pos hin, if_pos (hpresent.mpr (.inl hin))]
        split_ifs at hih ⊢ <;> omega
      · by_cases hidx : index ek = n
        · rw [if_neg hin, if_pos (hpresent.mpr (.inr (.inr hidx)))]
          split_ifs at hih ⊢ <;> omega
        · have hnot : ¬ Present t ek n := fun hc =>
            (hpresent.mp hc).elim hin fun hc => hc.elim hp hidx
          rw [if_neg hin, if_neg hnot]
          split_ifs at hih ⊢ <;> omega

end Keys

end UgmeeLua.Ltable

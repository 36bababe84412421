import UgmeeLua.Ltable.Reinsert

namespace UgmeeLua.Ltable

open Scatter Ltable.Table LawfulNumber

variable {N : Type}

/-- A table with a new node vector. -/
structure Emptied (t t' : Table N) : Prop where
  array : t'.array = t.array
  allocated : t'.allocated = t.allocated
  sizearray : t'.sizearray = t.sizearray
  node : ∀ i, t'.node i = emptyNode
  dummy : t'.isDummy = true → t'.lsizenode = 0 ∧ t'.lastfree = 0
  lastfree : t'.isDummy = false → t'.lastfree = t'.sizenode

theorem le_ceillog2 (size : Nat) : size ≤ 2 ^ ceillog2 size := by
  unfold ceillog2
  split_ifs with hone
  · exact hone
  · have hne : size - 1 ≠ 0 := by omega
    have hlt : size - 1 < 2 ^ ((size - 1).log2 + 1) := (Nat.log2_lt hne).mp (Nat.lt_succ_self _)
    omega

theorem setnodevector_yields (t : Table N) (size : Nat) :
    Yields (fun t' => Emptied t t' ∧ size ≤ capacity t') (setnodevector size t) := by
  unfold setnodevector
  split_ifs with hsize
  · refine .ok ⟨⟨rfl, rfl, rfl, fun _ => rfl, fun _ => ⟨rfl, rfl⟩, fun hd => (by cases hd)⟩, ?_⟩
    omega
  · dsimp only
    split_ifs
    · exact .overflow
    · refine .ok ⟨⟨rfl, rfl, rfl, fun _ => rfl, fun hd => (by cases hd), fun _ => rfl⟩, ?_⟩
      exact le_ceillog2 size

/-- The elements in the array from a size on. -/
def vanishing [LuaNumber N] (t : Table N) (nasize : Nat) : List (TValue N × TValue N) :=
  (List.range' nasize (t.sizearray - nasize)).filterMap (arrayPair t.array)

/-- The elements of the hash part, in the order of the loop over it. -/
def nodes (t : Table N) : List (TValue N × TValue N) :=
  (List.range t.sizenode).reverse.filterMap t.pairAt

theorem nodes_perm (t : Table N) : (nodes t).Perm t.live :=
  (List.reverse_perm _).filterMap t.pairAt

variable [LuaNumber N]

section Start

variable {hash : TValue N → Nat} {t t' : Table N}

omit [LuaNumber N] in
theorem Emptied.keyAt (h : Emptied t t') (i : Nat) : t'.keyAt i = none :=
  keyAt_eq_none.mpr (by rw [h.node]; rfl)

omit [LuaNumber N] in
theorem Emptied.packed (h : Emptied t t') : Packed t' := by
  intro i hi
  rw [h.keyAt] at hi
  cases hi

omit [LuaNumber N] in
theorem Emptied.live_eq (h : Emptied t t') : t'.live = [] := by
  refine List.eq_nil_iff_forall_not_mem.mpr fun p hp => ?_
  obtain ⟨i, -, hi⟩ := mem_contents.mp hp
  have hnil : (t'.node i).val = .nil := by
    rw [h.node]
    rfl
  rw [pairAt_eq_none.mpr hnil] at hi
  cases hi

theorem Emptied.inv (h : Emptied t t') (hmemory : t'.sizearray ≤ t'.allocated)
    (hsize : t'.sizearray < 2 ^ 31) : Inv hash t' := by
  have hkey := h.keyAt
  have hnext : ∀ i, t'.nextAt i = none := by
    intro i
    rw [nextAt, h.node]
    rfl
  have hnone : ∀ i k, t'.keyAt i ≠ some k := by
    intro i k hi
    rw [hkey] at hi
    cases hi
  refine ⟨.empty hkey hnext, fun hd => ⟨(h.dummy hd).1, (h.dummy hd).2, hkey⟩, fun i _ => ?_,
    fun i k hi => absurd hi (hnone i k), fun i j k k' hi => absurd hi (hnone i k),
    fun i k hi => absurd hi (hnone i k), fun hd i hi hlt => ?_, ?_, hmemory, hsize⟩
  · rw [h.node]
    rfl
  · rw [h.lastfree hd] at hi
    omega
  · cases hd : t'.isDummy with
    | true =>
      rw [(h.dummy hd).2]
      exact Nat.zero_le _
    | false => exact Nat.le_of_eq (h.lastfree hd)

end Start

/-- What a resize relies on of the elements of a table, wherever they are. -/
structure Elements (t : Table N) : Prop where
  proper : ∀ i p, t.pairAt i = some p → Proper p.1
  out : ∀ i p, t.pairAt i = some p → t.sizearray ≤ index p.1
  keys : ∀ i j p q, t.pairAt i = some p → t.pairAt j = some q →
    luaORawequalObj p.1 q.1 = true → i = j
  memory : t.sizearray ≤ t.allocated
  sizearray : t.sizearray < 2 ^ 31

theorem Inv.elements {hash : TValue N → Nat} {t : Table N} (h : Inv hash t) : Elements t :=
  ⟨fun i p hp => h.proper i p.1 (h.keyAt_of_pair hp), fun i p hp => h.ints i p.1 (h.keyAt_of_pair hp),
    fun i j p q hp hq => h.keys i j p.1 q.1 (h.keyAt_of_pair hp) (h.keyAt_of_pair hq), h.memory,
    h.sizearray⟩

section Elements

variable {hash : TValue N → Nat} {t t' : Table N} {nasize : Nat}

theorem arrayPair_eq_some {array : Nat → TValue N} {i : Nat} {p : TValue N × TValue N} :
    arrayPair array i = some p ↔
      p.1 = .number (castNum (BitVec.ofNat 32 (i + 1))) ∧ array i = p.2 ∧ p.2 ≠ .nil := by
  obtain ⟨k, v⟩ := p
  unfold arrayPair
  cases hv : array i <;> simp [TValue.isNil, eq_comm] <;> intro _ heq <;> simp [heq]

variable [LawfulNumber N]

theorem index_castNum {i : Nat} (hi : i < 2 ^ 31) :
    index (.number (castNum (BitVec.ofNat 32 (i + 1))) : TValue N) = i := by
  have hsub : BitVec.ofNat 32 (i + 1) - 1 = BitVec.ofNat 32 i := by
    rw [BitVec.ofNat_add]
    exact BitVec.add_sub_cancel _ _
  rw [index, arrayindex_castNum, hsub, BitVec.toNat_ofNat]
  omega

theorem mem_vanishing {p : TValue N × TValue N} (hsize : t.sizearray < 2 ^ 31)
    (h : p ∈ vanishing t nasize) : nasize ≤ index p.1 ∧ index p.1 < t.sizearray ∧
      t.array (index p.1) = p.2 ∧ p.2 ≠ .nil ∧ Proper p.1 := by
  obtain ⟨i, hi, hp⟩ := List.mem_filterMap.mp h
  obtain ⟨hle, hlt⟩ := List.mem_range'_1.mp hi
  obtain ⟨hk, hv, hne⟩ := arrayPair_eq_some.mp hp
  have hidx : index p.1 = i := by
    rw [hk]
    exact index_castNum (by omega)
  rw [hidx, hk]
  exact ⟨hle, by omega, hv, hne, proper_castNum _⟩

omit [LawfulNumber N] in
theorem vanishing_mem {i : Nat} (hle : nasize ≤ i)
    (hlt : i < t.sizearray) (hne : t.array i ≠ .nil) :
    (.number (castNum (BitVec.ofNat 32 (i + 1))), t.array i) ∈ vanishing t nasize :=
  List.mem_filterMap.mpr ⟨i, List.mem_range'_1.mpr ⟨hle, by omega⟩,
    arrayPair_eq_some.mpr ⟨rfl, rfl, hne⟩⟩

theorem vanishing_apart (hsize : t.sizearray < 2 ^ 31) :
    (vanishing t nasize).Pairwise fun p q => luaORawequalObj p.1 q.1 = false := by
  refine List.Pairwise.filterMap _ (R := fun i j => i < j ∧ j < t.sizearray) ?_ ?_
  · intro i j hij p hp q hq
    obtain ⟨hk, -, -⟩ := arrayPair_eq_some.mp hp
    obtain ⟨hk', -, -⟩ := arrayPair_eq_some.mp hq
    by_contra hne
    rw [Bool.not_eq_false] at hne
    have hidx : index p.1 = index q.1 := by rw [index, index, arrayindex_congr hne]
    rw [hk, hk', index_castNum (by omega), index_castNum (by omega)] at hidx
    omega
  · refine List.Pairwise.imp_of_mem ?_ List.pairwise_lt_range'
    intro i j _ hj hij
    obtain ⟨hle, hlt⟩ := List.mem_range'_1.mp hj
    exact ⟨hij, by omega⟩

omit [LawfulNumber N] in
theorem mem_nodes {p : TValue N × TValue N} (h : Elements t) (hp : p ∈ nodes t) :
    Proper p.1 ∧ p.2 ≠ .nil ∧ t.sizearray ≤ index p.1 := by
  obtain ⟨i, -, hi⟩ := mem_contents.mp ((nodes_perm t).mem_iff.mp hp)
  exact ⟨h.proper i p hi, (pairAt_eq_some.mp hi).2.2, h.out i p hi⟩

omit [LawfulNumber N] in
theorem nodes_apart (h : Elements t) :
    (nodes t).Pairwise fun p q => luaORawequalObj p.1 q.1 = false := by
  refine List.Pairwise.filterMap _ (R := fun i j => i ≠ j) ?_ ?_
  · intro i j hij p hp q hq
    by_contra hne
    rw [Bool.not_eq_false] at hne
    exact hij (h.keys i j p q hp hq hne)
  · exact List.nodup_reverse.mpr List.nodup_range

/-- A table without a node vector of its own, with the array of another in a new size. -/
structure Started (hash : TValue N → Nat) (t t1 : Table N) (nasize : Nat) : Prop where
  inv : Inv hash t1
  packed : Packed t1
  sizearray : t1.sizearray = nasize
  array : ∀ i < nasize, t1.array i = if i < t.sizearray then t.array i else .nil
  live : t1.live = []

omit [LawfulNumber N] in
theorem Started.has {t1 : Table N} (h : Started hash t t1 nasize) (k w : TValue N) :
    Has t1 k w ↔ w ≠ .nil ∧ index k < nasize ∧ index k < t.sizearray ∧ t.array (index k) = w := by
  simp only [Has, h.sizearray, h.live, List.not_mem_nil, false_and, exists_false, or_false]
  constructor
  · intro hw
    obtain ⟨hne, hlt, hval⟩ := hw
    rw [h.array _ hlt] at hval
    split_ifs at hval with hold
    · exact ⟨hne, hlt, hold, hval⟩
    · exact absurd hval.symm hne
  · intro hw
    obtain ⟨hne, hlt, hold, hval⟩ := hw
    exact ⟨hne, hlt, by rw [h.array _ hlt, if_pos hold]; exact hval⟩

theorem Started.pending {t1 : Table N} (h : Started hash t t1 nasize) (hinv : Elements t) :
    Pending t1 (vanishing t nasize ++ nodes t) := by
  refine ⟨fun p hp => ?_, List.pairwise_append.mpr ⟨vanishing_apart hinv.sizearray,
    nodes_apart hinv, fun p hp q hq => ?_⟩, fun p hp w hw => ?_⟩
  · rcases List.mem_append.mp hp with hp | hp
    · obtain ⟨-, -, -, hne, hkey⟩ := mem_vanishing hinv.sizearray hp
      exact ⟨hkey, hne⟩
    · obtain ⟨hkey, hne, -⟩ := mem_nodes hinv hp
      exact ⟨hkey, hne⟩
  · obtain ⟨-, hlt, -, -, -⟩ := mem_vanishing hinv.sizearray hp
    obtain ⟨-, -, hout⟩ := mem_nodes hinv hq
    by_contra hne
    rw [Bool.not_eq_false] at hne
    have hidx : index p.1 = index q.1 := by rw [index, index, arrayindex_congr hne]
    omega
  · obtain ⟨-, hlt, hold, -⟩ := (h.has p.1 w).mp hw
    rcases List.mem_append.mp hp with hp | hp
    · obtain ⟨hle, -, -, -, -⟩ := mem_vanishing hinv.sizearray hp
      omega
    · obtain ⟨-, -, hout⟩ := mem_nodes hinv hp
      omega

/-- With all its elements back the table holds what it held. -/
theorem Started.has_all {t1 : Table N} (h : Started hash t t1 nasize) (hinv : Elements t)
    (k w : TValue N) : (Has t1 k w ∨ ∃ p ∈ vanishing t nasize ++ nodes t,
      luaORawequalObj p.1 k = true ∧ p.2 = w) ↔ Has t k w := by
  constructor
  · intro hw
    rcases hw with hw | ⟨p, hp, hpk, hpw⟩
    · obtain ⟨hne, -, hold, hval⟩ := (h.has k w).mp hw
      exact ⟨hne, .inl ⟨hold, hval⟩⟩
    · rcases List.mem_append.mp hp with hp | hp
      · obtain ⟨-, hlt, hval, hne, -⟩ := mem_vanishing hinv.sizearray hp
        have hidx : index p.1 = index k := by rw [index, index, arrayindex_congr hpk]
        rw [hidx] at hlt hval
        exact ⟨hpw ▸ hne, .inl ⟨hlt, hval.trans hpw⟩⟩
      · obtain ⟨-, hne, -⟩ := mem_nodes hinv hp
        exact ⟨hpw ▸ hne, .inr ⟨p, (nodes_perm t).mem_iff.mp hp, hpk, hpw⟩⟩
  · intro hw
    obtain ⟨hne, ⟨hlt, hval⟩ | ⟨p, hp, hpk, hpw⟩⟩ := hw
    · by_cases hin : index k < nasize
      · exact .inl ((h.has k w).mpr ⟨hne, hin, hlt, hval⟩)
      · have hmem := vanishing_mem (t := t) (Nat.le_of_not_lt hin) hlt (hval ▸ hne)
        have hsize := hinv.sizearray
        refine .inr ⟨_, List.mem_append_left _ hmem, ?_, hval⟩
        exact rawequal_of_index (by rw [index_castNum] <;> omega) (index_castNum (by omega)).symm
    · exact .inr ⟨p, List.mem_append_right _ ((nodes_perm t).mem_iff.mpr hp), hpk, hpw⟩

/-- What `resize` makes of a table. -/
structure Resized (hash : TValue N → Nat) (t t' : Table N) (nasize : Nat) : Prop where
  inv : Inv hash t'
  packed : Packed t'
  sizearray : t'.sizearray = nasize
  array : ∀ i < nasize, i < t.sizearray → t'.array i = t.array i
  live : t'.live.Perm ((vanishing t nasize ++ nodes t).filter (beyond nasize))
  has : ∀ k w, Has t' k w ↔ Has t k w
  same : nasize = t.sizearray → t'.array = t.array ∧ t'.allocated = t.allocated

end Elements

section Resizing

variable [LawfulNumber N] {hash : TValue N → Nat} {t : Table N} {nasize : Nat}

/-- A table in `resize` with the elements of the vanishing slice, before those of the old hash part. -/
structure Halfway (hash : TValue N → Nat) (t t3 : Table N) (nasize : Nat) : Prop where
  inv : Inv hash t3
  packed : Packed t3
  sizearray : t3.sizearray = nasize
  array : ∀ i < nasize, i < t.sizearray → t3.array i = t.array i
  live : t3.live.Perm ((vanishing t nasize).filter (beyond nasize))
  has : ∃ t1, Started hash t t1 nasize ∧ ∀ k w, Has t3 k w ↔ Has t1 k w ∨
    ∃ p ∈ vanishing t nasize, luaORawequalObj p.1 k = true ∧ p.2 = w
  same : nasize = t.sizearray → t3.array = t.array ∧ t3.allocated = t.allocated

omit [LawfulNumber N] in
theorem vanishing_eq_nil (h : t.sizearray ≤ nasize) : vanishing t nasize = [] := by
  rw [vanishing, Nat.sub_eq_zero_of_le h]
  rfl

omit [LawfulNumber N] in
theorem Inv.allocated_sizearray (h : Inv hash t) : Inv hash { t with allocated := t.sizearray } :=
  ⟨h.scattered, h.dummy, h.free, h.proper, h.keys, h.ints, h.lastfree, h.lastfree_le,
    Nat.le_refl _, h.sizearray⟩

variable {newkey : Newkey N} {Q : Table N → List (TValue N × TValue N) → Prop} {nhsize : Nat}

omit [LawfulNumber N] in
/-- The array part is not to shrink. -/
theorem Elements.grow_halfway (h : Elements t) (hle : t.sizearray ≤ nasize) (hnasize : nasize < 2 ^ 31)
    {t1 : Table N}
    (hemp : Emptied (if nasize > t.sizearray then setarrayvector nasize t else t) t1) :
    Started hash t t1 nasize ∧ Halfway hash t t1 nasize := by
  generalize ht0 : (if nasize > t.sizearray then setarrayvector nasize t else t) = t0 at hemp
  have hfacts : t0.sizearray = nasize ∧ nasize ≤ t0.allocated ∧
      (∀ i < nasize, t0.array i = if i < t.sizearray then t.array i else .nil) ∧
      (nasize = t.sizearray → t0 = t) := by
    rw [← ht0]
    by_cases hgrow : nasize > t.sizearray
    · rw [if_pos hgrow]
      refine ⟨rfl, Nat.le_refl _, fun i hi => ?_, fun heq => by omega⟩
      by_cases hin : i < t.sizearray
      · rw [if_pos hin]
        exact if_neg (by omega)
      · rw [if_neg hin]
        exact if_pos ⟨Nat.le_of_not_lt hin, hi⟩
    · have heq : t.sizearray = nasize := by omega
      rw [if_neg hgrow]
      refine ⟨heq, heq ▸ h.memory, fun i hi => ?_, fun _ => rfl⟩
      rw [if_pos (by omega)]
  obtain ⟨hsize, hroom, harray, hsame⟩ := hfacts
  have hinv : Inv hash t1 := by
    refine hemp.inv ?_ ?_
    · rw [hemp.sizearray, hemp.allocated, hsize]
      exact hroom
    · rw [hemp.sizearray, hsize]
      exact hnasize
  have hstarted : Started hash t t1 nasize :=
    ⟨hinv, hemp.packed, hemp.sizearray.trans hsize, fun i hi => by rw [hemp.array, harray i hi],
      hemp.live_eq⟩
  have hnil := vanishing_eq_nil hle
  refine ⟨hstarted, hinv, hemp.packed, hstarted.sizearray, fun i hi hold => ?_, ?_,
    ⟨t1, hstarted, fun k w => ?_⟩, fun heq => ?_⟩
  · rw [hstarted.array i hi, if_pos hold]
  · rw [hemp.live_eq, hnil]
    exact .refl _
  · rw [hnil]
    simp
  · rw [hemp.array, hemp.allocated, hsame heq]
    exact ⟨rfl, rfl⟩

/-- The array part shrinks. -/
theorem Elements.shrink_halfway (h : Elements t) (hQ : Accepts hash newkey Q)
    (halloc : ∀ t ps, Q t ps → Q { t with allocated := t.sizearray } ps)
    (hlt : nasize < t.sizearray) {t1 : Table N} (hemp : Emptied t t1)
    (hstart : Started hash t { t1 with sizearray := nasize } nasize →
      Q { t1 with sizearray := nasize } (vanishing t nasize ++ nodes t)) :
    Yields (fun t3 => Halfway hash t t3 nasize ∧ Q t3 (nodes t))
      (shrinkArray hash newkey nasize t.sizearray t1) := by
  have hcut : Emptied { t with sizearray := nasize } { t1 with sizearray := nasize } :=
    ⟨hemp.array, hemp.allocated, rfl, hemp.node, hemp.dummy, hemp.lastfree⟩
  have hroom : t.sizearray ≤ t1.allocated := hemp.allocated ▸ h.memory
  have hinv : Inv hash { t1 with sizearray := nasize } :=
    hcut.inv (Nat.le_trans (Nat.le_of_lt hlt) hroom) (Nat.lt_trans hlt h.sizearray)
  have hstarted : Started hash t { t1 with sizearray := nasize } nasize := by
    refine ⟨hinv, hcut.packed, rfl, fun i hi => ?_, hcut.live_eq⟩
    rw [if_pos (Nat.lt_trans hi hlt)]
    exact congrFun hemp.array i
  have hQ1 : Accepts hash newkey fun t1 ps => Q t1 (ps ++ nodes t) := fun t1 p ps hq =>
    (hQ t1 p (ps ++ nodes t) hq).mono fun r hr => ⟨hr.allocated, hr.array, hr.write⟩
  have hloop := reinsertArray_added hQ1 t.array (List.range' nasize (t.sizearray - nasize))
    { t1 with sizearray := nasize } (fun i hi => ?_) (hstart hstarted)
  · rw [shrinkArray, if_pos hlt]
    refine hloop.bind fun t3 h3 => .ok ?_
    obtain ⟨hadd, hq⟩ := h3
    obtain ⟨hinv3, hpacked3⟩ := hadd.inv hinv hcut.packed
    have hsize3 : t3.sizearray = nasize := hadd.sizes.1
    have hlive3 := hadd.live
    rw [hcut.live_eq, List.append_nil] at hlive3
    have hinv' : Inv hash { t3 with allocated := nasize } := by
      rw [← hsize3]
      exact hinv3.allocated_sizearray
    have hq' : Q { t3 with allocated := nasize } (nodes t) := by
      rw [← hsize3]
      exact halloc t3 _ hq
    refine ⟨⟨hinv', hpacked3, hsize3, fun i hi hold => ?_, hlive3,
      ⟨_, hstarted, fun k w => hadd.has k w⟩, fun heq => ?_⟩, hq'⟩
    · have hsame : t3.array i = t1.array i := by
        refine hadd.array (.inr fun p hp => ?_)
        obtain ⟨hle, -⟩ := mem_vanishing h.sizearray hp
        omega
      exact hsame.trans (congrFun hemp.array i)
    · omega
  · obtain ⟨hle, hlt'⟩ := List.mem_range'_1.mp hi
    exact ⟨hle, Nat.lt_of_lt_of_le (by omega) hroom, congrFun hemp.array i⟩

/-- `resize`, with stores that keep an invariant of what there is and what is still to come. -/
theorem Elements.resize_yields (h : Elements t) (hQ : Accepts hash newkey Q)
    (halloc : ∀ t ps, Q t ps → Q { t with allocated := t.sizearray } ps)
    (hnasize : nasize < 2 ^ 31)
    (hstart : ∀ t1, Started hash t t1 nasize → nhsize ≤ capacity t1 →
      Q t1 (vanishing t nasize ++ nodes t)) :
    Yields (fun t' => Resized hash t t' nasize ∧ Q t' []) (resize hash newkey t nasize nhsize) := by
  unfold resize
  refine (setnodevector_yields _ nhsize).bind fun t1 h1 => ?_
  obtain ⟨hemp, hcap⟩ := h1
  have hhalf : Yields (fun t3 => Halfway hash t t3 nasize ∧ Q t3 (nodes t))
      (shrinkArray hash newkey nasize t.sizearray t1) := by
    by_cases hlt : nasize < t.sizearray
    · rw [if_neg (by omega)] at hemp
      exact h.shrink_halfway hQ halloc hlt hemp fun hs => hstart _ hs hcap
    · have hle : t.sizearray ≤ nasize := Nat.le_of_not_lt hlt
      obtain ⟨hstarted, hhalf⟩ := h.grow_halfway hle hnasize hemp
      have hq := hstart t1 hstarted hcap
      rw [vanishing_eq_nil hle, List.nil_append] at hq
      rw [shrinkArray, if_neg hlt]
      exact .ok ⟨hhalf, hq⟩
  refine hhalf.bind fun t3 h3 => ?_
  obtain ⟨hhalf, hq⟩ := h3
  refine (reinsertNodes_added hQ t _ t3 hq).mono fun t' h' => ?_
  obtain ⟨hadd, hq'⟩ := h'
  change AddedAll hash (nodes t) t3 t' at hadd
  obtain ⟨hinv', hpacked'⟩ := hadd.inv hhalf.inv hhalf.packed
  obtain ⟨hsize', halloc'⟩ := hadd.sizes
  have hfar : ∀ p ∈ nodes t, t.sizearray ≤ index p.1 := fun p hp => (mem_nodes h hp).2.2
  refine ⟨⟨hinv', hpacked', hsize'.trans hhalf.sizearray, fun i hi hold => ?_, ?_, fun k w => ?_,
    fun heq => ?_⟩, hq'⟩
  · rw [← hhalf.array i hi hold]
    refine hadd.array (.inr fun p hp => ?_)
    have hout := hfar p hp
    omega
  · have hlive := hadd.live
    rw [hhalf.sizearray] at hlive
    rw [List.filter_append]
    exact (hlive.trans (hhalf.live.append_left _)).trans List.perm_append_comm
  · obtain ⟨t1, hstarted, hhas⟩ := hhalf.has
    rw [← hstarted.has_all h, hadd.has, hhas]
    simp only [List.mem_append, or_and_right, exists_or, or_assoc]
  · obtain ⟨harray, hallocated⟩ := hhalf.same heq
    refine ⟨?_, halloc'.trans hallocated⟩
    rw [← harray]
    funext i
    refine hadd.array ?_
    by_cases hi : t3.sizearray ≤ i
    · exact .inl hi
    · refine .inr fun p hp => ?_
      have hout := hfar p hp
      rw [hhalf.sizearray, heq] at hi
      omega

/-- `resize`, where there is room in the new table for what does not go into its array. -/
theorem Elements.resize_room (h : Elements t) (hhash : Consistent hash) (newkey : Newkey N)
    (hnasize : nasize < 2 ^ 31)
    (hroom : ((vanishing t nasize ++ nodes t).filter (beyond nasize)).length ≤ nhsize) :
    Yields (fun t' => Resized hash t t' nasize ∧ nhsize ≤ capacity t')
      (resize hash (newkeyStep hash newkey) t nasize nhsize) := by
  refine (h.resize_yields (accepts_room hhash newkey nhsize) (fun t1 ps hq => ?_) hnasize
    fun t1 hs hc => ?_).mono fun t' h' => ⟨h'.1, h'.2.size⟩
  · exact ⟨hq.inv.allocated_sizearray, hq.packed, ⟨hq.pending.proper, hq.pending.apart,
      hq.pending.absent⟩, hq.room, hq.size⟩
  · refine ⟨hs.inv, hs.packed, hs.pending h, ?_, hc⟩
    rw [hs.live, hs.sizearray, List.length_nil, Nat.zero_add]
    exact Nat.le_trans hroom hc

end Resizing

end UgmeeLua.Ltable

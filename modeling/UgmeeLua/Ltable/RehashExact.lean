import UgmeeLua.Ltable.Sizes

namespace UgmeeLua.Ltable

open Scatter Ltable.Table LawfulNumber

variable {N : Type} [LuaNumber N]

/-- `newkey`, with what it does when no position is free as a parameter. -/
def newkeyFull (hash : TValue N → Nat) (full : Newkey N) (t : Table N) (key : TValue N) :
    Except Failure (Slot × Table N) :=
  let mp := mainposition hash t key
  if !(t.node mp).val.isNil || t.isDummy then
    match getfreepos t t.lastfree with
    | (none, lastfree) => full { t with lastfree := lastfree } key
    | (some n, lastfree) =>
      let t := { t with lastfree := lastfree }
      let othern := mainposition hash t (t.node mp).key
      if othern ≠ mp then .ok (putKey (moveNode t mp n othern) mp key)
      else .ok (putKey (chainNode t mp n) n key)
  else .ok (putKey t mp key)

theorem newkeyStep_eq_full (hash : TValue N → Nat) (newkey : Newkey N) :
    newkeyStep hash newkey = newkeyFull hash fun t key =>
      rehash hash newkey t key >>= fun t => setWith hash newkey t key := rfl

/-- Some element that `resize` puts back finds no free position, and asks for a rehash. -/
def NestedRehash (hash : TValue N → Nat) (t : Table N) (nasize nhsize : Nat) : Prop :=
  resize hash (newkeyFull hash fun _ _ => .error .tooDeep) t nasize nhsize = .error .tooDeep

section Nested

variable {hash : TValue N → Nat} {t : Table N} {key : TValue N} {p : TValue N × TValue N}
  {ps : List (TValue N × TValue N)} {size nasize nhsize : Nat}

omit [LuaNumber N] in
theorem newkeyFull_eq (hplace : HasPlace hash t key) (full full' : Newkey N) :
    newkeyFull hash full t key = newkeyFull hash full' t key := by
  obtain ⟨hdummy, hnil | ⟨n, hn⟩⟩ := hplace
  · have hno : (!(t.node (mainposition hash t key)).val.isNil || t.isDummy) = false := by
      rw [(TValue.isNil_iff _).mpr hnil, hdummy]
      rfl
    simp only [newkeyFull, hno, Bool.false_eq_true, if_false]
  · cases hfree : getfreepos t t.lastfree with
    | mk n' lastfree =>
      rw [hfree] at hn
      have hn : n' = some n := hn
      subst hn
      simp only [newkeyFull, hfree]

/-- With room for what is to come the next key has a place. -/
theorem Room.hasPlace (h : Room hash size t (p :: ps)) (hout : t.sizearray ≤ index p.1) :
    HasPlace hash t p.1 := by
  have hroom := h.room
  have hbeyond : beyond t.sizearray p = true := decide_eq_true hout
  rw [List.filter_cons_of_pos hbeyond, List.length_cons] at hroom
  exact h.inv.hasPlace h.packed (by omega)

variable [LawfulNumber N]

/-- With room for what is to come no store asks for a rehash. -/
theorem accepts_room_full (hhash : Consistent hash) (full : Newkey N) (size : Nat) :
    Accepts hash (newkeyFull hash full) (Room hash size) := by
  intro t p ps h
  have hstep := accepts_room hhash (fun _ _ => .error .tooDeep) size t p ps h
  have hkey := (h.pending.proper p List.mem_cons_self).1
  have hsame : setWith hash (newkeyFull hash full) t p.1 =
      setWith hash (newkeyStep hash fun _ _ => .error .tooDeep) t p.1 := by
    have hkept := h.inv.get_kept hhash hkey.1
    cases hget : luaHGet hash t p.1 with
    | some s => simp only [setWith, hget]
    | none =>
      rw [hget] at hkept
      cases hkept with
      | none hout _ =>
        rw [setWith_none _ hkey hget, setWith_none _ hkey hget, newkeyStep_eq_full]
        exact newkeyFull_eq (h.hasPlace hout) _ _
  rw [hsame]
  exact hstep

theorem Inv.resize_room_full (h : Inv hash t) (hhash : Consistent hash) (full : Newkey N)
    (hnasize : nasize < 2 ^ 31)
    (hroom : ((vanishing t nasize ++ nodes t).filter (beyond nasize)).length ≤ nhsize) :
    Yields (fun t' => Resized hash t t' nasize ∧ nhsize ≤ capacity t')
      (resize hash (newkeyFull hash full) t nasize nhsize) := by
  refine (h.elements.resize_yields (accepts_room_full hhash full nhsize) (fun t1 ps hq => ?_) hnasize
    fun t1 hs hc => ?_).mono fun t' h' => ⟨h'.1, h'.2.size⟩
  · exact ⟨hq.inv.allocated_sizearray, hq.packed, ⟨hq.pending.proper, hq.pending.apart,
      hq.pending.absent⟩, hq.room, hq.size⟩
  · refine ⟨hs.inv, hs.packed, hs.pending h.elements, ?_, hc⟩
    rw [hs.live, hs.sizearray, List.length_nil, Nat.zero_add]
    exact Nat.le_trans hroom hc

end Nested

/-- What `rehash` has counted for `computesizes`: all keys, those that may go into the array, and
`nums`. -/
def rehashCounts (t : Table N) (ek : TValue N) : Nat × Nat × (Nat → Nat) :=
  let (ause, nums) := numusearray t fun _ => 0
  let (hashuse, hause, nums) := numusehash t nums
  let (c, nums) := countint ek nums
  (ause + hashuse + 1, ause + hause + c, nums)

/-- `na` in `rehash`. -/
def rehashNa (t : Table N) (ek : TValue N) : Nat :=
  let (_, narray, nums) := rehashCounts t ek
  (computesizes nums narray).2

theorem rehashSizes_eq_counts (t : Table N) (ek : TValue N) :
    rehashSizes t ek = ((computesizes (rehashCounts t ek).2.2 (rehashCounts t ek).2.1).1,
      (rehashCounts t ek).1 - rehashNa t ek) := rfl

/-- The index at which `countint` writes to `nums`. -/
def countintIndices (key : TValue N) : List Nat :=
  let k := (arrayindex key).toInt
  if 0 < k ∧ k ≤ MAXASIZE then [ceillog2 k.toNat] else []

/-- The indices at which `rehash` and what it calls use `nums`. -/
def numsIndices (t : Table N) (ek : TValue N) : List Nat :=
  let (_, narray, nums) := rehashCounts t ek
  List.range (MAXBITS + 1) ++ (nodes t).flatMap (fun p => countintIndices p.1) ++
    countintIndices ek ++ computesizesIndices nums narray narray 0 1 0

/-- How many keys there are besides `1..n`, the extra key included. -/
def remaining (t : Table N) (ek : TValue N) (n : Nat) : Nat :=
  ((vanishing t 0 ++ nodes t).filter (beyond n)).length + if index ek < n then 0 else 1

/-- The largest power of two up to `2 ^ MAXBITS` of which more than half is used, or 0. -/
structure LargestUsed (used : Nat → Nat) (n : Nat) : Prop where
  chosen : n = 0 ∨ ∃ j ≤ MAXBITS, n = 2 ^ j ∧ n < 2 * used n
  largest : ∀ j ≤ MAXBITS, 2 ^ j < 2 * used (2 ^ j) → 2 ^ j ≤ n

/-- The counts of a rehash are exact, and what it puts back has room. -/
structure RehashExact (hash : TValue N → Nat) (t : Table N) (ek : TValue N) : Prop where
  largest : LargestUsed (intKeys t ek) (rehashSizes t ek).1
  na : rehashNa t ek = intKeys t ek (rehashSizes t ek).1
  indices : ∀ i ∈ numsIndices t ek, i ≤ MAXBITS
  room : remaining t ek (rehashSizes t ek).1 ≤ (rehashSizes t ek).2
  notNested : ¬ NestedRehash hash t (rehashSizes t ek).1 (rehashSizes t ek).2

section Exact

variable {hash : TValue N → Nat} {t : Table N} {ek : TValue N}

theorem rehashCounts_spec (t : Table N) (ek : TValue N) :
    (rehashCounts t ek).1 = filled t.array (min MAXASIZE t.sizearray) + t.live.length + 1 ∧
      (rehashCounts t ek).2.1 = total t ek MAXASIZE ∧
      ∀ j, upto (rehashCounts t ek).2.2 j = total t ek (bound j) := by
  obtain ⟨hause, harray⟩ := numusearray_spec t
  obtain ⟨htotal, hhause, hhash⟩ := numusehash_spec t (numusearray t fun _ => 0).2
  obtain ⟨hone, hextra⟩ := countint_spec ek (numusehash t (numusearray t fun _ => 0).2).2.2
  refine ⟨?_, ?_, fun j => ?_⟩
  · rw [← hause, ← htotal]
    rfl
  · rw [total, ← hause, ← hhause, ← hone]
    rfl
  · rw [total, ← harray, ← hhash, ← hextra]
    rfl

theorem countintIndices_le (key : TValue N) : ∀ i ∈ countintIndices key, i ≤ MAXBITS := by
  intro i hi
  unfold countintIndices at hi
  dsimp only at hi
  split_ifs at hi with hk
  · rw [List.mem_singleton.mp hi]
    have hmax : MAXASIZE = 2 ^ MAXBITS := rfl
    obtain ⟨k, hk'⟩ : ∃ k, (arrayindex key).toInt.toNat = k + 1 :=
      ⟨(arrayindex key).toInt.toNat - 1, by omega⟩
    rw [hk', ceillog2_le, ← hmax]
    omega
  · exact absurd hi List.not_mem_nil

/-- The elements of the array beyond a size are those of the vanishing slice. -/
theorem beyond_vanishing [LawfulNumber N] (hsize : t.sizearray < 2 ^ 31) (n : Nat) :
    (vanishing t 0).filter (beyond n) = vanishing t n := by
  have hself : ∀ m, n ≤ m → (vanishing t m).filter (beyond n) = vanishing t m := fun m hm =>
    List.filter_eq_self.mpr fun p hp => decide_eq_true (Nat.le_trans hm (mem_vanishing hsize hp).1)
  have hnone : ∀ t : Table N, t.sizearray < 2 ^ 31 → t.sizearray ≤ n →
      (vanishing t 0).filter (beyond n) = [] := by
    intro t ht hle
    refine List.filter_eq_nil_iff.mpr fun p hp hbeyond => ?_
    obtain ⟨-, hlt, -⟩ := mem_vanishing ht hp
    have hfar : n ≤ index p.1 := of_decide_eq_true hbeyond
    omega
  rcases Nat.le_total n t.sizearray with hle | hle
  · have hlt : n < 2 ^ 31 := Nat.lt_of_le_of_lt hle hsize
    rw [vanishing_split (Nat.zero_le n) hle, List.filter_append, hself n (Nat.le_refl n),
      hnone { t with sizearray := n } hlt (Nat.le_refl n), List.nil_append]
  · rw [hnone t hsize hle, vanishing_eq_nil hle]

omit [LuaNumber N] in
theorem filled_eq_iff (array : Nat → TValue N) {m n : Nat} (h : m ≤ n) :
    filled array n ≤ filled array m ↔ ∀ i, m ≤ i → i < n → array i = .nil := by
  have hslice := filled_slice array h
  constructor
  · intro hle i hmi hin
    have hzero : (List.range' m (n - m)).countP (fun i => !(array i).isNil) = 0 := by omega
    have hi := List.countP_eq_zero.mp hzero i (List.mem_range'_1.mpr ⟨hmi, by omega⟩)
    rw [Bool.not_eq_true', Bool.not_eq_false] at hi
    exact (TValue.isNil_iff _).mp hi
  · intro hnil
    have hzero : (List.range' m (n - m)).countP (fun i => !(array i).isNil) = 0 := by
      refine List.countP_eq_zero.mpr fun i hi => ?_
      obtain ⟨hmi, hin⟩ := List.mem_range'_1.mp hi
      rw [hnil i hmi (by omega)]
      exact Bool.false_ne_true
    omega

variable [LawfulNumber N]

theorem Inv.rehash_largest (h : Inv hash t) (hek : ∀ w, ¬ Has t ek w) :
    LargestUsed (intKeys t ek) (rehashSizes t ek).1 ∧
      rehashNa t ek = intKeys t ek (rehashSizes t ek).1 ∧
      ∀ i ∈ numsIndices t ek, i ≤ MAXBITS := by
  obtain ⟨-, hnarray, hslices⟩ := rehashCounts_spec t ek
  generalize hcounts : rehashCounts t ek = counts at hnarray hslices
  obtain ⟨totaluse, narray, nums⟩ := counts
  dsimp only at hnarray hslices
  have hpow : ∀ j ≤ MAXBITS, 2 ^ j ≤ MAXASIZE := fun j hj => Nat.pow_le_pow_right (by decide) hj
  have hused : ∀ j ≤ MAXBITS, upto nums j = intKeys t ek (2 ^ j) := by
    intro j hj
    have hmax : MAXASIZE ≤ 2 ^ 31 := by decide
    rw [hslices, bound, Nat.min_eq_left (hpow j hj), h.total_eq hek (Nat.le_trans (hpow j hj) hmax)]
  have hall : upto nums MAXBITS = narray := by
    rw [hslices, hnarray]
    rfl
  have hsmall : ∀ j ≤ MAXBITS, upto nums j ≤ 2 ^ j := by
    intro j hj
    rw [hused j hj]
    exact intKeys_le t ek _
  have hn : (rehashSizes t ek).1 = (computesizes nums narray).1 := by
    rw [rehashSizes_eq_counts, hcounts]
  have hna : rehashNa t ek = (computesizes nums narray).2 := by
    rw [rehashNa, hcounts]
  obtain ⟨hchosen, hlargest⟩ := computesizes_best hall hsmall
  rw [hn, hna]
  refine ⟨⟨hchosen.imp_right fun hj => ?_, fun j hj hlt => ?_⟩, ?_, fun i hi => ?_⟩
  · obtain ⟨j, hlt, hj, hhalf⟩ := hj
    have hle : j ≤ MAXBITS := Nat.le_of_lt_succ hlt
    refine ⟨j, hle, hj, ?_⟩
    rw [hj, ← hused j hle]
    exact hhalf
  · refine hlargest j (Nat.lt_succ_of_le hj) ?_
    rw [HalfUsed, hused j hj]
    exact hlt
  · rcases computesizes_spec hall with hr | ⟨j, hj, hr⟩
    · rw [hr]
      simp [intKeys]
    · rw [hr, hused j hj]
  · rw [numsIndices, hcounts] at hi
    dsimp only at hi
    rcases List.mem_append.mp hi with hi | hi
    · rcases List.mem_append.mp hi with hi | hi
      · rcases List.mem_append.mp hi with hi | hi
        · exact Nat.le_of_lt_succ (List.mem_range.mp hi)
        · obtain ⟨p, -, hp⟩ := List.mem_flatMap.mp hi
          exact countintIndices_le p.1 i hp
      · exact countintIndices_le ek i hi
    · exact computesizesIndices_le hall narray (Nat.zero_le _) (Nat.zero_add _) i hi

/-- The new node vector has a node for each remaining key where no element of the array is beyond what
is counted. -/
theorem Inv.room_iff (h : Inv hash t) (ek : TValue N) :
    remaining t ek (rehashSizes t ek).1 ≤ (rehashSizes t ek).2 ↔
      ∀ i, MAXASIZE ≤ i → i < t.sizearray → t.array i = .nil := by
  obtain ⟨-, hsizes⟩ := rehashSizes_spec t ek
  have hle : total t ek (rehashSizes t ek).1 ≤
      filled t.array (min MAXASIZE t.sizearray) + t.live.length + 1 := by
    have hmax := (rehashSizes_spec t ek).1
    have hfilled : filled t.array (min (rehashSizes t ek).1 t.sizearray) ≤
        filled t.array (min MAXASIZE t.sizearray) := filled_mono _ (by omega)
    have hlive : nodeCount t (rehashSizes t ek).1 ≤ t.live.length := List.countP_le_length
    rw [total]
    split_ifs <;> omega
  generalize (rehashSizes t ek).1 = n, (rehashSizes t ek).2 = nhsize at hsizes hle
  have hlength := vanishing_length t n
  have hnodes := nodes_beyond t n
  have hiff : remaining t ek n ≤ nhsize ↔
      filled t.array t.sizearray ≤ filled t.array (min MAXASIZE t.sizearray) := by
    rw [remaining, List.filter_append, List.length_append, beyond_vanishing h.sizearray]
    rw [total] at hsizes hle
    split_ifs at hsizes hle ⊢ <;> omega
  rw [hiff, filled_eq_iff _ (Nat.min_le_right _ _)]
  refine forall_congr' fun i => ⟨fun hi hmax hlt => hi (by omega) hlt, fun hi hmin hlt => ?_⟩
  exact hi (by omega) hlt

theorem Inv.not_nested (h : Inv hash t) (hhash : Consistent hash) (ek : TValue N)
    (hroom : remaining t ek (rehashSizes t ek).1 ≤ (rehashSizes t ek).2) :
    ¬ NestedRehash hash t (rehashSizes t ek).1 (rehashSizes t ek).2 := by
  have hlt : (rehashSizes t ek).1 < 2 ^ 31 :=
    Nat.lt_of_le_of_lt (rehashSizes_spec t ek).1 (by decide)
  have hself : (vanishing t (rehashSizes t ek).1).filter (beyond (rehashSizes t ek).1) =
      vanishing t (rehashSizes t ek).1 :=
    List.filter_eq_self.mpr fun p hp => decide_eq_true (mem_vanishing h.sizearray hp).1
  have hfit : ((vanishing t (rehashSizes t ek).1 ++ nodes t).filter
      (beyond (rehashSizes t ek).1)).length ≤ (rehashSizes t ek).2 := by
    rw [remaining, List.filter_append, beyond_vanishing h.sizearray] at hroom
    rw [List.filter_append, hself]
    omega
  have hyields := h.resize_room_full hhash (fun _ _ => .error .tooDeep) hlt hfit
  intro hnested
  rw [hnested] at hyields
  cases hyields

/-- Nothing of the map is lost in counting, as long as no element of the array is beyond `MAXASIZE`. -/
theorem Stores.rehash_exact_iff (hhash : Consistent hash) {depth : Nat} (hdepth : 3 ≤ depth)
    {m : TValue N → TValue N} (h : Stores hash depth t m) (hkey : Proper ek)
    (hnone : lookup hash t ek = .ok .nil) :
    RehashExact hash t ek ↔ ∀ i, MAXASIZE ≤ i → i < t.sizearray → t.array i = .nil := by
  have hinv := (h.holds hhash hdepth).1
  have hek : ∀ w, ¬ Has t ek w := by
    obtain ⟨v, hv, hhas⟩ := hinv.lookup_spec hhash hkey.1
    rw [hnone] at hv
    cases hv
    exact fun w hw => ((hhas w).mp hw).2 ((hhas w).mp hw).1
  obtain ⟨hlargest, hna, hindices⟩ := hinv.rehash_largest hek
  constructor
  · intro hexact
    exact (hinv.room_iff ek).mp hexact.room
  · intro hnil
    have hroom := (hinv.room_iff ek).mpr hnil
    exact ⟨hlargest, hna, hindices, hroom, hinv.not_nested hhash ek hroom⟩

end Exact

theorem Stores.rehash_exact_oneElement :
    RehashExact (fun _ => 0) oneElement (.string [120]) ↔
      ∀ i, MAXASIZE ≤ i → i < oneElement.sizearray → oneElement.array i = .nil :=
  oneElement_stores.rehash_exact_iff (fun _ _ _ => rfl) (by decide)
    ⟨by simp, by decide⟩ rfl

/-- A table of two elements in its array, past the last that is counted. -/
def farPair : Table Int where
  array i := if i = 67108865 then .boolean true else if i = 67108864 then .boolean true
    else if 0 ≤ i ∧ i < 67108866 then .nil else .nil
  allocated := 67108866
  sizearray := 67108866
  node _ := emptyNode
  isDummy := true
  lsizenode := 0
  lastfree := 0

theorem farPair_stores : Stores (fun _ => 0) 3 farPair
    (store (store (fun _ => .nil) (.number (castNum 67108865)) (.boolean true))
      (.number (castNum 67108866)) (.boolean true)) := by
  obtain ⟨t, t', hnew, hset, hwrite, hset', hwrite'⟩ : ∃ t t' : Table Int,
      luaHNew 67108866 0 = .ok t ∧ luaHSetnum (fun _ => 0) 3 t 67108865 = .ok (.array 67108864, t) ∧
      t.write (.boolean true) (.array 67108864) = .ok t' ∧
      luaHSetnum (fun _ => 0) 3 t' 67108866 = .ok (.array 67108865, t') ∧
      t'.write (.boolean true) (.array 67108865) = .ok farPair :=
    ⟨_, _, rfl, rfl, rfl, rfl, rfl⟩
  exact .setnum _ (.setnum _ (.new (by decide) hnew) hset hwrite) hset' hwrite'

theorem farPair_nil {i : Nat} (hi : i < 67108864) : farPair.array i = .nil := by
  have hlast : i ≠ 67108865 := by omega
  have hfirst : i ≠ 67108864 := by omega
  simp only [farPair, if_neg hlast, if_neg hfirst, ite_self]

theorem farPair_sizes : rehashSizes farPair (.string [120]) = (0, 1) := by
  have hlive : farPair.live = [] := rfl
  have hfilled : ∀ n ≤ 67108864, filled farPair.array n = 0 := by
    intro n hn
    refine List.countP_eq_zero.mpr fun i hi => ?_
    rw [farPair_nil (Nat.lt_of_lt_of_le (List.mem_range.mp hi) hn)]
    exact Bool.false_ne_true
  have hmax : MAXASIZE = 67108864 := by decide
  have hout : ∀ n ≤ MAXASIZE, ¬ index (.string [120] : TValue Int) < n := by
    intro n hn
    have hidx : index (.string [120] : TValue Int) = 4294967294 := by decide
    omega
  have htotal : ∀ n ≤ MAXASIZE, total farPair (.string [120]) n = 0 := by
    intro n hn
    have hmin : min n farPair.sizearray = n := Nat.min_eq_left (by
      have hsize : farPair.sizearray = 67108866 := rfl
      omega)
    rw [total, hmin, hfilled n (by omega), nodeCount, hlive, if_neg (hout n hn)]
    rfl
  have hfirst : (rehashSizes farPair (.string [120])).1 = 0 := by
    obtain ⟨t, ht, hzero⟩ : ∃ t : Table Int, luaHNew 0 0 = .ok t ∧
        (rehashSizes t (.string [120])).1 = 0 := ⟨_, rfl, rfl⟩
    rw [← hzero]
    refine rehashSizes_congr fun n hn => ?_
    cases ht
    rw [htotal n hn, total, if_neg (hout n hn)]
    simp [filled, nodeCount, setarrayvector, live, contents, pairAt, sizenode, emptyNode, TValue.isNil]
  obtain ⟨-, hsecond⟩ := rehashSizes_spec farPair (.string [120])
  rw [hfirst, htotal 0 (Nat.zero_le _), hlive] at hsecond
  have hmin : min MAXASIZE farPair.sizearray = 67108864 := by decide
  rw [hmin, hfilled _ (Nat.le_refl _)] at hsecond
  exact Prod.ext hfirst hsecond

theorem reinsertArray_skip {hash : TValue N → Nat} (newkey : Newkey N) {t : Table N} {is : List Nat}
    (hnil : ∀ i ∈ is, t.read (.array i) = .ok .nil) (js : List Nat) :
    reinsertArray hash newkey (is ++ js) t = reinsertArray hash newkey js t := by
  induction is with
  | nil => rfl
  | cons i is ih =>
    rw [List.cons_append, reinsertArray, hnil i List.mem_cons_self, Loop.ok_bind,
      ih fun j hj => hnil j (List.mem_cons_of_mem _ hj)]
    rfl

/-- Elements of the array past the last that is counted do not fit into the new node vector: putting
them back starts another rehash. -/
theorem rehash_nests : Stores (fun _ => 0) 3 farPair
      (store (store (fun _ => .nil) (.number (castNum 67108865)) (.boolean true))
        (.number (castNum 67108866)) (.boolean true)) ∧
    lookup (fun _ => 0) farPair (.string [120]) = .ok .nil ∧
    rehashSizes farPair (.string [120]) = (0, 1) ∧ NestedRehash (fun _ => 0) farPair 0 1 ∧
    ¬ RehashExact (fun _ => 0) farPair (.string [120]) := by
  have hnested : NestedRehash (fun _ => 0) farPair 0 1 := by
    have hsplit : List.range' 0 67108866 = List.range' 0 67108864 ++ [67108864, 67108865] :=
      (List.range'_append_1 (s := 0) (m := 67108864) (n := 2)).symm
    unfold NestedRehash resize
    have hnode : setnodevector 1 farPair = .ok { farPair with
        node := fun _ => emptyNode, isDummy := false, lsizenode := 0, lastfree := 1 } := rfl
    have hgrow : ¬ 0 > farPair.sizearray := Nat.not_lt_zero _
    have hsize : farPair.sizearray - 0 = 67108866 := rfl
    dsimp only
    rw [if_neg hgrow, hnode, Loop.ok_bind, shrinkArray, if_pos (by decide), hsize, hsplit,
      reinsertArray_skip _ fun i hi => ?_]
    · rfl
    · have hi := (List.mem_range'_1.mp hi).2
      have hroom : i < 67108866 := by omega
      rw [← farPair_nil (by omega : i < 67108864)]
      exact if_pos hroom
  refine ⟨farPair_stores, rfl, farPair_sizes, hnested, fun hexact => ?_⟩
  have hnot := hexact.notNested
  rw [farPair_sizes] at hnot
  exact hnot hnested

end UgmeeLua.Ltable

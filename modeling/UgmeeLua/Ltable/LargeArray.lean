import UgmeeLua.Ltable.Rehash

namespace UgmeeLua.Ltable

open Scatter Ltable.Table

variable {N : Type} [LuaNumber N]

/-- The key is counted where an array is to have as many elements as there may be. -/
def low (p : TValue N × TValue N) : Bool := index p.1 < MAXASIZE

/-- The invariant of the loops of a rehash that has found an array larger than what is counted. There is
room for the elements that are counted; where the others need a rehash of their own, it finds the same
counts, and leaves the array alone. -/
structure Large (hash : TValue N → Nat) (count : Nat → Nat) (n : Nat) (t : Table N)
    (ps : List (TValue N × TValue N)) : Prop where
  inv : Inv hash t
  packed : Packed t
  pending : Pending t ps
  sizearray : t.sizearray = n
  far : ∀ p ∈ ps, n ≤ index p.1
  sorted : ps.Pairwise fun p q => low q = true → low p = true
  room : ps.filter low ≠ [] → t.live.length + (ps.filter low).length ≤ capacity t
  counts : ∀ x ≤ MAXASIZE, filled t.array (min x n) + nodeCount t x +
    ps.countP (fun p => index p.1 < x) = count x

section Steps

variable {hash : TValue N → Nat} {count : Nat → Nat} {n : Nat} {t t' : Table N}
  {p : TValue N × TValue N} {ps : List (TValue N × TValue N)}

omit [LuaNumber N] in
theorem filled_congr {array array' : Nat → TValue N} (m : Nat) (h : ∀ i < m, array' i = array i) :
    filled array' m = filled array m := by
  refine List.countP_congr fun i hi => ?_
  rw [h i (List.mem_range.mp hi)]

theorem Large.counts_added (h : Large hash count n t (p :: ps)) (hadd : Added hash t t' p.1 p.2) :
    ∀ x ≤ MAXASIZE, filled t'.array (min x n) + nodeCount t' x +
      ps.countP (fun p => index p.1 < x) = count x := by
  intro x hx
  have hfar := h.far p List.mem_cons_self
  have hcount := h.counts x hx
  have harray : filled t'.array (min x n) = filled t.array (min x n) := by
    refine filled_congr _ fun i hi => hadd.array i (.inl ?_)
    omega
  have hnot : ¬ index p.1 < t.sizearray := by
    rw [h.sizearray]
    omega
  have hlive := hadd.live
  rw [if_neg hnot] at hlive
  have hnodes : nodeCount t' x = nodeCount t x + if index p.1 < x then 1 else 0 := by
    rw [nodeCount, hlive.countP_eq, List.countP_cons]
    simp only [decide_eq_true_eq, nodeCount]
  rw [List.countP_cons] at hcount
  simp only [decide_eq_true_eq] at hcount
  omega

theorem Large.step (h : Large hash count n t (p :: ps)) (hadd : Added hash t t' p.1 p.2)
    (hroom : ps.filter low ≠ [] → t'.live.length + (ps.filter low).length ≤ capacity t') :
    Large hash count n t' ps := by
  obtain ⟨-, hsorted⟩ := List.pairwise_cons.mp h.sorted
  exact ⟨hadd.inv, hadd.packed, h.pending.step hadd, hadd.sizearray.trans h.sizearray,
    fun q hq => h.far q (List.mem_cons_of_mem _ hq), hsorted, hroom, h.counts_added hadd⟩

theorem Large.filter_eq_nil (h : Large hash count n t (p :: ps)) (hp : low p = false) :
    ps.filter low = [] := by
  obtain ⟨hfirst, -⟩ := List.pairwise_cons.mp h.sorted
  refine List.filter_eq_nil_iff.mpr fun q hq hlow => ?_
  rw [hfirst q hq hlow] at hp
  cases hp

/-- A rehash that leaves the array alone, and the store after it. -/
theorem Resized.added {t1 : Table N} {i : Nat} (h : Resized hash t t' t.sizearray) (hinv : Inv hash t)
    (hout : t.sizearray ≤ index p.1)
    (hadd : Added hash t' (t1.setNode i { t1.node i with val := p.2 }) p.1 p.2) :
    Added hash t (t1.setNode i { t1.node i with val := p.2 }) p.1 p.2 := by
  obtain ⟨harray, hallocated⟩ := h.same rfl
  have hfilter : (nodes t).filter (beyond t.sizearray) = nodes t :=
    List.filter_eq_self.mpr fun q hq => decide_eq_true (mem_nodes hinv.elements hq).2.2
  have hlive : t'.live.Perm t.live := by
    have hall := h.live
    rw [vanishing_eq_nil (Nat.le_refl _), List.nil_append, hfilter] at hall
    exact hall.trans (nodes_perm t)
  have hlive' := hadd.live
  rw [h.sizearray, if_neg (Nat.not_lt.mpr hout)] at hlive'
  refine ⟨hadd.inv, hadd.packed, hadd.sizearray.trans h.sizearray, hadd.allocated.trans hallocated,
    fun j hj => ?_, ?_, fun k w => ?_⟩
  · rw [← harray]
    refine hadd.array j ?_
    rw [h.sizearray]
    exact hj
  · rw [if_neg (Nat.not_lt.mpr hout)]
    exact hlive'.trans (hlive.cons _)
  · rw [hadd.has, h.has]

variable [LawfulNumber N]

/-- Where there is a place for the next key it is taken. -/
theorem Large.accepts_place (h : Large hash count n t (p :: ps)) (hhash : Consistent hash)
    (hfresh : Fresh t p.1) (hplace : HasPlace hash t p.1) (newkey : Newkey N) :
    Yields (Accepted hash (Large hash count n) t p ps)
      (setWith hash (newkeyStep hash newkey) t p.1) := by
  obtain ⟨-, hv⟩ := h.pending.proper p List.mem_cons_self
  obtain ⟨i, t1, hset, hparts, hadd⟩ := h.inv.set_node hhash h.packed hfresh hplace hv newkey
  have hnot : ¬ index p.1 < t.sizearray := Nat.not_lt.mpr hfresh.out
  have hlive := hadd.live
  rw [if_neg hnot] at hlive
  have hcap : capacity (t1.setNode i { t1.node i with val := p.2 }) = capacity t := hparts.capacity
  rw [hset]
  refine .ok ⟨hparts.allocated, fun j _ => congrFun hparts.array j, _, rfl, hadd,
    h.step hadd fun hne => ?_⟩
  have hlow : low p = true := by
    by_contra hnlow
    exact hne (h.filter_eq_nil (Bool.not_eq_true _ ▸ hnlow))
  have hroom := h.room (by rw [List.filter_cons_of_pos hlow]; exact List.cons_ne_nil _ _)
  rw [List.filter_cons_of_pos hlow, List.length_cons] at hroom
  rw [hcap, hlive.length_eq, List.length_cons]
  omega

/-- Without a place for it the next key makes a rehash, which leaves the array alone. -/
theorem Large.accepts_rehash (h : Large hash count n t (p :: ps)) (hhash : Consistent hash)
    (hn : n ≤ MAXASIZE)
    (hfix : ∀ (t : Table N) ek, (∀ x ≤ MAXASIZE, total t ek x = count x) → (rehashSizes t ek).1 = n)
    (hfresh : Fresh t p.1) (hplace : ¬ HasPlace hash t p.1) (newkey : Newkey N) :
    Yields (Accepted hash (Large hash count n) t p ps)
      (setWith hash (newkeyStep hash (newkeyStep hash newkey)) t p.1) := by
  obtain ⟨hkey, hv⟩ := h.pending.proper p List.mem_cons_self
  have hlow : low p = false := by
    by_contra hlow
    rw [Bool.not_eq_false] at hlow
    have hroom := h.room (by rw [List.filter_cons_of_pos hlow]; exact List.cons_ne_nil _ _)
    rw [List.filter_cons_of_pos hlow, List.length_cons] at hroom
    exact hplace (h.inv.hasPlace h.packed (by omega))
  have hrest := h.filter_eq_nil hlow
  have hhigh : MAXASIZE ≤ index p.1 := Nat.le_of_not_lt (of_decide_eq_false hlow)
  obtain ⟨hinv0, heq⟩ := h.inv.newkey_rehash hplace (newkeyStep hash newkey)
  -- nothing that is still to come is counted
  have hcounts : ∀ x ≤ MAXASIZE, total { t with lastfree := 0 } p.1 x = count x := by
    intro x hx
    have hcount := h.counts x hx
    have hnone : (p :: ps).countP (fun p => index p.1 < x) = 0 := by
      refine List.countP_eq_zero.mpr fun q hq hlt => ?_
      have hqx : index q.1 < x := of_decide_eq_true hlt
      have hqlow : low q = true := decide_eq_true (Nat.lt_of_lt_of_le hqx hx)
      have hmem : q ∈ (p :: ps).filter low := List.mem_filter.mpr ⟨hq, hqlow⟩
      rw [List.filter_cons_of_neg (by rw [hlow]; exact Bool.false_ne_true), hrest] at hmem
      cases hmem
    have hnot : ¬ index p.1 < x := by omega
    rw [hnone] at hcount
    rw [total, if_neg hnot]
    have hsize : ({ t with lastfree := 0 } : Table N).sizearray = n := h.sizearray
    rw [hsize]
    exact hcount
  have hsizes := hfix _ p.1 hcounts
  have hsize : t.sizearray ≤ MAXASIZE := h.sizearray ▸ hn
  have hsmall := hinv0.elements.rehash_small hhash newkey hsize p.1
  rw [hsizes, ← h.sizearray] at hsmall
  rw [setWith_none _ hkey (get_of_fresh hfresh hhash), heq]
  refine hsmall.bind fun t' h' => ?_
  obtain ⟨hres, hroom⟩ := h'
  have hout' : t'.sizearray ≤ index p.1 := by
    rw [hres.sizearray]
    exact hfresh.out
  have hnone' : ∀ w, ¬ Has t' p.1 w := fun w hw => hfresh.not_has h.inv w ((hres.has p.1 w).mp hw)
  have hfresh' := fresh_of_none hres.packed hres.inv hkey hout' hnone'
  obtain ⟨i, t1, hset, hparts, hadd⟩ := hres.inv.set_node hhash hres.packed hfresh'
    (hres.inv.hasPlace hres.packed (hroom hout')) hv newkey
  obtain ⟨harray, hallocated⟩ := hres.same rfl
  have hadd0 := hres.added hinv0 hfresh.out hadd
  have hadd' : Added hash t (t1.setNode i { t1.node i with val := p.2 }) p.1 p.2 :=
    ⟨hadd0.inv, hadd0.packed, hadd0.sizearray, hadd0.allocated, hadd0.array, hadd0.live, hadd0.has⟩
  rw [hset]
  refine .ok ⟨hparts.allocated.trans hallocated, fun j _ => ?_, _, rfl, hadd',
    h.step hadd' fun hne => absurd hrest hne⟩
  exact (congrFun hparts.array j).trans (congrFun harray j)

theorem accepts_large (hhash : Consistent hash) (hn : n ≤ MAXASIZE)
    (hfix : ∀ (t : Table N) ek, (∀ x ≤ MAXASIZE, total t ek x = count x) → (rehashSizes t ek).1 = n)
    (newkey : Newkey N) :
    Accepts hash (newkeyStep hash (newkeyStep hash newkey)) (Large hash count n) := by
  intro t p ps h
  obtain ⟨hkey, -⟩ := h.pending.proper p List.mem_cons_self
  have hout : t.sizearray ≤ index p.1 := by
    rw [h.sizearray]
    exact h.far p List.mem_cons_self
  have hfresh := fresh_of_none h.packed h.inv hkey hout (h.pending.absent p List.mem_cons_self)
  by_cases hplace : HasPlace hash t p.1
  · exact h.accepts_place hhash hfresh hplace _
  · exact h.accepts_rehash hhash hn hfix hfresh hplace newkey

end Steps

section Rehash

variable [LawfulNumber N] {hash : TValue N → Nat} {t : Table N} {key ek : TValue N} {n : Nat}

omit [LawfulNumber N] in
theorem vanishing_split {x : Nat} (hn : n ≤ x) (hx : x ≤ t.sizearray) :
    vanishing t n = vanishing { t with sizearray := x } n ++ vanishing t x := by
  have happ := List.range'_append_1 (s := n) (m := x - n) (n := t.sizearray - x)
  have hstart : n + (x - n) = x := by omega
  have hlength : x - n + (t.sizearray - x) = t.sizearray - n := by omega
  rw [hstart, hlength] at happ
  rw [vanishing, vanishing, vanishing, ← happ, List.filterMap_append]

/-- The elements of the vanishing slice up to a place in the array. -/
theorem vanishing_count (hsize : t.sizearray < 2 ^ 31) (n : Nat) {x : Nat} (hx : x ≤ t.sizearray) :
    filled t.array (min x n) + (vanishing t n).countP (fun p => index p.1 < x) =
      filled t.array x := by
  have hfar : ∀ m, x ≤ m → (vanishing t m).countP (fun p => index p.1 < x) = 0 := by
    intro m hm
    refine List.countP_eq_zero.mpr fun p hp hlt => ?_
    obtain ⟨hle, -⟩ := mem_vanishing hsize hp
    have hpx : index p.1 < x := of_decide_eq_true hlt
    omega
  rcases Nat.le_total x n with hxn | hnx
  · rw [Nat.min_eq_left hxn, hfar n hxn]
    rfl
  · have hnear : (vanishing { t with sizearray := x } n).countP (fun p => index p.1 < x) =
        (vanishing { t with sizearray := x } n).length := by
      refine List.countP_eq_length.mpr fun p hp => decide_eq_true ?_
      have hlt : ({ t with sizearray := x } : Table N).sizearray < 2 ^ 31 :=
        Nat.lt_of_le_of_lt hx hsize
      exact (mem_vanishing hlt hp).2.1
    have hlength := vanishing_length { t with sizearray := x } n
    rw [vanishing_split hnx hx, List.countP_append, hnear, hfar x (Nat.le_refl _),
      Nat.min_comm x n]
    exact hlength

theorem vanishing_sorted (hsize : t.sizearray < 2 ^ 31) (n : Nat) :
    (vanishing t n).Pairwise fun p q => index p.1 < index q.1 := by
  refine List.Pairwise.filterMap _ (R := fun i j => i < j ∧ j < t.sizearray) ?_ ?_
  · intro i j hij p hp q hq
    obtain ⟨hk, -, -⟩ := arrayPair_eq_some.mp hp
    obtain ⟨hk', -, -⟩ := arrayPair_eq_some.mp hq
    rw [hk, hk', index_castNum (by omega), index_castNum (by omega)]
    exact hij.1
  · refine List.Pairwise.imp_of_mem ?_ List.pairwise_lt_range'
    intro i j _ hj hij
    obtain ⟨hle, hlt⟩ := List.mem_range'_1.mp hj
    exact ⟨hij, by omega⟩

omit [LawfulNumber N] in
/-- In a table with a large array only the array has keys that are counted. -/
theorem Elements.total_large (h : Elements t) (hlarge : MAXASIZE < t.sizearray)
    (hout : t.sizearray ≤ index ek) {x : Nat} (hx : x ≤ MAXASIZE) :
    total t ek x = filled t.array x := by
  have hnodes : nodeCount t x = 0 := by
    refine List.countP_eq_zero.mpr fun p hp hlt => ?_
    obtain ⟨-, -, hfar⟩ := mem_nodes h ((nodes_perm t).mem_iff.mpr hp)
    have hpx : index p.1 < x := of_decide_eq_true hlt
    omega
  have hmin : min x t.sizearray = x := by omega
  have hnot : ¬ index ek < x := by omega
  rw [total, hnodes, hmin, if_neg hnot, Nat.add_zero]

theorem Elements.rehash_large (h : Elements t) (hhash : Consistent hash) (newkey : Newkey N)
    (hlarge : MAXASIZE < t.sizearray) (hout : t.sizearray ≤ index ek) :
    Yields (fun t' => Resized hash t t' (rehashSizes t ek).1)
      (rehash hash (newkeyStep hash (newkeyStep hash newkey)) t ek) := by
  obtain ⟨hmax, hsizes⟩ := rehashSizes_spec t ek
  have htotal : ∀ x ≤ MAXASIZE, total t ek x = filled t.array x := fun x hx =>
    h.total_large hlarge hout hx
  have hfix : ∀ (t' : Table N) ek', (∀ x ≤ MAXASIZE, total t' ek' x = filled t.array x) →
      (rehashSizes t' ek').1 = (rehashSizes t ek).1 := fun t' ek' hsame =>
    rehashSizes_congr fun x hx => (hsame x hx).trans (htotal x hx).symm
  rw [htotal _ hmax] at hsizes
  have hlt : (rehashSizes t ek).1 < 2 ^ 31 := Nat.lt_of_le_of_lt hmax (by decide)
  change Yields _ (resize hash _ t (rehashSizes t ek).1 (rehashSizes t ek).2)
  generalize (rehashSizes t ek).1 = n, (rehashSizes t ek).2 = nhsize at hmax hsizes hfix hlt ⊢
  have hnodes : ∀ q ∈ nodes t, t.sizearray ≤ index q.1 := fun q hq => (mem_nodes h hq).2.2
  have hnodesLow : ∀ x ≤ MAXASIZE, (nodes t).countP (fun p => index p.1 < x) = 0 := by
    intro x hx
    refine List.countP_eq_zero.mpr fun q hq hqx => ?_
    have hqx : index q.1 < x := of_decide_eq_true hqx
    have hfar := hnodes q hq
    omega
  have hcount : ∀ x ≤ MAXASIZE, filled t.array (min x n) +
      (vanishing t n ++ nodes t).countP (fun p => index p.1 < x) = filled t.array x := by
    intro x hx
    rw [List.countP_append, hnodesLow x hx]
    exact vanishing_count h.sizearray n (by omega)
  refine (h.resize_yields (accepts_large hhash hmax hfix newkey) (fun t1 ps hq => ?_) hlt
    fun t1 hs hcap => ?_).mono fun t' h' => h'.1
  · exact ⟨hq.inv.allocated_sizearray, hq.packed,
      ⟨hq.pending.proper, hq.pending.apart, hq.pending.absent⟩, hq.sizearray, hq.far, hq.sorted,
      hq.room, hq.counts⟩
  · refine ⟨hs.inv, hs.packed, hs.pending h, hs.sizearray, fun p hp => ?_, ?_, fun _ => ?_,
      fun x hx => ?_⟩
    · rcases List.mem_append.mp hp with hp | hp
      · exact (mem_vanishing h.sizearray hp).1
      · have hfar := hnodes p hp
        omega
    · refine List.pairwise_append.mpr ⟨?_, ?_, fun p _ q hq hlow => ?_⟩
      · refine (vanishing_sorted h.sizearray n).imp fun {p q} hpq hlow => ?_
        have hq : index q.1 < MAXASIZE := of_decide_eq_true hlow
        exact decide_eq_true (Nat.lt_trans hpq hq)
      · refine List.pairwise_of_forall_mem_list fun p _ q hq hlow => ?_
        have hlt : index q.1 < MAXASIZE := of_decide_eq_true hlow
        have hfar := hnodes q hq
        omega
      · have hlt : index q.1 < MAXASIZE := of_decide_eq_true hlow
        have hfar := hnodes q hq
        omega
    · have hall := hcount MAXASIZE (Nat.le_refl _)
      have hmin : min MAXASIZE t.sizearray = MAXASIZE := by omega
      have hminn : min MAXASIZE n = n := by omega
      have hlength : ((vanishing t n ++ nodes t).filter low).length =
          (vanishing t n ++ nodes t).countP (fun p => index p.1 < MAXASIZE) :=
        List.countP_eq_length_filter.symm
      rw [hmin] at hsizes
      rw [hminn] at hall
      rw [hs.live, List.length_nil, hlength]
      omega
    · have hzero : nodeCount t1 x = 0 := by
        rw [nodeCount, hs.live]
        rfl
      have harray : filled t1.array (min x n) = filled t.array (min x n) := by
        refine filled_congr _ fun i hi => ?_
        have hin : i < t.sizearray := by omega
        rw [hs.array i (by omega), if_pos hin]
      rw [harray, hzero, Nat.add_zero]
      exact hcount x hx

/-- A rehash of a table, whatever the size of its array, and `luaH_set` after it. -/
theorem Elements.rehash_placed (h : Elements t) (hhash : Consistent hash) (hkey : Proper key)
    (hout : t.sizearray ≤ index key) (hnone : ∀ w, ¬ Has t key w) (newkey : Newkey N) :
    Yields (Placed hash t key) (rehash hash (newkeyStep hash (newkeyStep hash newkey)) t key >>=
      fun t => setWith hash (newkeyStep hash (newkeyStep hash newkey)) t key) := by
  by_cases hsize : t.sizearray ≤ MAXASIZE
  · exact h.small_placed hhash hkey hnone hsize _
  · have hlarge : MAXASIZE < t.sizearray := Nat.lt_of_not_le hsize
    obtain ⟨hmax, -⟩ := rehashSizes_spec t key
    refine (h.rehash_large hhash newkey hlarge hout).bind fun t1 hres => ?_
    have hsize1 : t1.sizearray ≤ MAXASIZE := hres.sizearray ▸ hmax
    have hout1 : t1.sizearray ≤ index key := by omega
    have hnone1 : ∀ w, ¬ Has t1 key w := fun w hw => hnone w ((hres.has key w).mp hw)
    have hfresh1 := fresh_of_none hres.packed hres.inv hkey hout1 hnone1
    rw [setWith_none _ hkey (get_of_fresh hfresh1 hhash)]
    exact (hres.inv.newkey_small hhash hfresh1 hsize1 newkey).mono fun r hr => hr.trans hres.has

/-- `newkey`, whatever the size of the array. -/
theorem Inv.newkey_placed (h : Inv hash t) (hhash : Consistent hash) (hfresh : Fresh t key)
    (newkey : Newkey N) :
    Yields (Placed hash t key)
      (newkeyStep hash (newkeyStep hash (newkeyStep hash newkey)) t key) := by
  by_cases hplace : HasPlace hash t key
  · obtain ⟨i, t', hnew, hins⟩ := h.newkey_inserted hfresh hplace _
    rw [hnew]
    exact .ok (hins.placed hfresh)
  · obtain ⟨hinv, heq⟩ := h.newkey_rehash hplace (newkeyStep hash (newkeyStep hash newkey))
    have hnone : ∀ w, ¬ Has t key w := hfresh.not_has h
    have hplaced := hinv.elements.rehash_placed hhash hfresh.proper hfresh.out hnone newkey
    rw [heq]
    exact hplaced.mono fun r hr => hr.trans fun _ _ => Iff.rfl

/-- `luaH_set` leads to the place of its key. -/
theorem Inv.luaHSet_placed (h : Inv hash t) (hhash : Consistent hash) (hkey : Proper key) {depth : Nat}
    (hdepth : 3 ≤ depth) : Yields (Placed hash t key) (luaHSet hash depth t key) := by
  obtain ⟨d, rfl⟩ : ∃ d, depth = d + 3 := ⟨depth - 3, by omega⟩
  have hkept := h.get_kept hhash hkey.1
  cases hget : luaHGet hash t key with
  | some s =>
    rw [hget] at hkept
    simp only [luaHSet, setWith, hget]
    exact .ok ⟨h, hkept, fun _ _ => Iff.rfl⟩
  | none =>
    rw [hget] at hkept
    cases hkept with
    | none hout hnone =>
      rw [luaHSet, setWith_none _ hkey hget]
      exact h.newkey_placed hhash ⟨hkey, hout, hnone⟩ (newkey hash d)

end Rehash

end UgmeeLua.Ltable

import UgmeeLua.Ltable.Invariant

namespace UgmeeLua.Ltable

open Scatter Ltable.Table

variable {N : Type}

section Positions

variable {t : Table N}

theorem getfreepos_spec (t : Table N) (n : Nat) :
    (∃ i < n, getfreepos t n = (some i, i) ∧ t.keyAt i = none ∧
      ∀ j, i < j → j < n → (t.keyAt j).isSome) ∨
    (getfreepos t n = (none, 0) ∧ ∀ j < n, (t.keyAt j).isSome) := by
  induction n with
  | zero => exact .inr ⟨rfl, fun j hj => absurd hj (Nat.not_lt_zero j)⟩
  | succ n ih =>
    cases hk : t.keyAt n with
    | none =>
      have hnil : (t.node n).key.isNil = true := by
        rw [keyAt_eq_none.mp hk]
        rfl
      refine .inl ⟨n, Nat.lt_succ_self n, by rw [getfreepos, if_pos hnil], hk, fun j hj hj' => ?_⟩
      omega
    | some k =>
      have hnot : (t.node n).key.isNil = false := by
        obtain ⟨hkey, hne⟩ := keyAt_eq_some.mp hk
        rw [hkey]
        cases k with
        | nil => exact absurd rfl hne
        | _ => rfl
      have hstep : getfreepos t (n + 1) = getfreepos t n := by
        simp only [getfreepos, hnot, Bool.false_eq_true, if_false]
      have hlast : ∀ j, j < n + 1 → j ≠ n → j < n := by omega
      rw [hstep]
      rcases ih with ⟨i, hi, heq, hfree, hused⟩ | ⟨heq, hused⟩
      · refine .inl ⟨i, by omega, heq, hfree, fun j hj hj' => ?_⟩
        by_cases hjn : j = n
        · rw [hjn, hk]
          rfl
        · exact hused j hj (hlast j hj' hjn)
      · refine .inr ⟨heq, fun j hj => ?_⟩
        by_cases hjn : j = n
        · rw [hjn, hk]
          rfl
        · exact hused j (hlast j hj hjn)

theorem or_one (x : Nat) : x ||| 1 = 2 * (x / 2) + 1 := by
  have hhalf : (x ||| 1) / 2 = x / 2 := by
    have hshift := Nat.shiftRight_or_distrib (i := 1) (a := x) (b := 1)
    simpa [Nat.shiftRight_eq_div_pow] using hshift
  have hodd : (x ||| 1) % 2 = 1 := by simp
  omega

theorem hashmod_lt {n size : Nat} (h : 0 < size) : hashmod n size < size := by
  have hor := or_one (size - 1)
  have hpos : 0 < (size - 1) ||| 1 := by omega
  have hlt := Nat.mod_lt n hpos
  unfold hashmod
  omega

theorem sizenode_pos (t : Table N) : 0 < t.sizenode := Nat.two_pow_pos _

theorem mainposition_lt (hash : TValue N → Nat) (t : Table N) (key : TValue N) :
    mainposition hash t key < t.sizenode := by
  unfold mainposition
  split
  · exact lmod_lt (sizenode_pos t)
  · exact lmod_lt (sizenode_pos t)
  · exact hashmod_lt (sizenode_pos t)

end Positions

variable [LuaNumber N]

/-- A table with a new key in one of its nodes, without a value. The other nodes may have moved: `from`
says where from. -/
structure Refilled (t t' : Table N) (key : TValue N) (i : Nat) (origin : Nat → Nat) : Prop where
  key : (t'.node i).key = key
  val : (t'.node i).val = .nil
  cells : ∀ j, j ≠ i → (t'.node j).key = (t.node (origin j)).key ∧
    (t'.node j).val = (t.node (origin j)).val
  inj : ∀ j j', j ≠ i → j' ≠ i → origin j = origin j' → j = j'

/-- The rest of a table is as it was. -/
structure SameParts (t t' : Table N) : Prop where
  array : t'.array = t.array
  allocated : t'.allocated = t.allocated
  sizearray : t'.sizearray = t.sizearray
  lsizenode : t'.lsizenode = t.lsizenode
  isDummy : t'.isDummy = t.isDummy

/-- Every key in the hash part has a value. -/
def Packed (t : Table N) : Prop := ∀ i, (t.keyAt i).isSome → (t.pairAt i).isSome

/-- What `newkey` makes of a table that has room for the key. -/
structure Inserted (hash : TValue N → Nat) (t t' : Table N) (key : TValue N) (i : Nat) : Prop where
  inv : Inv hash t'
  same : SameParts t t'
  key : t'.keyAt i = some key
  val : (t'.node i).val = .nil
  live : t'.live.Perm t.live
  packed : Packed t → ∀ j, j ≠ i → (t'.keyAt j).isSome → (t'.pairAt j).isSome

section Refill

variable {hash : TValue N → Nat} {t t' : Table N} {key : TValue N} {i : Nat} {origin : Nat → Nat}

omit [LuaNumber N] in
theorem Refilled.keyAt (h : Refilled t t' key i origin) {j : Nat} (hj : j ≠ i) :
    t'.keyAt j = t.keyAt (origin j) := by
  simp only [Table.keyAt, (h.cells j hj).1]

omit [LuaNumber N] in
theorem Refilled.pairAt (h : Refilled t t' key i origin) {j : Nat} (hj : j ≠ i) :
    t'.pairAt j = t.pairAt (origin j) := by
  simp only [Table.pairAt, (h.cells j hj).1, (h.cells j hj).2]

/-- What `newkey` makes of a table that has room for the key. A search from the home of a key that was there
finds what it found, where the cells have moved. -/
structure Fitted (hash : TValue N → Nat) (t t' : Table N) (key : TValue N) (i : Nat)
    (origin : Nat → Nat) : Prop where
  sound : Sound hash t'
  refilled : Refilled t t' key i origin
  same : SameParts t t'
  live : t'.live.Perm t.live
  moved : ∀ j, j ≠ i → origin j = j ∨ t.keyAt j = none ∧ (t.pairAt (origin j)).isSome
  finds : ∀ p q : Nat → Bool, (∀ j, j ≠ i → p j = q (origin j)) → p i = false →
    ∀ j k, j ≠ i → t'.keyAt j = some k → p j = true →
      find t.nextAt q t.sizenode (mainposition hash t k) = some (origin j) →
      find t'.nextAt p t'.sizenode (mainposition hash t' k) = some j
  self : ∀ p : Nat → Bool, p i = true → (∀ j, (t'.pairAt j).isSome → p j = false) →
    find t'.nextAt p t'.sizenode (mainposition hash t' key) = some i

omit [LuaNumber N] in
theorem Refilled.keyAt_self (h : Refilled t t' key i origin) (hkey : key ≠ .nil) :
    t'.keyAt i = some key :=
  keyAt_eq_some.mpr ⟨h.key, hkey⟩

omit [LuaNumber N] in
/-- A key of the new table is the new one, or one of the old table. -/
theorem Refilled.keyAt_cases (h : Refilled t t' key i origin) (hkey : key ≠ .nil) {j : Nat}
    {k : TValue N} (hj : t'.keyAt j = some k) :
    (j = i ∧ k = key) ∨ (j ≠ i ∧ t.keyAt (origin j) = some k) := by
  by_cases hji : j = i
  · rw [hji, h.keyAt_self hkey] at hj
    cases hj
    exact .inl ⟨hji, rfl⟩
  · rw [h.keyAt hji] at hj
    exact .inr ⟨hji, hj⟩

theorem Sound.refilled (h : Sound hash t) (hkey : Proper key) (hout : t.sizearray ≤ index key)
    (hr : Refilled t t' key i origin) (hsame : SameParts t t') (hdummy : t.isDummy = false)
    (hsc : Scattered t'.sizenode (mainposition hash t') t'.keyAt t'.nextAt)
    (hlast : ∀ j, t'.lastfree ≤ j → j < t'.sizenode → (t'.keyAt j).isSome)
    (hle : t'.lastfree ≤ t'.sizenode) : Sound hash t' := by
  refine ⟨hsc, ?_, ?_, ?_, ?_, fun _ => hlast, hle, ?_, ?_⟩
  · intro hd
    rw [hsame.isDummy, hdummy] at hd
    cases hd
  · intro j hj
    by_cases hji : j = i
    · rw [hji]
      exact hr.val
    · rw [hr.keyAt hji] at hj
      rw [(hr.cells j hji).2]
      exact h.free _ hj
  · intro j k hj
    rcases hr.keyAt_cases hkey.1 hj with ⟨-, rfl⟩ | ⟨-, hj⟩
    · exact hkey
    · exact h.proper _ k hj
  · intro j k hj
    rw [hsame.sizearray]
    rcases hr.keyAt_cases hkey.1 hj with ⟨-, rfl⟩ | ⟨-, hj⟩
    · exact hout
    · exact h.ints _ k hj
  · rw [hsame.sizearray, hsame.allocated]
    exact h.memory
  · rw [hsame.sizearray]
    exact h.sizearray

/-- The key comes to its main position, which has no value. -/
theorem Sound.putKey_fitted (h : Sound hash t) (hproper : Proper key)
    (hout : t.sizearray ≤ index key) (hdummy : t.isDummy = false)
    (hval : (t.node (mainposition hash t key)).val = .nil) :
    Fitted hash t (putKey t (mainposition hash t key) key).2 key (mainposition hash t key) id := by
  generalize hmp : mainposition hash t key = mp at hval
  have hnode : ∀ j, j ≠ mp → (putKey t mp key).2.node j = t.node j := fun j hj => if_neg hj
  have hself : (putKey t mp key).2.node mp = { t.node mp with key := key } := if_pos rfl
  have hr : Refilled t (putKey t mp key).2 key mp id := by
    refine ⟨by rw [hself], by rw [hself]; exact hval, fun j hj => ?_, fun j j' _ _ hjj => hjj⟩
    rw [hnode j hj]
    exact ⟨rfl, rfl⟩
  have hkey := hr.keyAt_self hproper.1
  have hpairs : ∀ j, (putKey t mp key).2.pairAt j = t.pairAt j := by
    intro j
    by_cases hj : j = mp
    · rw [hj, pairAt_eq_none.mpr hr.val, pairAt_eq_none.mpr hval]
    · exact hr.pairAt hj
  have hnext : (putKey t mp key).2.nextAt = t.nextAt := by
    funext j
    by_cases hj : j = mp
    · rw [hj, nextAt, hself]
      rfl
    · rw [nextAt, hnode j hj]
      rfl
  have hsc : Scattered t.sizenode (mainposition hash t) (putKey t mp key).2.keyAt t.nextAt := by
    refine h.scattered.put (k := key) (by rw [hmp, ← hmp]; exact mainposition_lt hash t key)
      (by rw [hmp]; exact hkey) fun j hj => ?_
    rw [hmp] at hj
    exact hr.keyAt hj
  have hsame : SameParts t (putKey t mp key).2 := ⟨rfl, rfl, rfl, rfl, rfl⟩
  have hlive : (putKey t mp key).2.live = t.live := congrArg (contents · t.sizenode) (funext hpairs)
  have hsound : Sound hash (putKey t mp key).2 := by
    refine h.refilled hproper hout hr hsame hdummy ?_ (fun j hj hlt => ?_) h.lastfree_le
    · rw [hnext]
      exact hsc
    · by_cases hji : j = mp
      · rw [hji, hkey]
        rfl
      · rw [hr.keyAt hji]
        exact h.lastfree hdummy j hj hlt
  refine ⟨hsound, hr, hsame, by rw [hlive], fun j _ => .inl rfl, ?_, ?_⟩
  · intro p q hpq hp j k _ _ hj hfind
    rw [hnext]
    refine find_narrow hfind hj fun x hx => ?_
    by_cases hxm : x = mp
    · rw [hxm, hp] at hx
      cases hx
    · rw [← hx, hpq x hxm]
      rfl
  · intro p hp _
    rw [show mainposition hash (putKey t mp key).2 key = mp from hmp]
    exact find_head hp (sizenode_pos _)

/-- The key comes to the free position `n`, after the node in its main position, which is at home. -/
theorem Sound.chainNode_fitted (h : Sound hash t) (hproper : Proper key)
    (hout : t.sizearray ≤ index key) (hdummy : t.isDummy = false) {mp n : Nat}
    {c : TValue N × TValue N} (hmp : mainposition hash t key = mp) (hpair : t.pairAt mp = some c)
    (hhome : mainposition hash t c.1 = mp) (hn : t.keyAt n = none) (hlt : n < t.sizenode)
    (hused : ∀ j, n < j → j < t.sizenode → (t.keyAt j).isSome) :
    Fitted hash t (putKey (chainNode { t with lastfree := n } mp n) n key).2 key n id := by
  have hc := h.keyAt_of_pair hpair
  generalize ht' : (putKey (chainNode { t with lastfree := n } mp n) n key).2 = t'
  have hne : mp ≠ n := by
    rintro rfl
    rw [hn] at hc
    cases hc
  have hnval : (t.node n).val = .nil := h.free n hn
  have hnodes : t'.node n = ⟨.nil, key, (t.node mp).next⟩ ∧
      t'.node mp = { t.node mp with next := some n } ∧
      ∀ j, j ≠ mp → j ≠ n → t'.node j = t.node j := by
    rw [← ht']
    refine ⟨?_, ?_, fun j hj hj' => ?_⟩
    · simp [putKey, chainNode, setNode, Ne.symm hne, hnval]
    · simp [putKey, chainNode, setNode, hne]
    · simp [putKey, chainNode, setNode, hj, hj']
  obtain ⟨hnodeN, hnodeM, hnode⟩ := hnodes
  have hr : Refilled t t' key n id := by
    refine ⟨by rw [hnodeN], by rw [hnodeN], fun j hj => ?_, fun j j' _ _ hjj => hjj⟩
    by_cases hjm : j = mp
    · rw [hjm, hnodeM]
      exact ⟨rfl, rfl⟩
    · rw [hnode j hjm hj]
      exact ⟨rfl, rfl⟩
  have hkey := hr.keyAt_self hproper.1
  have hpairs : t'.pairAt = t.pairAt := by
    funext j
    by_cases hj : j = n
    · rw [hj, pairAt_eq_none.mpr hr.val, pairAt_eq_none.mpr hnval]
    · exact hr.pairAt hj
  have hsame : SameParts t t' := by
    rw [← ht']
    exact ⟨rfl, rfl, rfl, rfl, rfl⟩
  have hlast : t'.lastfree = n := by
    rw [← ht']
    rfl
  have hsize : t'.sizenode = t.sizenode := congrArg (2 ^ ·) hsame.lsizenode
  have hmain : mainposition hash t' = mainposition hash t := by
    funext k
    simp only [mainposition, hsize]
  have hlive : t'.live = t.live := by rw [live, live, hsize, hpairs]
  have hnextM : t'.nextAt mp = some n := by rw [nextAt, hnodeM]
  have hnextN : t'.nextAt n = t.nextAt mp := by
    rw [nextAt, hnodeN]
    rfl
  have hnext : ∀ j, j ≠ mp → j ≠ n → t'.nextAt j = t.nextAt j := by
    intro j hj hj'
    rw [nextAt, hnode j hj hj']
    rfl
  have hsc : Scattered t.sizenode (mainposition hash t) t'.keyAt t'.nextAt :=
    h.scattered.link hc hhome hmp hn hlt hkey (fun j hj => hr.keyAt hj) hnextM hnextN hnext
  have hsound : Sound hash t' := by
    refine h.refilled hproper hout hr hsame hdummy ?_ (fun j hj hjlt => ?_) ?_
    · rw [hsize, hmain]
      exact hsc
    · rw [hlast] at hj
      rw [hsize] at hjlt
      by_cases hjn : j = n
      · rw [hjn, hkey]
        rfl
      · rw [hr.keyAt hjn]
        exact hused j (Nat.lt_of_le_of_ne hj (Ne.symm hjn)) hjlt
    · rw [hlast, hsize]
      exact Nat.le_of_lt hlt
  refine ⟨hsound, hr, hsame, by rw [hlive], fun j _ => .inl rfl, ?_, ?_⟩
  · intro p q hpq hp j k hj hk _ hfind
    rw [hr.keyAt hj] at hk
    rw [hsize, hmain, h.scattered.link_find hsc hn (fun j hj => hr.keyAt hj) hnextM hnextN hnext hk
      hp hpq]
    exact hfind
  · intro p hp hvals
    have hm : p mp = false := hvals mp (by rw [hpairs, hpair]; rfl)
    obtain ⟨l, hpath, -, hlen, -⟩ := hsc.chain hkey
    rw [hmp] at hpath
    rw [hsize, hmain, hmp, hpath.find_eq p hlen]
    cases hpath with
    | last hnone =>
      rw [hnextM] at hnone
      cases hnone
    | step hsome hpath =>
      rw [hnextM] at hsome
      cases hsome
      rw [List.find?_cons, hm]
      exact hpath.find_head hp

/-- The key comes to its main position; the node that was there, and was not at home, goes to the free
position `n`. -/
theorem Sound.moveNode_fitted (h : Sound hash t) (hproper : Proper key)
    (hout : t.sizearray ≤ index key) (hdummy : t.isDummy = false) {mp n : Nat}
    {c : TValue N × TValue N} (hmp : mainposition hash t key = mp) (hpair : t.pairAt mp = some c)
    (hhome : mainposition hash t c.1 ≠ mp) (hn : t.keyAt n = none) (hlt : n < t.sizenode)
    (hused : ∀ j, n < j → j < t.sizenode → (t.keyAt j).isSome) :
    Fitted hash t
      (putKey (moveNode { t with lastfree := n } mp n (mainposition hash t c.1)) mp key).2 key mp
      fun j => if j = n then mp else j := by
  have hc := h.keyAt_of_pair hpair
  generalize ht' :
    (putKey (moveNode { t with lastfree := n } mp n (mainposition hash t c.1)) mp key).2 = t'
  have hne : mp ≠ n := by
    rintro rfl
    rw [hn] at hc
    cases hc
  obtain ⟨l, hpath, hmem, hlen, hsome⟩ := h.scattered.chain hc
  generalize hprev : Scatter.before t.nextAt mp t.sizenode (mainposition hash t c.1) = p
  have hp : t.nextAt p = some mp := by
    rw [← hprev]
    exact hpath.before_spec hmem hhome hlen
  have hpn : p ≠ n := by
    rintro rfl
    have hlinked := (h.scattered.linked hp).1
    rw [hn] at hlinked
    cases hlinked
  have hpm : p ≠ mp := by
    rintro rfl
    obtain ⟨l', hl', -⟩ := hpath.suffix hmem
    exact hl'.next_ne hp
  have hnval : (t.node n).val = .nil := h.free n hn
  have hnodes : t'.node mp = ⟨.nil, key, none⟩ ∧ t'.node n = t.node mp ∧
      t'.node p = { t.node p with next := some n } ∧
      ∀ j, j ≠ mp → j ≠ n → j ≠ p → t'.node j = t.node j := by
    have hbefore : Scatter.before (fun i => (t.node i).next) mp t.sizenode
        (mainposition hash t c.1) = p := hprev
    have hsize : ({ t with lastfree := n } : Table N).sizenode = t.sizenode := rfl
    rw [← ht']
    refine ⟨?_, ?_, ?_, fun j hj hj' hj'' => ?_⟩
    · simp [putKey, moveNode, setNode]
    · simp [putKey, moveNode, setNode, hsize, hbefore, Ne.symm hne, Ne.symm hpm]
    · simp [putKey, moveNode, setNode, hsize, hbefore, hpn, hpm]
    · simp [putKey, moveNode, setNode, hsize, hbefore, hj, hj', hj'']
  obtain ⟨hnodeM, hnodeN, hnodeP, hnode⟩ := hnodes
  have hcells : ∀ j, j ≠ mp → j ≠ n → (t'.node j).key = (t.node j).key ∧
      (t'.node j).val = (t.node j).val := by
    intro j hj hj'
    by_cases hjp : j = p
    · rw [hjp, hnodeP]
      exact ⟨rfl, rfl⟩
    · rw [hnode j hj hj' hjp]
      exact ⟨rfl, rfl⟩
  have hr : Refilled t t' key mp fun j => if j = n then mp else j := by
    refine ⟨by rw [hnodeM], by rw [hnodeM], fun j hj => ?_, fun j j' hj hj' hjj => ?_⟩
    · by_cases hjn : j = n
      · simp only [hjn, if_true, hnodeN, and_self]
      · simp only [hjn, if_false]
        exact hcells j hj hjn
    · by_cases hjn : j = n
      · by_cases hjn' : j' = n
        · rw [hjn, hjn']
        · simp only [hjn, hjn', if_true, if_false] at hjj
          exact absurd hjj.symm hj'
      · by_cases hjn' : j' = n
        · simp only [hjn, hjn', if_true, if_false] at hjj
          exact absurd hjj hj
        · simpa only [hjn, hjn', if_false] using hjj
  have hkey := hr.keyAt_self hproper.1
  have hmoved : t'.keyAt n = t.keyAt mp := by simp only [keyAt, hnodeN]
  have hkept : ∀ j, j ≠ mp → j ≠ n → t'.keyAt j = t.keyAt j := by
    intro j hj hj'
    simp only [keyAt, (hcells j hj hj').1]
  have hlive : (contents t'.pairAt t.sizenode).Perm (contents t.pairAt t.sizenode) := by
    refine contents_move (h.scattered.lt hc) hlt hne (pairAt_eq_none.mpr hnval)
      (pairAt_eq_none.mpr hr.val) ?_ fun j hj hj' => ?_
    · simp only [pairAt, hnodeN]
    · simp only [pairAt, (hcells j hj hj').1, (hcells j hj hj').2]
  have hsame : SameParts t t' := by
    rw [← ht']
    exact ⟨rfl, rfl, rfl, rfl, rfl⟩
  have hlast : t'.lastfree = n := by
    rw [← ht']
    rfl
  have hsize : t'.sizenode = t.sizenode := congrArg (2 ^ ·) hsame.lsizenode
  have hmain : mainposition hash t' = mainposition hash t := by
    funext k
    simp only [mainposition, hsize]
  have hnextP : t'.nextAt p = some n := by rw [nextAt, hnodeP]
  have hnextN : t'.nextAt n = t.nextAt mp := by
    rw [nextAt, hnodeN]
    rfl
  have hnextM : t'.nextAt mp = none := by rw [nextAt, hnodeM]
  have hnext : ∀ j, j ≠ mp → j ≠ n → j ≠ p → t'.nextAt j = t.nextAt j := by
    intro j hj hj' hj''
    rw [nextAt, hnode j hj hj' hj'']
    rfl
  have hsc : Scattered t.sizenode (mainposition hash t) t'.keyAt t'.nextAt :=
    h.scattered.move hc hhome hmp hn hlt hp hkey (hmoved.trans hc) hkept hnextP hnextN hnextM hnext
  have hsound : Sound hash t' := by
    refine h.refilled hproper hout hr hsame hdummy ?_ (fun j hj hjlt => ?_) ?_
    · rw [hsize, hmain]
      exact hsc
    · rw [hlast] at hj
      rw [hsize] at hjlt
      by_cases hjm : j = mp
      · rw [hjm, hkey]
        rfl
      · by_cases hjn : j = n
        · rw [hjn, hmoved, hc]
          rfl
        · rw [hkept j hjm hjn]
          exact hused j (Nat.lt_of_le_of_ne hj (Ne.symm hjn)) hjlt
    · rw [hlast, hsize]
      exact Nat.le_of_lt hlt
  refine ⟨hsound, hr, hsame, ?_, fun j _ => ?_, ?_, ?_⟩
  · rw [live, hsize]
    exact hlive
  · by_cases hjn : j = n
    · rw [if_pos hjn, hjn, hpair]
      exact .inr ⟨hn, rfl⟩
    · exact .inl (if_neg hjn)
  · intro f g hfg _ j k hj hk _ hfind
    rw [hr.keyAt hj] at hk
    have hsearch := h.scattered.move_find hsc hc hhome hn hp hkept hnextP hnextN hnext hk
      (f := f) (g := g) (fun x hx => ?_) hfind
    · rw [hsize, hmain, hsearch]
      by_cases hjn : j = n
      · simp only [hjn, if_true]
      · simp only [hjn, hj, if_false]
    · by_cases hxm : x = mp
      · have hsame := hfg n (Ne.symm hne)
        rw [if_pos rfl] at hsame
        rw [if_pos hxm, hsame, hxm]
      · have hsame := hfg x hxm
        rw [if_neg hx] at hsame
        rw [if_neg hxm, hsame]
  · intro f hf _
    rw [hmain, hmp]
    exact find_head hf (sizenode_pos _)

/-- There is a place for the key in the node vector. -/
def HasPlace (hash : TValue N → Nat) (t : Table N) (key : TValue N) : Prop :=
  t.isDummy = false ∧ ((t.node (mainposition hash t key)).val = .nil ∨
    ∃ n, (getfreepos t t.lastfree).1 = some n)

/-- `newkey`, where it need not rehash. -/
theorem Sound.newkey_fitted (h : Sound hash t) (hproper : Proper key) (hout : t.sizearray ≤ index key)
    (hplace : HasPlace hash t key) (newkey : Newkey N) :
    ∃ i t' origin, newkeyStep hash newkey t key = .ok (.node i, t') ∧
      Fitted hash t t' key i origin := by
  obtain ⟨hdummy, hplace⟩ := hplace
  generalize hmp : mainposition hash t key = mp at hplace
  cases hpair : t.pairAt mp with
  | none =>
    have hval := pairAt_eq_none.mp hpair
    have hfit := h.putKey_fitted hproper hout hdummy (by rw [hmp]; exact hval)
    refine ⟨_, _, _, ?_, hfit⟩
    simp only [newkeyStep, hmp, hval, hdummy, TValue.isNil, Bool.not_true, Bool.or_self,
      Bool.false_eq_true, if_false]
    rfl
  | some p =>
    have hval : (t.node mp).val ≠ .nil := by
      intro hnil
      rw [pairAt_eq_none.mpr hnil] at hpair
      cases hpair
    have hisNil : (t.node mp).val.isNil = false := by
      rw [← Bool.not_eq_true, TValue.isNil_iff]
      exact hval
    have hc := h.keyAt_of_pair hpair
    have hck : (t.node mp).key = p.1 := (keyAt_eq_some.mp hc).1
    rcases getfreepos_spec t t.lastfree with ⟨n, hn, hfree, hkn, hbetween⟩ | ⟨hfree, -⟩
    · have hlt : n < t.sizenode := Nat.lt_of_lt_of_le hn h.lastfree_le
      have hused : ∀ j, n < j → j < t.sizenode → (t.keyAt j).isSome := by
        intro j hj hjlt
        by_cases hjl : j < t.lastfree
        · exact hbetween j hj hjl
        · exact h.lastfree hdummy j (Nat.le_of_not_lt hjl) hjlt
      have hsame : ∀ k, mainposition hash { t with lastfree := n } k = mainposition hash t k :=
        fun _ => rfl
      by_cases hhome : mainposition hash t p.1 = mp
      · refine ⟨_, _, _, ?_, h.chainNode_fitted hproper hout hdummy hmp hpair hhome hkn hlt hused⟩
        simp only [newkeyStep, hmp, hisNil, Bool.not_false, Bool.true_or, if_true, hfree, hck, hsame,
          hhome, ne_eq, not_true_eq_false, if_false]
        rfl
      · refine ⟨_, _, _, ?_, h.moveNode_fitted hproper hout hdummy hmp hpair hhome hkn hlt hused⟩
        simp only [newkeyStep, hmp, hisNil, Bool.not_false, Bool.true_or, if_true, hfree, hck, hsame,
          hhome, ne_eq, not_false_eq_true]
        rfl
    · rcases hplace with hnil | ⟨n, hn⟩
      · exact absurd hnil hval
      · rw [hfree] at hn
        cases hn

/-- The key is in no node, and is none for the array. -/
structure Fresh (t : Table N) (key : TValue N) : Prop where
  proper : Proper key
  out : t.sizearray ≤ index key
  none : ∀ i k, t.keyAt i = some k → luaORawequalObj k key = false

theorem Fitted.packed (h : Fitted hash t t' key i origin) (hp : Packed t) {j : Nat} (hj : j ≠ i)
    (hsome : (t'.keyAt j).isSome) : (t'.pairAt j).isSome := by
  rw [h.refilled.keyAt hj] at hsome
  rw [h.refilled.pairAt hj]
  exact hp _ hsome

variable [LawfulNumber N]

theorem Fitted.inserted (h : Fitted hash t t' key i origin) (hinv : Inv hash t)
    (hfresh : Fresh t key) : Inserted hash t t' key i := by
  have hr := h.refilled
  have hkey := hfresh.proper.1
  refine ⟨h.sound.inv fun j j' k k' hj hj' hk => ?_, h.same, hr.keyAt_self hkey, hr.val, h.live,
    fun hp j hj => h.packed hp hj⟩
  rcases hr.keyAt_cases hkey hj with ⟨hji, rfl⟩ | ⟨hji, hj⟩
  · rcases hr.keyAt_cases hkey hj' with ⟨hji', -⟩ | ⟨-, hj'⟩
    · rw [hji, hji']
    · have hsym := rawequal_symm hk
      rw [hfresh.none _ k' hj'] at hsym
      cases hsym
  · rcases hr.keyAt_cases hkey hj' with ⟨-, rfl⟩ | ⟨hji', hj'⟩
    · rw [hfresh.none _ k hj] at hk
      cases hk
    · exact hr.inj j j' hji hji' (hinv.keys _ _ k k' hj hj' hk)

theorem Inv.newkey_inserted (h : Inv hash t) (hfresh : Fresh t key) (hplace : HasPlace hash t key)
    (newkey : Newkey N) : ∃ i t', newkeyStep hash newkey t key = .ok (.node i, t') ∧
      Inserted hash t t' key i := by
  obtain ⟨i, t', origin, hnew, hfit⟩ :=
    h.sound.newkey_fitted hfresh.proper hfresh.out hplace newkey
  exact ⟨i, t', hnew, hfit.inserted h hfresh⟩

end Refill

end UgmeeLua.Ltable

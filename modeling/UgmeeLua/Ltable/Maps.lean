import UgmeeLua.Ltable.LargeArray

namespace UgmeeLua.Ltable

open Scatter Ltable.Table LawfulNumber

variable {N : Type} [LuaNumber N]

/-- A map with a value for a key, and for the keys that are equal to it. -/
def store (m : TValue N → TValue N) (key v : TValue N) : TValue N → TValue N := fun k =>
  if luaORawequalObj key k then v else m k

/-- The stores and the resizes that a table goes through, with the map that the stores make. The array
does not shrink, unless there are nodes for what is in the vanishing slice and in the hash part. -/
inductive Stores (hash : TValue N → Nat) (depth : Nat) : Table N → (TValue N → TValue N) → Prop
  | new {narray nhash : Nat} {t : Table N} (hsize : narray < 2 ^ 31)
      (h : luaHNew narray nhash = .ok t) : Stores hash depth t fun _ => .nil
  | set {t t1 t' : Table N} {m : TValue N → TValue N} {s : Slot} {key : TValue N} (v : TValue N)
      (h : Stores hash depth t m) (hset : luaHSet hash depth t key = .ok (s, t1))
      (hwrite : t1.write v s = .ok t') : Stores hash depth t' (store m key v)
  | setnum {t t1 t' : Table N} {m : TValue N → TValue N} {s : Slot} {key : BitVec 32} (v : TValue N)
      (h : Stores hash depth t m) (hset : luaHSetnum hash depth t key = .ok (s, t1))
      (hwrite : t1.write v s = .ok t') : Stores hash depth t' (store m (.number (castNum key)) v)
  | setstr {t t1 t' : Table N} {m : TValue N → TValue N} {s : Slot} {key : Bytes} (v : TValue N)
      (h : Stores hash depth t m) (hset : luaHSetstr hash depth t key = .ok (s, t1))
      (hwrite : t1.write v s = .ok t') : Stores hash depth t' (store m (.string key) v)
  | resizearray {t t' : Table N} {m : TValue N → TValue N} {nasize : Nat} (h : Stores hash depth t m)
      (hsize : nasize < 2 ^ 31)
      (hroom : nasize < t.sizearray → (vanishing t nasize).length + t.live.length ≤ capacity t)
      (hresize : luaHResizearray hash depth t nasize = .ok t') : Stores hash depth t' m

/-- A table holds the values of a map. -/
def Holds (t : Table N) (m : TValue N → TValue N) : Prop :=
  ∀ k w, Proper k → (Has t k w ↔ w = m k ∧ w ≠ .nil)

section Writes

variable [LawfulNumber N] {hash : TValue N → Nat} {t : Table N} {key : TValue N} {s : Slot}

/-- A store to the place of a key changes its value, and no other. -/
theorem Inv.write_kept (h : Inv hash t) (hkept : Kept t key (some s)) (v : TValue N) :
    ∃ t', t.write v s = .ok t' ∧ Inv hash t' ∧ ∀ k w, Has t' k w ↔
      if luaORawequalObj key k = true then w = v ∧ w ≠ .nil else Has t k w := by
  cases hkept with
  | array hin =>
    have hsize : index key < 2 ^ 31 := Nat.lt_trans hin h.sizearray
    refine ⟨_, if_pos (Nat.lt_of_lt_of_le hin h.memory), h.write_array _, fun k w => ?_⟩
    by_cases hk : luaORawequalObj key k = true
    · have hidx : index k = index key := by rw [index, index, arrayindex_congr hk]
      rw [if_pos hk]
      constructor
      · intro hw
        obtain ⟨hne, ⟨-, hval⟩ | ⟨p, hp, hpk, -⟩⟩ := hw
        · simp only [hidx, if_true] at hval
          exact ⟨hval.symm, hne⟩
        · have hout := h.live_out hp hpk
          omega
      · intro hw
        refine ⟨hw.2, .inl ⟨by rw [hidx]; exact hin, ?_⟩⟩
        simp only [hidx, if_true]
        exact hw.1.symm
    · have hidx : index k ≠ index key := fun heq => hk (rawequal_of_index hsize heq)
      rw [if_neg hk]
      simp only [Has, hidx, if_false]
      exact Iff.rfl
  | @node i kk hout hi hkk =>
    refine ⟨_, rfl, h.write_node hi v, fun k w => ?_⟩
    obtain ⟨hikk, -⟩ := keyAt_eq_some.mp hi
    have hsame : ∀ j p, j ≠ i → ((t.setNode i { t.node i with val := v }).pairAt j = some p ↔
        t.pairAt j = some p) := by
      intro j p hj
      rw [pairAt_setVal_other t v hj]
    have hself : ∀ p, (t.setNode i { t.node i with val := v }).pairAt i = some p ↔
        p = (kk, v) ∧ v ≠ .nil := by
      intro p
      rw [pairAt_setVal, hikk]
      by_cases hv : v = .nil
      · simp [hv, TValue.isNil]
      · simp [isNil_eq_false hv, hv, eq_comm]
    by_cases hk : luaORawequalObj key k = true
    · have hidx : index k = index key := by rw [index, index, arrayindex_congr hk]
      rw [if_pos hk]
      constructor
      · intro hw
        obtain ⟨hne, ⟨hin, -⟩ | ⟨p, hp, hpk, hpw⟩⟩ := hw
        · have hin : index k < t.sizearray := hin
          omega
        · obtain ⟨j, -, hj⟩ := mem_contents.mp hp
          by_cases hji : j = i
          · rw [hji] at hj
            obtain ⟨rfl, -⟩ := (hself p).mp hj
            exact ⟨hpw.symm, hne⟩
          · have hjk := h.keyAt_of_pair ((hsame j p hji).mp hj)
            have heq : luaORawequalObj p.1 kk = true :=
              rawequal_trans hpk (rawequal_symm (rawequal_trans hkk hk))
            exact absurd (h.keys j i p.1 kk hjk hi heq) hji
      · intro hw
        obtain ⟨rfl, hne⟩ := hw
        refine ⟨hne, .inr ⟨(kk, w), mem_contents.mpr ⟨i, h.scattered.lt hi, ?_⟩,
          rawequal_trans hkk hk, rfl⟩⟩
        exact (hself _).mpr ⟨rfl, hne⟩
    · have hother : ∀ p : TValue N × TValue N, p.1 = kk → luaORawequalObj p.1 k ≠ true := by
        intro p hp hpk
        rw [hp] at hpk
        exact hk (rawequal_trans (rawequal_symm hkk) hpk)
      rw [if_neg hk]
      refine and_congr_right fun _ => or_congr Iff.rfl ⟨fun hw => ?_, fun hw => ?_⟩
      · obtain ⟨p, hp, hpk, hpw⟩ := hw
        obtain ⟨j, hlt, hj⟩ := mem_contents.mp hp
        by_cases hji : j = i
        · rw [hji] at hj
          obtain ⟨rfl, -⟩ := (hself p).mp hj
          exact absurd hpk (hother _ rfl)
        · exact ⟨p, mem_contents.mpr ⟨j, hlt, (hsame j p hji).mp hj⟩, hpk, hpw⟩
      · obtain ⟨p, hp, hpk, hpw⟩ := hw
        obtain ⟨j, hlt, hj⟩ := mem_contents.mp hp
        by_cases hji : j = i
        · rw [hji] at hj
          exact absurd hpk (hother p ((pairAt_eq_some.mp hj).1.symm.trans hikk))
        · exact ⟨p, mem_contents.mpr ⟨j, hlt, (hsame j p hji).mpr hj⟩, hpk, hpw⟩

omit [LawfulNumber N] in
theorem Holds.store {t t' : Table N} {m : TValue N → TValue N} (h : Holds t m) {v : TValue N}
    (hhas : ∀ k w, Has t' k w ↔ if luaORawequalObj key k = true then w = v ∧ w ≠ .nil else Has t k w) :
    Holds t' (store m key v) := by
  intro k w hk
  rw [hhas, Ltable.store]
  split_ifs
  · exact Iff.rfl
  · exact h k w hk

/-- `luaH_set` and the store after it. -/
theorem Inv.set_holds (h : Inv hash t) (hhash : Consistent hash) {depth : Nat} (hdepth : 3 ≤ depth)
    {m : TValue N → TValue N} (hm : Holds t m) (hkey : Proper key) {t1 t' : Table N} {v : TValue N}
    (hset : luaHSet hash depth t key = .ok (s, t1)) (hwrite : t1.write v s = .ok t') :
    Inv hash t' ∧ Holds t' (store m key v) := by
  have hplaced := h.luaHSet_placed hhash hkey hdepth
  rw [hset] at hplaced
  cases hplaced with
  | ok hplaced =>
    obtain ⟨t2, hwrite2, hinv2, hhas2⟩ := hplaced.inv.write_kept hplaced.kept v
    have heq : t2 = t' := Except.ok.inj (hwrite2.symm.trans hwrite)
    subst heq
    refine ⟨hinv2, hm.store fun k w => ?_⟩
    rw [hhas2]
    split_ifs
    · exact Iff.rfl
    · exact hplaced.has k w

omit [LawfulNumber N] in
/-- The values that are no keys. -/
theorem improper (h : ¬ Proper key) : key = .nil ∨ ∃ n, key = .number n ∧ luaiNumeq n n = false := by
  cases key with
  | nil => exact .inl rfl
  | number n =>
    cases hn : luaiNumeq n n with
    | false => exact .inr ⟨n, rfl, hn⟩
    | true => exact absurd ⟨by simp, hn⟩ h
  | _ => exact absurd ⟨by simp, by simp [luaORawequalObj]⟩ h

/-- What is no key is not found. -/
theorem luaHGet_improper (h : ¬ Proper key) (hash : TValue N → Nat) (t : Table N) :
    luaHGet hash t key = none := by
  rcases improper h with rfl | ⟨n, rfl, hn⟩
  · rfl
  · have hno : ∀ k : TValue N, luaORawequalObj k (.number n) = false := by
      intro k
      by_contra hk
      rw [Bool.not_eq_false] at hk
      have hself : luaiNumeq n n = true := rawequal_trans (rawequal_symm hk) hk
      rw [hn] at hself
      cases hself
    have hcast : luaiNumeq (castNum (LuaNumber.toInt n)) n = false := hno (.number _)
    simp only [luaHGet, hcast, Bool.false_eq_true, if_false, luaHGetany, chainFind,
      find_none fun i => hno (t.node i).key, Option.map_none]

/-- What is no key raises an error. -/
theorem proper_of_set {depth : Nat} {r : Slot × Table N}
    (hset : luaHSet hash depth t key = .ok r) : Proper key := by
  by_contra h
  simp only [luaHSet, setWith, luaHGet_improper h] at hset
  rcases improper h with rfl | ⟨n, rfl, hn⟩
  · cases hset
  · have hnan : luaiNumisnan n = true := by simp only [luaiNumisnan, hn, Bool.not_false]
    simp only [hnan, if_true] at hset
    cases hset

theorem luaHSetnum_eq (hash : TValue N → Nat) (depth : Nat) (t : Table N) (k : BitVec 32) :
    luaHSetnum hash depth t k = luaHSet hash depth t (.number (castNum k)) :=
  setnumWith_eq _ t k

omit [LawfulNumber N] in
theorem luaHSetstr_eq (hash : TValue N → Nat) (depth : Nat) (t : Table N) (s : Bytes) :
    luaHSetstr hash depth t s = luaHSet hash depth t (.string s) := rfl

omit [LawfulNumber N] in
theorem luaHNew_spec {narray nhash : Nat} (hsize : narray < 2 ^ 31)
    (h : luaHNew narray nhash = .ok t) : Inv hash t ∧ Holds t fun _ => .nil := by
  have hyields := setnodevector_yields
    (setarrayvector narray (⟨fun _ => .nil, 0, 0, fun _ => emptyNode, true, 0, 0⟩ : Table N)) nhash
  change Yields _ (luaHNew narray nhash) at hyields
  rw [h] at hyields
  cases hyields with
  | ok hemp =>
    obtain ⟨hemp, -⟩ := hemp
    refine ⟨hemp.inv ?_ ?_, fun k w _ => ⟨fun hw => ?_, fun hw => absurd hw.1 hw.2⟩⟩
    · rw [hemp.sizearray, hemp.allocated]
      exact Nat.le_refl _
    · rw [hemp.sizearray]
      exact hsize
    · obtain ⟨hne, ⟨-, hval⟩ | ⟨p, hp, -⟩⟩ := hw
      · rw [hemp.array] at hval
        have hnil : (setarrayvector narray
            (⟨fun _ => .nil, 0, 0, fun _ => emptyNode, true, 0, 0⟩ : Table N)).array (index k) =
            .nil := ite_self _
        exact absurd (hval.symm.trans hnil) hne
      · rw [hemp.live_eq] at hp
        cases hp

omit [LawfulNumber N] in
theorem Sound.live_le (h : Sound hash t) : t.live.length ≤ capacity t := by
  unfold capacity
  cases hd : t.isDummy with
  | true =>
    have hnil : t.live = [] := by
      refine List.eq_nil_iff_forall_not_mem.mpr fun p hp => ?_
      obtain ⟨i, -, hi⟩ := mem_contents.mp hp
      have hnone := (h.dummy hd).2.2 i
      rw [h.keyAt_of_pair hi] at hnone
      cases hnone
    rw [hnil]
    exact Nat.zero_le _
  | false =>
    have hle := List.length_filterMap_le t.pairAt (List.range t.sizenode)
    rw [List.length_range] at hle
    exact hle

theorem Elements.resizearray (h : Elements t) (hhash : Consistent hash) {depth nasize : Nat}
    (hdepth : 1 ≤ depth) (hsize : nasize < 2 ^ 31) (hlive : t.live.length ≤ capacity t)
    (hroom : nasize < t.sizearray → (vanishing t nasize).length + t.live.length ≤ capacity t) :
    Yields (fun t' => Resized hash t t' nasize) (luaHResizearray hash depth t nasize) := by
  obtain ⟨d, rfl⟩ : ∃ d, depth = d + 1 := ⟨depth - 1, by omega⟩
  have hcap : (if t.isDummy then 0 else t.sizenode) = capacity t := rfl
  have hfilter : ((vanishing t nasize ++ nodes t).filter (beyond nasize)).length ≤ capacity t := by
    have hle := List.length_filter_le (beyond nasize) (vanishing t nasize ++ nodes t)
    rw [List.length_append, (nodes_perm t).length_eq] at hle
    by_cases hlt : nasize < t.sizearray
    · exact Nat.le_trans hle (hroom hlt)
    · rw [vanishing_eq_nil (Nat.le_of_not_lt hlt), List.length_nil, Nat.zero_add] at hle
      rw [vanishing_eq_nil (Nat.le_of_not_lt hlt)]
      exact Nat.le_trans hle hlive
  unfold luaHResizearray
  dsimp only
  rw [hcap]
  exact (h.resize_room hhash (newkey hash d) hsize hfilter).mono fun t' h' => h'.1

/-- A table keeps its invariant and holds the map of the stores. -/
theorem Stores.holds (hhash : Consistent hash) {depth : Nat} (hdepth : 3 ≤ depth)
    {m : TValue N → TValue N} (h : Stores hash depth t m) : Inv hash t ∧ Holds t m := by
  induction h with
  | new hsize h => exact luaHNew_spec hsize h
  | set v _ hset hwrite ih =>
    exact ih.1.set_holds hhash hdepth ih.2 (proper_of_set hset) hset hwrite
  | setnum v _ hset hwrite ih =>
    rw [luaHSetnum_eq] at hset
    exact ih.1.set_holds hhash hdepth ih.2 (proper_of_set hset) hset hwrite
  | setstr v _ hset hwrite ih =>
    rw [luaHSetstr_eq] at hset
    exact ih.1.set_holds hhash hdepth ih.2 (proper_of_set hset) hset hwrite
  | resizearray _ hsize hroom hresize ih =>
    have hyields := ih.1.elements.resizearray hhash (Nat.le_trans (by decide) hdepth) hsize
      ih.1.sound.live_le hroom
    rw [hresize] at hyields
    cases hyields with
    | ok hres => exact ⟨hres.inv, fun k w hk => (hres.has k w).trans (ih.2 k w hk)⟩

/-- No store gives a value to what is no key. -/
theorem Stores.improper {depth : Nat} {m : TValue N → TValue N} (h : Stores hash depth t m)
    {k : TValue N} (hk : ¬ Proper k) : m k = .nil := by
  have hstore : ∀ {m : TValue N → TValue N} {key v : TValue N}, Proper key → m k = .nil →
      store m key v k = .nil := by
    intro m key v hkey hm
    have hne : ¬ luaORawequalObj key k = true := fun heq => hk (rawequal_proper heq hkey.1).2
    rw [store, if_neg hne, hm]
  induction h with
  | new _ _ => rfl
  | set v _ hset _ ih => exact hstore (proper_of_set hset) ih
  | setnum v _ _ _ ih => exact hstore (proper_castNum _) ih
  | @setstr _ _ _ _ _ key v _ _ _ ih =>
    have hkey : Proper (.string key : TValue N) := ⟨by simp, by simp [luaORawequalObj]⟩
    exact hstore hkey ih
  | resizearray _ _ _ _ ih => exact ih

/-- A lookup gives the last value that was stored under the key. -/
theorem Stores.lookup_last (hhash : Consistent hash) {depth : Nat} (hdepth : 3 ≤ depth)
    {m : TValue N → TValue N} (h : Stores hash depth t m) (k : TValue N) :
    lookup hash t k = .ok (m k) := by
  by_cases hk : Proper k
  · obtain ⟨hinv, hholds⟩ := h.holds hhash hdepth
    obtain ⟨v, hv, hhas⟩ := hinv.lookup_spec hhash hk.1
    have heq : ∀ w, (w = v ∧ w ≠ .nil) ↔ (w = m k ∧ w ≠ .nil) := fun w =>
      (hhas w).symm.trans (hholds k w hk)
    rw [hv]
    by_cases hnil : v = .nil
    · by_contra hne
      have hm : m k ≠ .nil := by
        intro hm
        rw [hnil, hm] at hne
        exact hne rfl
      exact hm (((heq (m k)).mpr ⟨rfl, hm⟩).1.trans hnil)
    · rw [((heq v).mp ⟨rfl, hnil⟩).1]
  · rw [lookup, luaHGet_improper hk, h.improper hk]
    rfl

theorem Stores.congr {depth : Nat} {m : TValue N → TValue N} (h : Stores hash depth t m)
    {a b : TValue N} (hab : luaORawequalObj a b = true) : m a = m b := by
  have hstore : ∀ {m : TValue N → TValue N} (key v : TValue N), m a = m b →
      store m key v a = store m key v b := by
    intro m key v hm
    have hiff : luaORawequalObj key a = luaORawequalObj key b :=
      Bool.eq_iff_iff.mpr ⟨fun ha => rawequal_trans ha hab,
        fun hb => rawequal_trans hb (rawequal_symm hab)⟩
    rw [store, store, hiff, hm]
  induction h with
  | new _ _ => rfl
  | set v _ _ _ ih => exact hstore _ v ih
  | setnum v _ _ _ ih => exact hstore _ v ih
  | setstr v _ _ _ ih => exact hstore _ v ih
  | resizearray _ _ _ _ ih => exact ih

end Writes

/-- Tables are maps. Whatever has been stored, each of the searches gives the last value of its key, equal
keys have one value, and the next store comes to its place or finds the node vector too large. -/
theorem Stores.isMap [LawfulNumber N] {hash : TValue N → Nat} (hhash : Consistent hash) {depth : Nat}
    (hdepth : 3 ≤ depth) {t : Table N} {m : TValue N → TValue N} (h : Stores hash depth t m) :
    (∀ k, t.found (luaHGet hash t k) = .ok (m k)) ∧
    (∀ k : BitVec 32, t.found (luaHGetnum hash t k) = .ok (m (.number (castNum k)))) ∧
    (∀ s, t.found (luaHGetstr hash t s) = .ok (m (.string s))) ∧
    (∀ a b, luaORawequalObj a b = true → m a = m b) ∧
    ∀ key v, Proper key →
      Yields (fun r => ∃ t', r.2.write v r.1 = .ok t') (luaHSet hash depth t key) := by
  have hlast := h.lookup_last hhash hdepth
  refine ⟨hlast, fun k => ?_, fun s => hlast (.string s), fun a b => h.congr, fun key v hkey => ?_⟩
  · rw [luaHGetnum_eq]
    exact hlast (.number (castNum k))
  · refine ((h.holds hhash hdepth).1.luaHSet_placed hhash hkey hdepth).mono fun r hr => ?_
    obtain ⟨t', hwrite, -⟩ := hr.inv.write_kept hr.kept v
    exact ⟨t', hwrite⟩

instance : LawfulNumber Int where
  eq_symm h := by
    simp only [luaiNumeq, LuaNumber.eq, beq_iff_eq] at h ⊢
    exact h.symm
  eq_trans h h' := by
    simp only [luaiNumeq, LuaNumber.eq, beq_iff_eq] at h h' ⊢
    exact h.trans h'
  toInt_congr h := by
    simp only [luaiNumeq, LuaNumber.eq, beq_iff_eq] at h
    rw [h]
  toInt_castNum k := by
    simp only [castNum, LuaNumber.toInt, LuaNumber.ofInteger]
    rw [BitVec.toInt_signExtend_of_le (by decide), BitVec.ofInt_toInt]
  castNum_eq k := by
    simp only [luaiNumeq, LuaNumber.eq, beq_self_eq_true]

/-- A table of one element, in its array. -/
def oneElement : Table Int where
  array i := if i = 0 then .boolean true else if 0 ≤ i ∧ i < 1 then .nil else .nil
  allocated := 1
  sizearray := 1
  node _ := emptyNode
  isDummy := true
  lsizenode := 0
  lastfree := 0

theorem oneElement_stores : Stores (fun _ => 0) 3 oneElement
    (store (fun _ => .nil) (.number (castNum 1)) (.boolean true)) := by
  obtain ⟨t, hnew, hset, hwrite⟩ : ∃ t : Table Int, luaHNew 1 0 = .ok t ∧
      luaHSetnum (fun _ => 0) 3 t 1 = .ok (.array 0, t) ∧
      t.write (.boolean true) (.array 0) = .ok oneElement := ⟨_, rfl, rfl, rfl⟩
  exact .setnum _ (.new (by decide) hnew) hset hwrite

theorem Stores.isMap_oneElement :
    (∀ k, oneElement.found (luaHGet (fun _ => 0) oneElement k) =
      .ok (store (fun _ => .nil) (.number (castNum 1)) (.boolean true) k)) ∧
    (∀ k : BitVec 32, oneElement.found (luaHGetnum (fun _ => 0) oneElement k) =
      .ok (store (fun _ => .nil) (.number (castNum 1)) (.boolean true) (.number (castNum k)))) ∧
    (∀ s, oneElement.found (luaHGetstr (fun _ => 0) oneElement s) =
      .ok (store (fun _ => .nil) (.number (castNum 1)) (.boolean true) (.string s))) ∧
    (∀ a b : TValue Int, luaORawequalObj a b = true →
      store (fun _ => .nil) (.number (castNum 1)) (.boolean true) a =
        store (fun _ => .nil) (.number (castNum 1)) (.boolean true) b) ∧
    ∀ key v : TValue Int, Proper key → Yields (fun r => ∃ t', r.2.write v r.1 = .ok t')
      (luaHSet (fun _ => 0) 3 oneElement key) :=
  Stores.isMap (fun _ _ _ => rfl) (by decide) oneElement_stores

/-- An array that shrinks without room for its elements loses them: the rehash in the middle of `resize`
makes the array anew. -/
theorem resizearray_loses : ∃ t : Table Int,
    Stores (fun _ => 0) 3 oneElement
      (store (fun _ => .nil) (.number (castNum 1)) (.boolean true)) ∧
    luaHResizearray (fun _ => 0) 3 oneElement 0 = .ok t ∧
    t.found (luaHGetnum (fun _ => 0) t 1) = .error .undefined := by
  obtain ⟨t, hresize, hget⟩ : ∃ t, luaHResizearray (fun _ => 0) 3 oneElement 0 = .ok t ∧
      t.found (luaHGetnum (fun _ => 0) t 1) = .error .undefined := ⟨_, rfl, rfl⟩
  exact ⟨t, oneElement_stores, hresize, hget⟩

end UgmeeLua.Ltable

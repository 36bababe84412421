import UgmeeLua.Ltable.Dead

namespace UgmeeLua.Ltable

open Scatter Ltable.Table LawfulNumber

variable {N : Type}

namespace Aged

section Keys

variable {a : Aged N} {i : Nat} {k : TValue N}

theorem seen_keyAt : a.seen.keyAt i = some k ↔ a.table.keyAt i = some k ∧ a.dead i = none := by
  cases hd : a.dead i with
  | none => simp [keyAt, seen, hd]
  | some p => simp [keyAt, seen, hd, TValue.isNil]

theorem seen_nextAt (a : Aged N) : a.seen.nextAt = a.table.nextAt := by
  funext i
  cases hd : a.dead i with
  | none => simp [nextAt, seen, hd]
  | some p => simp [nextAt, seen, hd]

theorem seen_key (hd : a.dead i = none) : a.seen.node i = a.table.node i := by
  simp [seen, hd]

end Keys

variable [LuaNumber N]

/-- `findindex` comes to the node in the chain of the key. -/
def Located (hash : TValue N → Nat) (gcvalue : Gcvalue N) (a : Aged N) (key : TValue N) (i : Nat) :
    Prop :=
  find a.table.nextAt (a.isKey gcvalue key) a.table.sizenode (mainposition hash a.table key) = some i

/-- The invariant of tables with dead keys. -/
structure Valid (hash : TValue N → Nat) (gcvalue : Gcvalue N) (a : Aged N) : Prop where
  sound : Sound hash a.table
  dead : ∀ i p, a.dead i = some p → (a.table.node i).val = .nil ∧ (a.table.keyAt i).isSome
  located : ∀ i k, a.seen.keyAt i = some k → Located hash gcvalue a k i
  apart : gcvalue.Apart

section Search

variable {hash : TValue N → Nat} {gcvalue gcvalue' : Gcvalue N} {a : Aged N} {i : Nat}
  {k key : TValue N}

theorem isKey_alive (hd : a.dead i = none) :
    a.isKey gcvalue key i = luaORawequalObj (a.table.node i).key key := by
  simp only [isKey, hd]

theorem isKey_of_seen (h : a.seen.keyAt i = some k) :
    a.isKey gcvalue key i = luaORawequalObj k key := by
  obtain ⟨hk, hd⟩ := seen_keyAt.mp h
  rw [isKey_alive hd, (keyAt_eq_some.mp hk).1]

theorem seen_of_pair (h : Valid hash gcvalue a) {p : TValue N × TValue N}
    (hp : a.table.pairAt i = some p) : a.seen.keyAt i = some p.1 := by
  refine seen_keyAt.mpr ⟨h.sound.keyAt_of_pair hp, ?_⟩
  cases hd : a.dead i with
  | none => rfl
  | some q =>
    rw [pairAt_eq_none.mpr (h.dead i q hd).1] at hp
    cases hp

/-- An object is equal to itself only. -/
theorem eq_of_collectable {b : TValue N} (hb : iscollectable b = true)
    (h : luaORawequalObj k b = true) : k = b := by
  cases k <;> cases b <;> simp_all [luaORawequalObj, iscollectable]

theorem rawequal_self (hk : iscollectable k = true) : luaORawequalObj k k = true := by
  cases k <;> simp_all [luaORawequalObj, iscollectable]

theorem isKey_gcvalue (h : gcvalue' key = gcvalue key) : a.isKey gcvalue' key = a.isKey gcvalue key := by
  funext i
  unfold isKey
  rw [h]

/-- The searches do not see a key die. -/
theorem isKey_removeentry (h : gcvalue.Apart) (a : Aged N) (i : Nat) (key : TValue N) :
    (a.removeentry gcvalue i).isKey gcvalue key = a.isKey gcvalue key := by
  unfold removeentry
  cases hd : a.dead i with
  | some p => rfl
  | none =>
    dsimp only
    split_ifs with hcol
    · funext j
      by_cases hj : j = i
      · subst hj
        rw [isKey_alive hd]
        cases hp : gcvalue (a.table.node j).key with
        | none => simp only [isKey, if_true]
        | some p =>
          simp only [isKey, if_true]
          refine Bool.eq_iff_iff.mpr ⟨fun hdead => ?_, fun heq => ?_⟩
          · simp only [Bool.and_eq_true, decide_eq_true_eq] at hdead
            have hsame := h _ key p hcol hdead.1 hp hdead.2
            rw [hsame]
            exact rawequal_self hdead.1
          · have hkey : iscollectable key = true := by
              cases hk : (a.table.node j).key <;> cases key <;>
                simp_all [luaORawequalObj, iscollectable]
            rw [eq_of_collectable hkey heq] at hp
            simp [hkey, hp]
      · simp only [isKey, hj, if_false]
    · rfl

end Search

section Lookup

variable [LawfulNumber N] {hash : TValue N → Nat} {gcvalue : Gcvalue N} {a : Aged N} {i j : Nat}
  {k k' key : TValue N}

theorem isKey_congr (h : luaORawequalObj k key = true) :
    a.isKey gcvalue k = a.isKey gcvalue key := by
  funext i
  unfold isKey
  cases a.dead i with
  | none =>
    refine Bool.eq_iff_iff.mpr ⟨fun hi => rawequal_trans hi h, fun hi => ?_⟩
    exact rawequal_trans hi (rawequal_symm h)
  | some p =>
    have hcol : iscollectable k = iscollectable key := by
      cases k <;> cases key <;> simp_all [luaORawequalObj, iscollectable]
    cases hkey : iscollectable key with
    | false => simp [hcol, hkey]
    | true => simp only [eq_of_collectable hkey h, hkey]

theorem Located.congr (h : Located hash gcvalue a k i) (hhash : Consistent hash)
    (hk : luaORawequalObj k key = true) : Located hash gcvalue a key i := by
  rw [Located, ← isKey_congr hk, ← mainposition_congr hhash a.table hk]
  exact h

/-- Keys that are not dead are in one node only. -/
theorem Valid.keys (h : Valid hash gcvalue a) (hhash : Consistent hash)
    (hi : a.seen.keyAt i = some k) (hj : a.seen.keyAt j = some k')
    (hk : luaORawequalObj k k' = true) : i = j := by
  have hi' := (h.located i k hi).congr hhash hk
  exact Option.some.inj (hi'.symm.trans (h.located j k' hj))

theorem Valid.elements (h : Valid hash gcvalue a) (hhash : Consistent hash) : Elements a.table :=
  ⟨fun i p hp => h.sound.proper i p.1 (h.sound.keyAt_of_pair hp),
    fun i p hp => h.sound.ints i p.1 (h.sound.keyAt_of_pair hp),
    fun _ _ _ _ hp hq => h.keys hhash (seen_of_pair h hp) (seen_of_pair h hq), h.sound.memory,
    h.sound.sizearray⟩

/-- `luaH_get` finds a key where it is kept, past the dead keys. -/
theorem Valid.get_kept (h : Valid hash gcvalue a) (hhash : Consistent hash) (hkey : key ≠ .nil) :
    Kept a.seen key (luaHGet hash a.seen key) := by
  have hsize : a.seen.sizearray < 2 ^ 31 := h.sound.sizearray
  by_cases hin : index key < a.seen.sizearray
  · rw [luaHGet_array hsize hin]
    exact .array hin
  · have hout : a.seen.sizearray ≤ index key := Nat.le_of_not_lt hin
    by_cases hex : ∃ i k, a.seen.keyAt i = some k ∧ luaORawequalObj k key = true
    · obtain ⟨i, k, hi, hk⟩ := hex
      have hlocated := (h.located i k hi).congr hhash hk
      have hfind : find a.seen.nextAt (fun x => luaORawequalObj (a.seen.node x).key key)
          a.seen.sizenode (mainposition hash a.seen key) = some i := by
        rw [seen_nextAt]
        refine find_narrow hlocated ?_ fun x hx => ?_
        · rw [(keyAt_eq_some.mp hi).1]
          exact hk
        · cases hd : a.dead x with
          | none =>
            rw [seen_key hd] at hx
            rw [isKey_alive hd]
            exact hx
          | some p =>
            have hnil : (a.seen.node x).key = .nil := by simp [seen, hd]
            rw [hnil] at hx
            exact absurd ((rawequal_nil hx).mp rfl) hkey
      have hget : luaHGet hash a.seen key = some (.node i) := by
        rw [luaHGet_chain hhash hkey hout, luaHGetany, chainFind]
        exact congrArg (Option.map Slot.node) hfind
      rw [hget]
      exact .node hout hi hk
    · have hnone : ∀ i k, a.seen.keyAt i = some k → luaORawequalObj k key = false := by
        intro i k hi
        by_contra hne
        exact hex ⟨i, k, hi, Bool.not_eq_false _ ▸ hne⟩
      rw [luaHGet_none hhash hkey hout hnone]
      exact .none hout hnone

end Lookup

section Collector

variable {hash : TValue N → Nat} {gcvalue gcvalue' : Gcvalue N} {a a' : Aged N} {i : Nat}
  {cur key : TValue N}

omit [LuaNumber N] in
theorem removeentry_table (gcvalue : Gcvalue N) (a : Aged N) (i : Nat) :
    (a.removeentry gcvalue i).table = a.table := by
  unfold removeentry
  cases a.dead i with
  | some p => rfl
  | none =>
    dsimp only
    split_ifs <;> rfl

omit [LuaNumber N] in
/-- A dead key was dead, or its node has just been emptied. -/
theorem removeentry_dead {j p : Nat} (h : (a.removeentry gcvalue i).dead j = some p) :
    a.dead j = some p ∨ j = i ∧ iscollectable (a.table.node i).key = true := by
  unfold removeentry at h
  cases hd : a.dead i with
  | some q =>
    rw [hd] at h
    exact .inl h
  | none =>
    rw [hd] at h
    dsimp only at h
    split_ifs at h with hcol
    · dsimp only at h
      split_ifs at h with hj
      · exact .inr ⟨hj, hcol⟩
      · exact .inl h
    · exact .inl h

omit [LuaNumber N] in
theorem removeentry_alive {j : Nat} (h : (a.removeentry gcvalue i).dead j = none) :
    a.dead j = none := by
  unfold removeentry at h
  cases hd : a.dead i with
  | some q =>
    rw [hd] at h
    exact h
  | none =>
    rw [hd] at h
    dsimp only at h
    split_ifs at h with hcol
    · by_cases hj : j = i
      · rw [hj, hd]
      · simpa only [hj, if_false] using h
    · exact h

theorem Valid.removeentry (h : Valid hash gcvalue a) (hval : (a.table.node i).val = .nil) :
    Valid hash gcvalue (a.removeentry gcvalue i) := by
  have htable := removeentry_table gcvalue a i
  refine ⟨htable ▸ h.sound, fun j p hj => ?_, fun j k hj => ?_, h.apart⟩
  · rw [htable]
    rcases removeentry_dead hj with hj | ⟨rfl, hcol⟩
    · exact h.dead j p hj
    · refine ⟨hval, Option.isSome_iff_exists.mpr ⟨_, keyAt_eq_some.mpr ⟨rfl, ?_⟩⟩⟩
      intro hnil
      rw [hnil] at hcol
      cases hcol
  · obtain ⟨hk, hd⟩ := seen_keyAt.mp hj
    rw [htable] at hk
    have hlocated := h.located j k (seen_keyAt.mpr ⟨hk, removeentry_alive hd⟩)
    rw [Located, htable, isKey_removeentry h.apart]
    exact hlocated

theorem Valid.removeentries (h : Valid hash gcvalue a) {is : List Nat}
    (his : ∀ i ∈ is, (a.table.node i).val = .nil) :
    Valid hash gcvalue (is.foldl (Aged.removeentry gcvalue) a) ∧
      (is.foldl (Aged.removeentry gcvalue) a).table = a.table ∧
      ∀ key, (is.foldl (Aged.removeentry gcvalue) a).isKey gcvalue key = a.isKey gcvalue key := by
  induction is generalizing a with
  | nil => exact ⟨h, rfl, fun _ => rfl⟩
  | cons i is ih =>
    have htable := removeentry_table gcvalue a i
    have hfirst := h.removeentry (his i List.mem_cons_self)
    obtain ⟨hvalid, hrest, hkeys⟩ := ih hfirst fun j hj => by
      rw [htable]
      exact his j (List.mem_cons_of_mem i hj)
    refine ⟨hvalid, hrest.trans htable, fun key => ?_⟩
    rw [List.foldl_cons, hkeys, isKey_removeentry h.apart]

/-- The collector leaves a table as it was, and `findindex` comes to where it came. -/
theorem Valid.collects (h : Valid hash gcvalue a) (hc : Collects cur gcvalue a gcvalue' a') :
    Valid hash gcvalue' a' ∧ a'.table = a.table ∧
      ∀ i, Located hash gcvalue a cur i → Located hash gcvalue' a' cur i := by
  obtain ⟨is, his, heq⟩ := hc.entries
  obtain ⟨hvalid, htable, hkeys⟩ := h.removeentries his
  rw [← heq] at hvalid htable hkeys
  refine ⟨⟨hvalid.sound, hvalid.dead, fun i k hk => ?_, hc.apart⟩, htable, fun i hi => ?_⟩
  · rw [Located, isKey_gcvalue (hc.kept k (.inr ⟨i, hk⟩))]
    exact hvalid.located i k hk
  · rw [Located, isKey_gcvalue (hc.kept cur (.inl rfl)), hkeys, htable]
    exact hi

end Collector

section Stores

variable [LawfulNumber N] {hash : TValue N → Nat} {gcvalue : Gcvalue N} {a : Aged N}
  {t t' : Table N} {key : TValue N} {s : Slot} {v : TValue N}

omit [LawfulNumber N] in
/-- A table with no dead keys. -/
theorem valid_of_inv (h : Inv hash t) (hg : gcvalue.Apart) :
    Valid hash gcvalue ⟨t, fun _ => none⟩ := by
  refine ⟨h.sound, fun i p hp => (by cases hp), fun i k hk => ?_, hg⟩
  obtain ⟨hk, -⟩ := seen_keyAt.mp hk
  have hself : luaORawequalObj k k = true := (h.proper i k hk).2
  refine h.scattered.find_some hk ?_ fun x hx hxk => ?_
  · rw [isKey_alive rfl, (keyAt_eq_some.mp hk).1]
    exact hself
  · obtain ⟨k', hk'⟩ := Option.isSome_iff_exists.mp hx
    rw [isKey_alive rfl, (keyAt_eq_some.mp hk').1] at hxk
    exact h.keys x i k' k hk' hk hxk

/-- A table with other values under the keys it had. -/
structure Rewritten (t t' : Table N) : Prop where
  sizearray : t'.sizearray = t.sizearray
  lsizenode : t'.lsizenode = t.lsizenode
  key : ∀ i, (t'.node i).key = (t.node i).key
  next : ∀ i, (t'.node i).next = (t.node i).next

omit [LuaNumber N] [LawfulNumber N] in
theorem write_rewritten (h : t.write v s = .ok t') : Rewritten t t' := by
  cases s with
  | array i =>
    simp only [Table.write] at h
    split_ifs at h
    cases h
    exact ⟨rfl, rfl, fun _ => rfl, fun _ => rfl⟩
  | node i =>
    cases h
    refine ⟨rfl, rfl, fun j => ?_, fun j => ?_⟩
    · by_cases hj : j = i
      · simp only [setNode, hj, if_true]
      · simp only [setNode, hj, if_false]
    · by_cases hj : j = i
      · simp only [setNode, hj, if_true]
      · simp only [setNode, hj, if_false]

omit [LuaNumber N] [LawfulNumber N] in
theorem Rewritten.keyAt (h : Rewritten t t') : t'.keyAt = t.keyAt := by
  funext i
  simp only [Table.keyAt, h.key]

omit [LawfulNumber N] in
/-- `findindex` comes to where it came. -/
theorem Rewritten.located (h : Rewritten a.table t) {k : TValue N} {i : Nat} :
    Located hash gcvalue ⟨t, a.dead⟩ k i ↔ Located hash gcvalue a k i := by
  have hsize : t.sizenode = a.table.sizenode := congrArg (2 ^ ·) h.lsizenode
  have hnext : t.nextAt = a.table.nextAt := by
    funext i
    exact h.next i
  have hisKey : (⟨t, a.dead⟩ : Aged N).isKey gcvalue k = a.isKey gcvalue k := by
    funext j
    simp only [isKey, h.key]
  have hmain : mainposition hash t k = mainposition hash a.table k := by
    simp only [mainposition, hsize]
  simp only [Located, hsize, hnext, hisKey, hmain]

omit [LawfulNumber N] in
/-- A value comes to the place of a key. -/
theorem Valid.write (h : Valid hash gcvalue a) (hkept : Kept a.seen key (some s))
    (hwrite : a.table.write v s = .ok t') : Valid hash gcvalue ⟨t', a.dead⟩ := by
  have hrewritten := write_rewritten hwrite
  have hlocated : ∀ i k, (⟨t', a.dead⟩ : Aged N).seen.keyAt i = some k →
      Located hash gcvalue ⟨t', a.dead⟩ k i := by
    intro i k hi
    obtain ⟨hi, hd⟩ := seen_keyAt.mp hi
    rw [hrewritten.keyAt] at hi
    exact hrewritten.located.mpr (h.located i k (seen_keyAt.mpr ⟨hi, hd⟩))
  cases hkept with
  | array hin =>
    simp only [Table.write] at hwrite
    split_ifs at hwrite
    cases hwrite
    exact ⟨h.sound.write_array _, h.dead, hlocated, h.apart⟩
  | @node i k hout hi hk =>
    cases hwrite
    obtain ⟨hi, hd⟩ := seen_keyAt.mp hi
    refine ⟨h.sound.write_node hi v, fun j p hj => ?_, hlocated, h.apart⟩
    have hji : j ≠ i := by
      rintro rfl
      rw [hd] at hj
      cases hj
    have hsame : (a.table.setNode i { a.table.node i with val := v }).node j = a.table.node j :=
      if_neg hji
    rw [hrewritten.keyAt, hsame]
    exact h.dead j p hj

/-- A key comes to a node. -/
theorem Valid.fitted (h : Valid hash gcvalue a) (hkey : Proper key)
    (hnone : ∀ j k, a.seen.keyAt j = some k → luaORawequalObj k key = false) {i : Nat}
    {origin : Nat → Nat} (hfit : Fitted hash a.table t' key i origin) {dead : Nat → Option Nat}
    (hdead : ∀ j, dead j = if j = i then none else a.dead j) :
    Valid hash gcvalue ⟨t', dead⟩ := by
  have hr := hfit.refilled
  have hself := hr.keyAt_self hkey.1
  have hdi : dead i = none := by rw [hdead, if_pos rfl]
  have hdj : ∀ j, j ≠ i → dead j = a.dead (origin j) := by
    intro j hj
    rw [hdead, if_neg hj]
    rcases hfit.moved j hj with heq | ⟨hfree, hpair⟩
    · rw [heq]
    · obtain ⟨p, hp⟩ := Option.isSome_iff_exists.mp hpair
      rw [(seen_keyAt.mp (seen_of_pair h hp)).2]
      cases hd : a.dead j with
      | none => rfl
      | some q =>
        have hsome := (h.dead j q hd).2
        rw [hfree] at hsome
        cases hsome
  have hisKey : ∀ k j, j ≠ i →
      (⟨t', dead⟩ : Aged N).isKey gcvalue k j = a.isKey gcvalue k (origin j) := by
    intro k j hj
    simp only [isKey, hdj j hj, (hr.cells j hj).1]
  have hnew : ∀ k, (⟨t', dead⟩ : Aged N).isKey gcvalue k i = luaORawequalObj key k := by
    intro k
    simp only [isKey, hdi, hr.key]
  refine ⟨hfit.sound, fun j p hj => ?_, fun j k hj => ?_, h.apart⟩
  · have hj : dead j = some p := hj
    have hji : j ≠ i := by
      rintro rfl
      rw [hdi] at hj
      cases hj
    rw [hdj j hji] at hj
    have hgone := h.dead _ p hj
    rw [← (hr.cells j hji).2, ← hr.keyAt hji] at hgone
    exact hgone
  · obtain ⟨hj, hd⟩ := seen_keyAt.mp hj
    have hd : dead j = none := hd
    have hj : t'.keyAt j = some k := hj
    rcases hr.keyAt_cases hkey.1 hj with ⟨rfl, rfl⟩ | ⟨hji, hold⟩
    · refine hfit.self _ ?_ fun j' hj' => ?_
      · rw [hnew]
        exact hkey.2
      · have hji' : j' ≠ j := by
          rintro rfl
          rw [pairAt_eq_none.mpr hr.val] at hj'
          cases hj'
        obtain ⟨p, hp⟩ := Option.isSome_iff_exists.mp hj'
        rw [hr.pairAt hji'] at hp
        have hseen := seen_of_pair h hp
        rw [hisKey k j' hji', isKey_of_seen hseen]
        exact hnone _ _ hseen
    · have hseen : a.seen.keyAt (origin j) = some k :=
        seen_keyAt.mpr ⟨hold, by rw [← hdj j hji, hd]⟩
      have hproper : Proper k := h.sound.proper _ k hold
      refine hfit.finds _ _ (hisKey k) ?_ j k hji hj ?_ (h.located _ k hseen)
      · rw [hnew]
        by_contra hne
        rw [Bool.not_eq_false] at hne
        have hsym := rawequal_symm hne
        rw [hnone _ k hseen] at hsym
        cases hsym
      · rw [hisKey k j hji, isKey_of_seen hseen]
        exact hproper.2

end Stores

end Aged

end UgmeeLua.Ltable

import UgmeeLua.Lib.Loop
import UgmeeLua.Ltable.Insert

namespace UgmeeLua.Ltable

open Scatter Ltable.Table LawfulNumber

variable {N : Type}

/-- What comes of an operation that may find the node vector too large. -/
inductive Yields {α : Type} (P : α → Prop) : Except Failure α → Prop
  | ok {a : α} (h : P a) : Yields P (.ok a)
  | overflow : Yields P (.error (.raised "table overflow"))

/-- The rule of sequences. -/
theorem Yields.bind {α β : Type} {P : α → Prop} {Q : β → Prop} {r : Except Failure α}
    {f : α → Except Failure β} (h : Yields P r) (hf : ∀ a, P a → Yields Q (f a)) :
    Yields Q (r >>= f) := by
  cases h with
  | ok h => exact hf _ h
  | overflow => exact .overflow

theorem Yields.mono {α : Type} {P Q : α → Prop} {r : Except Failure α} (h : Yields P r)
    (himp : ∀ a, P a → Q a) : Yields Q r := by
  cases h with
  | ok h => exact .ok (himp _ h)
  | overflow => exact .overflow

theorem keyAt_setVal (t : Table N) (i : Nat) (v : TValue N) :
    (t.setNode i { t.node i with val := v }).keyAt = t.keyAt ∧
      (t.setNode i { t.node i with val := v }).nextAt = t.nextAt := by
  constructor
  · funext j
    by_cases hj : j = i
    · simp only [keyAt, setNode, hj, if_true]
    · simp only [keyAt, setNode, hj, if_false]
  · funext j
    by_cases hj : j = i
    · simp only [nextAt, setNode, hj, if_true]
    · simp only [nextAt, setNode, hj, if_false]

theorem pairAt_setVal (t : Table N) (i : Nat) (v : TValue N) :
    (t.setNode i { t.node i with val := v }).pairAt i =
      if v.isNil then none else some ((t.node i).key, v) := by
  simp only [pairAt, setNode, if_true]

theorem pairAt_setVal_other (t : Table N) {i j : Nat} (v : TValue N) (hj : j ≠ i) :
    (t.setNode i { t.node i with val := v }).pairAt j = t.pairAt j := by
  simp only [pairAt, setNode, hj, if_false]

variable [LuaNumber N]

/-- The number of nodes that there is memory for. -/
def capacity (t : Table N) : Nat := if t.isDummy then 0 else t.sizenode

/-- The table has one more value, under a key that had none. -/
structure Added (hash : TValue N → Nat) (t t' : Table N) (key v : TValue N) : Prop where
  inv : Inv hash t'
  packed : Packed t'
  sizearray : t'.sizearray = t.sizearray
  allocated : t'.allocated = t.allocated
  array : ∀ i, i ≠ index key ∨ t.sizearray ≤ i → t'.array i = t.array i
  live : t'.live.Perm (if index key < t.sizearray then t.live else (key, v) :: t.live)
  has : ∀ k w, Has t' k w ↔ Has t k w ∨ (luaORawequalObj key k = true ∧ v = w)

section Content

variable {hash : TValue N → Nat} {t t' : Table N} {key v : TValue N} {i : Nat}

theorem has_live (hv : v ≠ .nil) (hsize : t'.sizearray = t.sizearray) (harray : t'.array = t.array)
    (hlive : t'.live.Perm ((key, v) :: t.live)) (k w : TValue N) :
    Has t' k w ↔ Has t k w ∨ (luaORawequalObj key k = true ∧ v = w) := by
  simp only [Has, hsize, harray, hlive.mem_iff, List.mem_cons]
  constructor
  · intro h
    obtain ⟨hw, hin | ⟨p, hp | hp, hpk, hpw⟩⟩ := h
    · exact .inl ⟨hw, .inl hin⟩
    · rw [hp] at hpk hpw
      exact .inr ⟨hpk, hpw⟩
    · exact .inl ⟨hw, .inr ⟨p, hp, hpk, hpw⟩⟩
  · intro h
    obtain ⟨hw, hin | ⟨p, hp, hpk, hpw⟩⟩ | ⟨hk, hvw⟩ := h
    · exact ⟨hw, .inl hin⟩
    · exact ⟨hw, .inr ⟨p, .inr hp, hpk, hpw⟩⟩
    · exact ⟨hvw ▸ hv, .inr ⟨(key, v), .inl rfl, hk, hvw⟩⟩

theorem Sound.write_array (h : Sound hash t) (array : Nat → TValue N) :
    Sound hash { t with array := array } :=
  ⟨h.scattered, h.dummy, h.free, h.proper, h.ints, h.lastfree, h.lastfree_le, h.memory, h.sizearray⟩

theorem Inv.write_array (h : Inv hash t) (array : Nat → TValue N) :
    Inv hash { t with array := array } :=
  (h.sound.write_array array).inv h.keys

theorem Sound.write_node (h : Sound hash t) {k : TValue N} (hi : t.keyAt i = some k) (v : TValue N) :
    Sound hash (t.setNode i { t.node i with val := v }) := by
  obtain ⟨hkeys, hnexts⟩ := keyAt_setVal t i v
  have hsc : Scattered t.sizenode (mainposition hash t)
      (t.setNode i { t.node i with val := v }).keyAt
      (t.setNode i { t.node i with val := v }).nextAt := by
    rw [hkeys, hnexts]
    exact h.scattered
  refine ⟨hsc, ?_, ?_, ?_, ?_, ?_, h.lastfree_le, h.memory, h.sizearray⟩
  · rw [hkeys]
    exact h.dummy
  · rw [hkeys]
    intro j hj
    have hji : j ≠ i := by
      rintro rfl
      rw [hi] at hj
      cases hj
    have hnode : (t.setNode i { t.node i with val := v }).node j = t.node j := if_neg hji
    rw [hnode]
    exact h.free j hj
  · rw [hkeys]
    exact h.proper
  · rw [hkeys]
    exact h.ints
  · rw [hkeys]
    exact h.lastfree

theorem Inv.write_node (h : Inv hash t) {k : TValue N} (hi : t.keyAt i = some k) (v : TValue N) :
    Inv hash (t.setNode i { t.node i with val := v }) := by
  refine (h.sound.write_node hi v).inv ?_
  rw [(keyAt_setVal t i v).1]
  exact h.keys

omit [LuaNumber N] in
theorem isNil_eq_false (hv : v ≠ .nil) : v.isNil = false := by
  rw [← Bool.not_eq_true, TValue.isNil_iff]
  exact hv

/-- The value that comes to a new key. -/
theorem Inserted.added (h : Inserted hash t t' key i) (hpacked : Packed t) (hv : v ≠ .nil)
    (hout : t.sizearray ≤ index key) :
    Added hash t (t'.setNode i { t'.node i with val := v }) key v := by
  have hpair : (t'.setNode i { t'.node i with val := v }).pairAt i = some (key, v) := by
    rw [pairAt_setVal, isNil_eq_false hv, (keyAt_eq_some.mp h.key).1]
    rfl
  have hlive : (t'.setNode i { t'.node i with val := v }).live.Perm ((key, v) :: t.live) := by
    obtain ⟨rest, hold, hnew⟩ := contents_split (f := t'.pairAt)
      (g := (t'.setNode i { t'.node i with val := v }).pairAt) (h.inv.scattered.lt h.key)
      fun j hj => pairAt_setVal_other t' v hj
    rw [pairAt_eq_none.mpr h.val] at hold
    rw [hpair] at hnew
    exact hnew.trans ((hold.symm.trans h.live).cons (key, v))
  refine ⟨h.inv.write_node h.key v, fun j hj => ?_, h.same.sizearray, h.same.allocated,
    fun j _ => congrFun h.same.array j, ?_, has_live hv h.same.sizearray h.same.array hlive⟩
  · by_cases hji : j = i
    · rw [hji, hpair]
      rfl
    · rw [(keyAt_setVal t' i v).1] at hj
      rw [pairAt_setVal_other t' v hji]
      exact h.packed hpacked j hji hj
  · rw [if_neg (Nat.not_lt.mpr hout)]
    exact hlive

variable [LawfulNumber N]

theorem Inv.has_array (h : Inv hash t) (hin : index key < t.sizearray)
    (hnone : ∀ w, ¬ Has t key w) (hv : v ≠ .nil) (k w : TValue N) :
    Has { t with array := fun j => if j = index key then v else t.array j } k w ↔
      Has t k w ∨ (luaORawequalObj key k = true ∧ v = w) := by
  have hsize : index key < 2 ^ 31 := Nat.lt_trans hin h.sizearray
  constructor
  · intro hw
    obtain ⟨hne, ⟨hk, hval⟩ | hlive⟩ := hw
    · by_cases hidx : index k = index key
      · simp only [hidx, if_true] at hval
        exact .inr ⟨rawequal_of_index hsize hidx, hval⟩
      · simp only [hidx, if_false] at hval
        exact .inl ⟨hne, .inl ⟨hk, hval⟩⟩
    · exact .inl ⟨hne, .inr hlive⟩
  · intro hw
    rcases hw with ⟨hne, ⟨hk, hval⟩ | hlive⟩ | ⟨hk, hval⟩
    · by_cases hidx : index k = index key
      · rw [hidx] at hval
        exact absurd ⟨hne, .inl ⟨hin, hval⟩⟩ (hnone w)
      · refine ⟨hne, .inl ⟨hk, ?_⟩⟩
        simp only [hidx, if_false]
        exact hval
    · exact ⟨hne, .inr hlive⟩
    · have hidx : index k = index key := by rw [index, index, arrayindex_congr hk]
      refine ⟨hval ▸ hv, .inl ⟨by rw [hidx]; exact hin, ?_⟩⟩
      simp only [hidx, if_true]
      exact hval

/-- `luaH_set` and the store after it, for a key that has its place in the array. -/
theorem Inv.set_array (h : Inv hash t) (hpacked : Packed t) (hin : index key < t.sizearray)
    (hnone : ∀ w, ¬ Has t key w) (hv : v ≠ .nil) (newkey : Newkey N) :
    ∃ t', setWith hash newkey t key = .ok (.array (index key), t) ∧
      t.write v (.array (index key)) = .ok t' ∧ Added hash t t' key v := by
  have hget : luaHGet hash t key = some (.array (index key)) := luaHGet_array h.sizearray hin
  have hroom : index key < t.allocated := Nat.lt_of_lt_of_le hin h.memory
  refine ⟨_, by simp only [setWith, hget], if_pos hroom, h.write_array _, hpacked, rfl, rfl,
    fun j hj => ?_, ?_, h.has_array hin hnone hv⟩
  · have hne : j ≠ index key := by omega
    exact if_neg hne
  · rw [if_pos hin]
    exact .refl _

omit [LawfulNumber N] in
/-- A key that has no value is in no node. -/
theorem fresh_of_none (hpacked : Packed t) (hinv : Inv hash t) (hkey : Proper key)
    (hout : t.sizearray ≤ index key) (hnone : ∀ w, ¬ Has t key w) : Fresh t key := by
  refine ⟨hkey, hout, fun i k hi => ?_⟩
  by_contra hk
  have hsome := hpacked i (by rw [hi]; rfl)
  obtain ⟨p, hp⟩ := Option.isSome_iff_exists.mp hsome
  have hkp := hinv.keyAt_of_pair hp
  rw [hi] at hkp
  cases hkp
  exact hnone p.2 ⟨(pairAt_eq_some.mp hp).2.2, .inr ⟨p, mem_contents.mpr ⟨i, hinv.scattered.lt hi, hp⟩,
    Bool.not_eq_false _ ▸ hk, rfl⟩⟩

omit [LawfulNumber N] in
/-- While some node has no value there is a place for any key. -/
theorem Inv.hasPlace (h : Inv hash t) (hpacked : Packed t) (hroom : t.live.length < capacity t) :
    HasPlace hash t key := by
  have hdummy : t.isDummy = false := by
    by_contra hd
    rw [Bool.not_eq_false] at hd
    simp only [capacity, hd, if_true] at hroom
    exact Nat.not_lt_zero _ hroom
  simp only [capacity, hdummy, Bool.false_eq_true, if_false] at hroom
  refine ⟨hdummy, .inr ?_⟩
  rcases getfreepos_spec t t.lastfree with ⟨n, -, hfree, -⟩ | ⟨-, hused⟩
  · exact ⟨n, by rw [hfree]⟩
  · have hfull : t.live.length = t.sizenode := by
      refine contents_length_of_full fun i hi => hpacked i ?_
      by_cases hil : i < t.lastfree
      · exact hused i hil
      · exact h.lastfree hdummy i (Nat.le_of_not_lt hil) hi
    omega

omit [LawfulNumber N] in
theorem setWith_none (newkey : Newkey N) (hkey : Proper key) (hget : luaHGet hash t key = none) :
    setWith hash newkey t key = newkey t key := by
  simp only [setWith, hget]
  cases key with
  | nil => exact absurd rfl hkey.1
  | number n =>
    have hn : luaiNumisnan n = false := by
      have heq : luaiNumeq n n = true := hkey.2
      simp only [luaiNumisnan, heq, Bool.not_true]
    simp only [hn, Bool.false_eq_true, if_false]
  | _ => rfl

theorem get_of_fresh (hfresh : Fresh t key) (hhash : Consistent hash) :
    luaHGet hash t key = none :=
  luaHGet_none hhash hfresh.proper.1 hfresh.out hfresh.none

/-- `luaH_set` and the store after it, for a key that has its place in the node vector. -/
theorem Inv.set_node (h : Inv hash t) (hhash : Consistent hash) (hpacked : Packed t)
    (hfresh : Fresh t key) (hplace : HasPlace hash t key) (hv : v ≠ .nil) (newkey : Newkey N) :
    ∃ i t1, setWith hash (newkeyStep hash newkey) t key = .ok (.node i, t1) ∧
      SameParts t t1 ∧
      Added hash t (t1.setNode i { t1.node i with val := v }) key v := by
  obtain ⟨i, t1, hnew, hins⟩ := h.newkey_inserted hfresh hplace newkey
  refine ⟨i, t1, ?_, hins.same, hins.added hpacked hv hfresh.out⟩
  rw [setWith_none _ hfresh.proper (get_of_fresh hfresh hhash), hnew]

end Content

/-- Values that come into a table one after the other. -/
inductive AddedAll (hash : TValue N → Nat) :
    List (TValue N × TValue N) → Table N → Table N → Prop
  | nil {t : Table N} : AddedAll hash [] t t
  | cons {p : TValue N × TValue N} {ps : List (TValue N × TValue N)} {t t1 t2 : Table N}
      (h : Added hash t t1 p.1 p.2) (hs : AddedAll hash ps t1 t2) : AddedAll hash (p :: ps) t t2

/-- Keys that a table has no value for, with their values. -/
structure Pending (t : Table N) (ps : List (TValue N × TValue N)) : Prop where
  proper : ∀ p ∈ ps, Proper p.1 ∧ p.2 ≠ .nil
  apart : ps.Pairwise fun p q => luaORawequalObj p.1 q.1 = false
  absent : ∀ p ∈ ps, ∀ w, ¬ Has t p.1 w

/-- The keys that are none for an array of a size. -/
def beyond (size : Nat) (p : TValue N × TValue N) : Bool := size ≤ index p.1

section Sequences

variable {hash : TValue N → Nat} {t t' : Table N} {p : TValue N × TValue N}
  {ps : List (TValue N × TValue N)}

theorem AddedAll.inv (h : AddedAll hash ps t t') (hi : Inv hash t) (hp : Packed t) :
    Inv hash t' ∧ Packed t' := by
  induction h with
  | nil => exact ⟨hi, hp⟩
  | cons h _ ih => exact ih h.inv h.packed

theorem AddedAll.sizes (h : AddedAll hash ps t t') :
    t'.sizearray = t.sizearray ∧ t'.allocated = t.allocated := by
  induction h with
  | nil => exact ⟨rfl, rfl⟩
  | cons h _ ih => exact ⟨ih.1.trans h.sizearray, ih.2.trans h.allocated⟩

theorem AddedAll.has (h : AddedAll hash ps t t') (k w : TValue N) :
    Has t' k w ↔ Has t k w ∨ ∃ p ∈ ps, luaORawequalObj p.1 k = true ∧ p.2 = w := by
  induction h with
  | nil => simp
  | cons h _ ih =>
    rw [ih, h.has]
    simp only [List.mem_cons, exists_eq_or_imp, or_assoc]

theorem AddedAll.live (h : AddedAll hash ps t t') :
    t'.live.Perm (ps.filter (beyond t.sizearray) ++ t.live) := by
  induction h with
  | nil => exact .refl _
  | @cons p ps t t1 t2 h _ ih =>
    have hlive := h.live
    rw [h.sizearray] at ih
    by_cases hin : index p.1 < t.sizearray
    · have hnot : beyond t.sizearray p = false := decide_eq_false (Nat.not_le.mpr hin)
      rw [if_pos hin] at hlive
      rw [List.filter_cons_of_neg (by rw [hnot]; exact Bool.false_ne_true)]
      exact ih.trans (hlive.append_left _)
    · have hout : beyond t.sizearray p = true := decide_eq_true (Nat.le_of_not_lt hin)
      rw [if_neg hin] at hlive
      rw [List.filter_cons_of_pos hout]
      exact (ih.trans (hlive.append_left _)).trans List.perm_middle

/-- In the array only the places of the new keys change. -/
theorem AddedAll.array (h : AddedAll hash ps t t') {i : Nat}
    (hi : t.sizearray ≤ i ∨ ∀ p ∈ ps, i ≠ index p.1) : t'.array i = t.array i := by
  induction h with
  | nil => rfl
  | @cons p ps t t1 t2 h _ ih =>
    have hrest : t1.sizearray ≤ i ∨ ∀ q ∈ ps, i ≠ index q.1 := by
      rw [h.sizearray]
      exact hi.imp_right fun hi q hq => hi q (List.mem_cons_of_mem _ hq)
    rw [ih hrest]
    refine h.array i ?_
    rcases hi with hi | hi
    · exact .inr hi
    · exact .inl (hi p List.mem_cons_self)

theorem Pending.step {t1 : Table N} (h : Pending t (p :: ps)) (hadd : Added hash t t1 p.1 p.2) :
    Pending t1 ps := by
  obtain ⟨hapart, hrest⟩ := List.pairwise_cons.mp h.apart
  refine ⟨fun q hq => h.proper q (List.mem_cons_of_mem _ hq), hrest, fun q hq w hw => ?_⟩
  rcases (hadd.has q.1 w).mp hw with hw | ⟨hk, -⟩
  · exact h.absent q (List.mem_cons_of_mem _ hq) w hw
  · rw [hapart q hq] at hk
    cases hk

/-- What a store of the next value leads to, in a loop with the invariant `Q`. -/
structure Accepted (hash : TValue N → Nat) (Q : Table N → List (TValue N × TValue N) → Prop)
    (t : Table N) (p : TValue N × TValue N) (ps : List (TValue N × TValue N))
    (r : Slot × Table N) : Prop where
  allocated : r.2.allocated = t.allocated
  array : ∀ i, t.sizearray ≤ i → r.2.array i = t.array i
  write : ∃ t', r.2.write p.2 r.1 = .ok t' ∧ Added hash t t' p.1 p.2 ∧ Q t' ps

/-- Stores keep an invariant of what there is and what is still to come. -/
def Accepts (hash : TValue N → Nat) (newkey : Newkey N)
    (Q : Table N → List (TValue N × TValue N) → Prop) : Prop :=
  ∀ t p ps, Q t (p :: ps) → Yields (Accepted hash Q t p ps) (setWith hash newkey t p.1)

variable {newkey : Newkey N} {Q : Table N → List (TValue N × TValue N) → Prop}

theorem reinsertNodes_added (hQ : Accepts hash newkey Q) (told : Table N) (is : List Nat)
    (t : Table N) (h : Q t (is.filterMap told.pairAt)) :
    Yields (fun t' => AddedAll hash (is.filterMap told.pairAt) t t' ∧ Q t' [])
      (reinsertNodes hash newkey told.node is t) := by
  induction is generalizing t with
  | nil => exact .ok ⟨.nil, h⟩
  | cons i is ih =>
    cases hp : told.pairAt i with
    | none =>
      have hnil : (told.node i).val.isNil = true :=
        (TValue.isNil_iff _).mpr (pairAt_eq_none.mp hp)
      rw [List.filterMap_cons_none hp] at h ⊢
      rw [reinsertNodes, if_pos hnil]
      exact ih t h
    | some p =>
      obtain ⟨hkey, hval, hne⟩ := pairAt_eq_some.mp hp
      rw [List.filterMap_cons_some hp] at h ⊢
      rw [reinsertNodes, hval, isNil_eq_false hne, hkey]
      refine (hQ t p _ h).bind fun r hr => ?_
      obtain ⟨t1, hwrite, hadd, hrest⟩ := hr.write
      dsimp only
      rw [hwrite, Loop.ok_bind]
      exact (ih t1 hrest).mono fun t' h' => ⟨.cons hadd h'.1, h'.2⟩

/-- An element of the array with its key. -/
def arrayPair (array : Nat → TValue N) (i : Nat) : Option (TValue N × TValue N) :=
  if (array i).isNil then none
  else some (.number (castNum (BitVec.ofNat 32 (i + 1))), array i)

variable [LawfulNumber N]

theorem setnumWith_eq (newkey : Newkey N) (t : Table N) (k : BitVec 32) :
    setnumWith hash newkey t k = setWith hash newkey t (.number (castNum k)) := by
  have hn : luaiNumisnan (castNum k : N) = false := by
    simp only [luaiNumisnan, castNum_eq, Bool.not_true]
  simp only [setnumWith, setWith, luaHGetnum_eq, hn, Bool.false_eq_true, if_false]

theorem reinsertArray_added (hQ : Accepts hash newkey Q) (array : Nat → TValue N) (is : List Nat)
    (t : Table N) (his : ∀ i ∈ is, t.sizearray ≤ i ∧ i < t.allocated ∧ t.array i = array i)
    (h : Q t (is.filterMap (arrayPair array))) :
    Yields (fun t' => AddedAll hash (is.filterMap (arrayPair array)) t t' ∧ Q t' [])
      (reinsertArray hash newkey is t) := by
  induction is generalizing t with
  | nil => exact .ok ⟨.nil, h⟩
  | cons i is ih =>
    obtain ⟨hsize, hroom, hval⟩ := his i List.mem_cons_self
    have hread : t.read (.array i) = .ok (array i) := by
      rw [← hval]
      exact if_pos hroom
    have hrest : ∀ j ∈ is, t.sizearray ≤ j ∧ j < t.allocated ∧ t.array j = array j :=
      fun j hj => his j (List.mem_cons_of_mem _ hj)
    rw [reinsertArray, hread, Loop.ok_bind]
    by_cases hnil : (array i).isNil = true
    · have hp : arrayPair array i = none := if_pos hnil
      rw [List.filterMap_cons_none hp] at h ⊢
      rw [if_pos hnil]
      exact ih t hrest h
    · have hp : arrayPair array i =
          some (.number (castNum (BitVec.ofNat 32 (i + 1))), array i) := if_neg hnil
      rw [List.filterMap_cons_some hp] at h ⊢
      rw [if_neg hnil, setnumWith_eq]
      refine (hQ t _ _ h).bind fun r hr => ?_
      obtain ⟨t1, hwrite, hadd, hnext⟩ := hr.write
      have hread' : r.2.read (.array i) = .ok (array i) := by
        have hroom' : i < r.2.allocated := by rw [hr.allocated]; exact hroom
        rw [← hval, ← hr.array i hsize]
        exact if_pos hroom'
      have hrest' : ∀ j ∈ is, t1.sizearray ≤ j ∧ j < t1.allocated ∧ t1.array j = array j := by
        intro j hj
        obtain ⟨hj1, hj2, hj3⟩ := hrest j hj
        rw [hadd.sizearray, hadd.allocated, hadd.array j (.inr hj1)]
        exact ⟨hj1, hj2, hj3⟩
      dsimp only
      rw [hread', Loop.ok_bind, hwrite, Loop.ok_bind]
      exact (ih t1 hrest' hnext).mono fun t' h' => ⟨.cons hadd h'.1, h'.2⟩

/-- The invariant of the loops where there is room for what is still to come, in a node vector of a size
at least. -/
structure Room (hash : TValue N → Nat) (size : Nat) (t : Table N)
    (ps : List (TValue N × TValue N)) : Prop where
  inv : Inv hash t
  packed : Packed t
  pending : Pending t ps
  room : t.live.length + (ps.filter (beyond t.sizearray)).length ≤ capacity t
  size : size ≤ capacity t

omit [LuaNumber N] [LawfulNumber N] in
theorem SameParts.capacity (h : SameParts t t') : capacity t' = capacity t := by
  simp only [Ltable.capacity, h.isDummy, sizenode, h.lsizenode]

theorem accepts_room (hhash : Consistent hash) (newkey : Newkey N) (size : Nat) :
    Accepts hash (newkeyStep hash newkey) (Room hash size) := by
  intro t p ps h
  obtain ⟨hkey, hv⟩ := h.pending.proper p List.mem_cons_self
  have hnone := h.pending.absent p List.mem_cons_self
  have hroom := h.room
  by_cases hin : index p.1 < t.sizearray
  · have hnot : beyond t.sizearray p = false := decide_eq_false (Nat.not_le.mpr hin)
    rw [List.filter_cons_of_neg (by rw [hnot]; exact Bool.false_ne_true)] at hroom
    obtain ⟨t', hset, hwrite, hadd⟩ := h.inv.set_array h.packed hin hnone hv (newkeyStep hash newkey)
    rw [hset]
    have hsame : capacity t' = capacity t := by
      have hw := hwrite
      have hin' : index p.1 < t.allocated := Nat.lt_of_lt_of_le hin h.inv.memory
      simp only [Table.write, hin', if_true] at hw
      cases hw
      rfl
    have hlive := hadd.live
    rw [if_pos hin] at hlive
    refine .ok ⟨rfl, fun i _ => rfl, t', hwrite, hadd, hadd.inv, hadd.packed,
      h.pending.step hadd, ?_, hsame ▸ h.size⟩
    rw [hsame, hadd.sizearray, hlive.length_eq]
    exact hroom
  · have hout : t.sizearray ≤ index p.1 := Nat.le_of_not_lt hin
    have hbeyond : beyond t.sizearray p = true := decide_eq_true hout
    rw [List.filter_cons_of_pos hbeyond, List.length_cons] at hroom
    have hfresh := fresh_of_none h.packed h.inv hkey hout hnone
    have hplace : HasPlace hash t p.1 := h.inv.hasPlace h.packed (by omega)
    obtain ⟨i, t1, hset, hparts, hadd⟩ := h.inv.set_node hhash h.packed hfresh hplace hv newkey
    rw [hset]
    have hlive := hadd.live
    rw [if_neg hin] at hlive
    have hcap : capacity (t1.setNode i { t1.node i with val := p.2 }) = capacity t := hparts.capacity
    refine .ok ⟨hparts.allocated, fun j _ => congrFun hparts.array j, _, rfl, hadd, hadd.inv,
      hadd.packed, h.pending.step hadd, ?_, hcap ▸ h.size⟩
    rw [hcap, hadd.sizearray, hlive.length_eq, List.length_cons]
    omega

end Sequences

end UgmeeLua.Ltable

import UgmeeLua.Ltable.Table

namespace UgmeeLua.Ltable

open Scatter

variable {N : Type}

namespace Table

def keyAt (t : Table N) (i : Nat) : Option (TValue N) :=
  if (t.node i).key.isNil then none else some (t.node i).key

def nextAt (t : Table N) (i : Nat) : Option Nat := (t.node i).next

/-- The key and the value of a node that has a value. -/
def pairAt (t : Table N) (i : Nat) : Option (TValue N × TValue N) :=
  if (t.node i).val.isNil then none else some ((t.node i).key, (t.node i).val)

/-- What is in the hash part. -/
def live (t : Table N) : List (TValue N × TValue N) := contents t.pairAt t.sizenode

variable {t : Table N} {i : Nat}

theorem keyAt_eq_some {k : TValue N} : t.keyAt i = some k ↔ (t.node i).key = k ∧ k ≠ .nil := by
  unfold keyAt
  cases hk : (t.node i).key <;> simp [TValue.isNil] <;> intro heq <;> simp [← heq]

theorem keyAt_eq_none : t.keyAt i = none ↔ (t.node i).key = .nil := by
  unfold keyAt
  cases hk : (t.node i).key <;> simp [TValue.isNil]

theorem pairAt_eq_some {p : TValue N × TValue N} :
    t.pairAt i = some p ↔ (t.node i).key = p.1 ∧ (t.node i).val = p.2 ∧ p.2 ≠ .nil := by
  obtain ⟨k, v⟩ := p
  unfold pairAt
  cases hv : (t.node i).val <;> simp [TValue.isNil] <;> intro _ heq <;> simp [← heq]

theorem pairAt_eq_none : t.pairAt i = none ↔ (t.node i).val = .nil := by
  unfold pairAt
  cases hv : (t.node i).val <;> simp [TValue.isNil]

end Table

variable [LuaNumber N]

/-- What tables rely on of `lua_Number`: the comparison is symmetric and transitive, equal numbers have
the same cast to `int`, and an `int` comes back from its cast. -/
class LawfulNumber (N : Type) [LuaNumber N] : Prop where
  eq_symm : ∀ {a b : N}, luaiNumeq a b = true → luaiNumeq b a = true
  eq_trans : ∀ {a b c : N}, luaiNumeq a b = true → luaiNumeq b c = true → luaiNumeq a c = true
  toInt_congr : ∀ {a b : N}, luaiNumeq a b = true → LuaNumber.toInt a = LuaNumber.toInt b
  toInt_castNum : ∀ k : BitVec 32, LuaNumber.toInt (castNum k : N) = k
  castNum_eq : ∀ k : BitVec 32, luaiNumeq (castNum k : N) (castNum k) = true

open LawfulNumber

/-- The keys that a table can have. -/
def Proper (key : TValue N) : Prop := key ≠ .nil ∧ luaORawequalObj key key = true

/-- A hash function does not tell equal keys apart. -/
def Consistent (hash : TValue N → Nat) : Prop :=
  ∀ a b, luaORawequalObj a b = true → hash a = hash b

section Keys

variable [LawfulNumber N] {a b c key : TValue N} {hash : TValue N → Nat}

theorem rawequal_symm (h : luaORawequalObj a b = true) : luaORawequalObj b a = true := by
  cases a <;> cases b <;> simp_all [luaORawequalObj]
  exact eq_symm h

theorem rawequal_trans (h : luaORawequalObj a b = true) (h' : luaORawequalObj b c = true) :
    luaORawequalObj a c = true := by
  cases a <;> cases b <;> simp_all [luaORawequalObj]
  cases c <;> simp_all
  exact eq_trans h h'

theorem rawequal_congr (h : luaORawequalObj a b = true) (key : TValue N) :
    luaORawequalObj a key = luaORawequalObj b key :=
  Bool.eq_iff_iff.mpr ⟨rawequal_trans (rawequal_symm h), rawequal_trans h⟩

omit [LawfulNumber N] in
theorem rawequal_nil (h : luaORawequalObj a b = true) : a = .nil ↔ b = .nil := by
  cases a <;> cases b <;> simp_all [luaORawequalObj]

theorem rawequal_proper (h : luaORawequalObj a b = true) (ha : a ≠ .nil) : Proper a ∧ Proper b :=
  ⟨⟨ha, rawequal_trans h (rawequal_symm h)⟩,
    ⟨fun hb => ha ((rawequal_nil h).mpr hb), rawequal_trans (rawequal_symm h) h⟩⟩

theorem isInt_congr {m n : N} (h : luaiNumeq m n = true) :
    luaiNumeq (castNum (LuaNumber.toInt m)) m = luaiNumeq (castNum (LuaNumber.toInt n)) n := by
  rw [toInt_congr h]
  exact Bool.eq_iff_iff.mpr ⟨fun hm => eq_trans hm h, fun hn => eq_trans hn (eq_symm h)⟩

theorem arrayindex_congr (h : luaORawequalObj a b = true) : arrayindex a = arrayindex b := by
  cases a <;> cases b <;> simp_all [luaORawequalObj, arrayindex]
  rw [isInt_congr h, toInt_congr h]

omit [LawfulNumber N] in
theorem mainposition_congr (hhash : Consistent hash) (t : Table N)
    (h : luaORawequalObj a b = true) : mainposition hash t a = mainposition hash t b := by
  have heq := hhash a b h
  cases a <;> cases b <;> simp_all [luaORawequalObj, mainposition]

theorem arrayindex_castNum (k : BitVec 32) : arrayindex (.number (castNum k : N)) = k := by
  simp only [arrayindex, toInt_castNum, castNum_eq, if_true]

theorem proper_castNum (k : BitVec 32) : Proper (.number (castNum k : N)) := by
  refine ⟨?_, castNum_eq k⟩
  intro h
  cases h

end Keys

namespace Table

/-- The place of a key in the array; that of a key that is none for the array is past its end. -/
def index (key : TValue N) : Nat := (arrayindex key - 1).toNat

end Table

open Ltable.Table

/-- The invariant of tables. -/
structure Inv (hash : TValue N → Nat) (t : Table N) : Prop where
  scattered : Scattered t.sizenode (mainposition hash t) t.keyAt t.nextAt
  dummy : t.isDummy = true → t.lsizenode = 0 ∧ t.lastfree = 0 ∧ ∀ i, t.keyAt i = none
  free : ∀ i, t.keyAt i = none → (t.node i).val = .nil
  proper : ∀ i key, t.keyAt i = some key → Proper key
  keys : ∀ i j k k', t.keyAt i = some k → t.keyAt j = some k' → luaORawequalObj k k' = true → i = j
  ints : ∀ i key, t.keyAt i = some key → t.sizearray ≤ index key
  lastfree : t.isDummy = false → ∀ i, t.lastfree ≤ i → i < t.sizenode → (t.keyAt i).isSome
  lastfree_le : t.lastfree ≤ t.sizenode
  memory : t.sizearray ≤ t.allocated
  sizearray : t.sizearray < 2 ^ 31

/-- The invariant of tables without what it says of equal keys: a node whose key is dead may have one that
is in another node as well. -/
structure Sound (hash : TValue N → Nat) (t : Table N) : Prop where
  scattered : Scattered t.sizenode (mainposition hash t) t.keyAt t.nextAt
  dummy : t.isDummy = true → t.lsizenode = 0 ∧ t.lastfree = 0 ∧ ∀ i, t.keyAt i = none
  free : ∀ i, t.keyAt i = none → (t.node i).val = .nil
  proper : ∀ i key, t.keyAt i = some key → Proper key
  ints : ∀ i key, t.keyAt i = some key → t.sizearray ≤ index key
  lastfree : t.isDummy = false → ∀ i, t.lastfree ≤ i → i < t.sizenode → (t.keyAt i).isSome
  lastfree_le : t.lastfree ≤ t.sizenode
  memory : t.sizearray ≤ t.allocated
  sizearray : t.sizearray < 2 ^ 31

section Parts

variable {hash : TValue N → Nat} {t : Table N} {i : Nat}

theorem Inv.sound (h : Inv hash t) : Sound hash t :=
  ⟨h.scattered, h.dummy, h.free, h.proper, h.ints, h.lastfree, h.lastfree_le, h.memory,
    h.sizearray⟩

theorem Sound.inv (h : Sound hash t) (hkeys : ∀ i j k k', t.keyAt i = some k →
    t.keyAt j = some k' → luaORawequalObj k k' = true → i = j) : Inv hash t :=
  ⟨h.scattered, h.dummy, h.free, h.proper, hkeys, h.ints, h.lastfree, h.lastfree_le, h.memory,
    h.sizearray⟩

/-- A node that has a value has a key. -/
theorem Sound.keyAt_of_pair (h : Sound hash t) {p : TValue N × TValue N}
    (hp : t.pairAt i = some p) : t.keyAt i = some p.1 := by
  obtain ⟨hkey, hval, hne⟩ := pairAt_eq_some.mp hp
  cases hk : t.keyAt i with
  | none => exact absurd (hval.symm.trans (h.free i hk)) hne
  | some k => rw [← hkey, (keyAt_eq_some.mp hk).1]

end Parts

section Lookup

variable {hash : TValue N → Nat} {t : Table N} {key : TValue N} {i : Nat}

theorem index_none (h : arrayindex key = -1) : 2 ^ 31 ≤ index key := by
  rw [index, h]
  decide

theorem luaHGet_array (hsize : t.sizearray < 2 ^ 31) (hin : index key < t.sizearray) :
    luaHGet hash t key = some (.array (index key)) := by
  have hint : arrayindex key ≠ -1 := by
    intro h
    have hout := index_none h
    omega
  cases key with
  | number n =>
    simp only [index, arrayindex] at hint hin ⊢
    by_cases hn : luaiNumeq (castNum (LuaNumber.toInt n)) n = true
    · rw [if_pos hn] at hin ⊢
      simp only [luaHGet, hn, if_true, luaHGetnum, hin]
    · exact absurd (if_neg hn) hint
  | _ => exact absurd rfl hint

/-- A key for the array is a number that is equal to an `int`. -/
theorem index_lt (h : index key < 2 ^ 31) :
    ∃ n, key = .number n ∧ luaiNumeq (castNum (arrayindex key)) n = true := by
  have hint : arrayindex key ≠ -1 := by
    intro hnone
    have hout := index_none hnone
    omega
  cases key with
  | number n =>
    by_cases hn : luaiNumeq (castNum (LuaNumber.toInt n)) n = true
    · refine ⟨n, rfl, ?_⟩
      simp only [arrayindex, hn, if_true]
    · exact absurd (if_neg hn) hint
  | _ => exact absurd rfl hint

variable [LawfulNumber N]

/-- Keys with one place in the array are equal. -/
theorem rawequal_of_index {k : TValue N} (h : index key < 2 ^ 31) (hk : index k = index key) :
    luaORawequalObj key k = true := by
  have hsame : arrayindex k = arrayindex key := by
    have hsub : arrayindex k - 1 = arrayindex key - 1 := BitVec.eq_of_toNat_eq hk
    exact (BitVec.sub_left_inj _).mp hsub
  obtain ⟨n, rfl, hn⟩ := index_lt h
  obtain ⟨m, rfl, hm⟩ := index_lt (hk ▸ h)
  rw [hsame] at hm
  exact eq_trans (eq_symm hn) hm

theorem luaHGetnum_eq (hash : TValue N → Nat) (t : Table N) (k : BitVec 32) :
    luaHGetnum hash t k = luaHGet hash t (.number (castNum k)) := by
  simp only [luaHGet, toInt_castNum, castNum_eq, if_true]

/-- Beyond the array every key is looked for in the same way. -/
theorem luaHGet_chain (hhash : Consistent hash) (hkey : key ≠ .nil) (hout : t.sizearray ≤ index key) :
    luaHGet hash t key = luaHGetany hash t key := by
  cases key with
  | nil => exact absurd rfl hkey
  | string s =>
    have hfound : isStr s = fun k => luaORawequalObj (N := N) k (.string s) := by
      funext k
      cases k <;> simp [isStr, luaORawequalObj]
    simp only [luaHGet, luaHGetstr, luaHGetany, hfound]
  | number n =>
    by_cases hn : luaiNumeq (castNum (LuaNumber.toInt n)) n = true
    · have hnot : ¬ (LuaNumber.toInt n - 1).toNat < t.sizearray := by
        simp only [index, arrayindex, hn, if_true] at hout
        exact Nat.not_lt.mpr hout
      have hsame : luaORawequalObj (.number (castNum (LuaNumber.toInt n))) (.number n) = true := hn
      have hfound : isNum (castNum (LuaNumber.toInt n)) =
          fun k => luaORawequalObj (N := N) k (.number n) := by
        funext k
        cases k with
        | number m =>
          simp only [isNum, luaORawequalObj]
          exact Bool.eq_iff_iff.mpr ⟨fun hm => eq_trans hm hn, fun hm => eq_trans hm (eq_symm hn)⟩
        | _ => rfl
      simp only [luaHGet, hn, if_true, luaHGetnum, hnot, if_false, luaHGetany, hfound,
        mainposition_congr hhash t hsame]
    · simp only [luaHGet, hn]
      rfl
  | _ => rfl

theorem Inv.get_node (h : Inv hash t) (hhash : Consistent hash) {k : TValue N}
    (hi : t.keyAt i = some k) (hk : luaORawequalObj k key = true) :
    luaHGet hash t key = some (.node i) := by
  have hproper := h.proper i k hi
  have hkey : key ≠ .nil := fun heq => hproper.1 ((rawequal_nil hk).mpr heq)
  have hout : t.sizearray ≤ index key := by
    rw [index, ← arrayindex_congr hk]
    exact h.ints i k hi
  have hp : luaORawequalObj (t.node i).key key = true := by
    rw [(keyAt_eq_some.mp hi).1]
    exact hk
  have hfind := h.scattered.find_some (p := fun i => luaORawequalObj (t.node i).key key) hi hp
    (fun x hx hxk => ?_)
  · rw [luaHGet_chain hhash hkey hout, luaHGetany, chainFind,
      ← mainposition_congr hhash t hk]
    exact congrArg (Option.map Slot.node) hfind
  · obtain ⟨k', hk'⟩ := Option.isSome_iff_exists.mp hx
    rw [(keyAt_eq_some.mp hk').1] at hxk
    exact h.keys x i k' k hk' hi (rawequal_trans hxk (rawequal_symm hk))

theorem luaHGet_none (hhash : Consistent hash) (hkey : key ≠ .nil) (hout : t.sizearray ≤ index key)
    (hnone : ∀ i k, t.keyAt i = some k → luaORawequalObj k key = false) :
    luaHGet hash t key = none := by
  have hall : ∀ i, luaORawequalObj (t.node i).key key = false := by
    intro i
    cases hi : t.keyAt i with
    | none =>
      rw [keyAt_eq_none.mp hi]
      cases key with
      | nil => exact absurd rfl hkey
      | _ => rfl
    | some k =>
      rw [(keyAt_eq_some.mp hi).1]
      exact hnone i k hi
  rw [luaHGet_chain hhash hkey hout, luaHGetany, chainFind, find_none hall]
  rfl

/-- Where a key is kept. -/
inductive Kept (t : Table N) (key : TValue N) : Option Slot → Prop
  | array (hin : index key < t.sizearray) : Kept t key (some (.array (index key)))
  | node {i : Nat} {k : TValue N} (hout : t.sizearray ≤ index key) (hi : t.keyAt i = some k)
      (hk : luaORawequalObj k key = true) : Kept t key (some (.node i))
  | none (hout : t.sizearray ≤ index key)
      (hnone : ∀ i k, t.keyAt i = some k → luaORawequalObj k key = false) : Kept t key none

/-- `luaH_get` finds a key where it is kept. -/
theorem Inv.get_kept (h : Inv hash t) (hhash : Consistent hash) (hkey : key ≠ .nil) :
    Kept t key (luaHGet hash t key) := by
  by_cases hin : index key < t.sizearray
  · rw [luaHGet_array h.sizearray hin]
    exact .array hin
  · have hout : t.sizearray ≤ index key := Nat.le_of_not_lt hin
    by_cases hex : ∃ i k, t.keyAt i = some k ∧ luaORawequalObj k key = true
    · obtain ⟨i, k, hi, hk⟩ := hex
      rw [h.get_node hhash hi hk]
      exact .node hout hi hk
    · have hnone : ∀ i k, t.keyAt i = some k → luaORawequalObj k key = false := by
        intro i k hi
        by_contra hne
        exact hex ⟨i, k, hi, Bool.not_eq_false _ ▸ hne⟩
      rw [luaHGet_none hhash hkey hout hnone]
      exact .none hout hnone

/-- The values that a table holds. -/
def Has (t : Table N) (key v : TValue N) : Prop :=
  v ≠ .nil ∧ ((index key < t.sizearray ∧ t.array (index key) = v) ∨
    ∃ p ∈ t.live, luaORawequalObj p.1 key = true ∧ p.2 = v)

omit [LawfulNumber N] in
theorem Inv.keyAt_of_pair (h : Inv hash t) {p : TValue N × TValue N} (hp : t.pairAt i = some p) :
    t.keyAt i = some p.1 :=
  h.sound.keyAt_of_pair hp

theorem Inv.live_out (h : Inv hash t) {p : TValue N × TValue N} (hp : p ∈ t.live)
    (hk : luaORawequalObj p.1 key = true) : t.sizearray ≤ index key := by
  obtain ⟨i, -, hi⟩ := mem_contents.mp hp
  rw [index, ← arrayindex_congr hk]
  exact h.ints i p.1 (h.keyAt_of_pair hi)

/-- A lookup gives the value that the table holds, or nil. -/
theorem Inv.lookup_spec (h : Inv hash t) (hhash : Consistent hash) (hkey : key ≠ .nil) :
    ∃ v, lookup hash t key = .ok v ∧ ∀ w, Has t key w ↔ w = v ∧ w ≠ .nil := by
  have hkept := h.get_kept hhash hkey
  unfold lookup
  generalize luaHGet hash t key = r at hkept
  cases hkept with
  | array hin =>
    have hroom : index key < t.allocated := Nat.lt_of_lt_of_le hin h.memory
    refine ⟨t.array (index key), if_pos hroom, fun w => ⟨fun hw => ?_, fun hw => ?_⟩⟩
    · rcases hw.2 with ⟨-, hv⟩ | ⟨p, hp, hpk, -⟩
      · exact ⟨hv.symm, hw.1⟩
      · have hout := h.live_out hp hpk
        omega
    · exact ⟨hw.2, .inl ⟨hin, hw.1.symm⟩⟩
  | @node i k hout hi hk =>
    obtain ⟨hik, -⟩ := keyAt_eq_some.mp hi
    refine ⟨(t.node i).val, rfl, fun w => ⟨fun hw => ?_, fun hw => ?_⟩⟩
    · rcases hw.2 with ⟨hin, -⟩ | ⟨p, hp, hpk, hpv⟩
      · omega
      · obtain ⟨j, -, hj⟩ := mem_contents.mp hp
        have hjk := h.keyAt_of_pair hj
        have hij := h.keys j i p.1 k hjk hi (rawequal_trans hpk (rawequal_symm hk))
        subst hij
        rw [← hpv, (pairAt_eq_some.mp hj).2.1]
        exact ⟨rfl, hpv ▸ hw.1⟩
    · refine ⟨hw.2, .inr ⟨(k, w), mem_contents.mpr ⟨i, h.scattered.lt hi, ?_⟩, hk, rfl⟩⟩
      exact pairAt_eq_some.mpr ⟨hik, hw.1.symm, hw.2⟩
  | none hout hnone =>
    refine ⟨.nil, rfl, fun w => ⟨fun hw => ?_, fun hw => absurd hw.1 hw.2⟩⟩
    rcases hw.2 with ⟨hin, -⟩ | ⟨p, hp, hpk, -⟩
    · omega
    · obtain ⟨j, -, hj⟩ := mem_contents.mp hp
      rw [hnone j p.1 (h.keyAt_of_pair hj)] at hpk
      cases hpk

end Lookup

end UgmeeLua.Ltable

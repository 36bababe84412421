import Mathlib.Logic.Relation
import UgmeeLua.Lib.Loop
import UgmeeLua.Ltable.Getn

namespace UgmeeLua.Lauxlib

open Ltable Ltable.Table

def LUA_REFNIL : BitVec 32 := -1

def FREELIST_REF : BitVec 32 := 0

variable {N : Type} [LuaNumber N]

/-- `lua_tointeger`, as an `int`. -/
def tointeger (v : TValue N) : BitVec 32 :=
  match luaVTonumber v with
  | some n => (luaNumber2int n).setWidth 32
  | none => 0

section Code

variable (hash : TValue N → Nat) (depth : Nat)

/-- `lua_rawgeti`. -/
def rawgeti (t : Table N) (n : BitVec 32) : Except Unfinished (TValue N) :=
  (t.found (luaHGetnum hash t n)).mapError .failure

/-- `lua_rawseti`. -/
def rawseti (t : Table N) (n : BitVec 32) (v : TValue N) : Except Unfinished (Table N) := do
  let (s, t) ← (luaHSetnum hash depth t n).mapError .failure
  (t.write v s).mapError .failure

/-- `luaL_ref` of a value; `fuel` is for the loops of `luaH_getn`. -/
def luaLRef (fuel : Nat) (v : TValue N) (t : Table N) : Except Unfinished (BitVec 32 × Table N) :=
  if v.isNil then .ok (LUA_REFNIL, t)
  else do
    let first ← rawgeti hash t FREELIST_REF
    let ref := tointeger first
    if ref ≠ 0 then
      -- out of the free list
      let next ← rawgeti hash t ref
      let t ← rawseti hash depth t FREELIST_REF next
      let t ← rawseti hash depth t ref v
      .ok (ref, t)
    else
      let (n, _) ← luaHGetn hash t fuel
      let ref := n + 1
      let t ← rawseti hash depth t ref v
      .ok (ref, t)

def luaLUnref (ref : BitVec 32) (t : Table N) : Except Unfinished (Table N) :=
  if 0 ≤ ref.toInt then do
    let first ← rawgeti hash t FREELIST_REF
    let t ← rawseti hash depth t ref first
    rawseti hash depth t FREELIST_REF (.number (castNum ref))
  else .ok t

end Code

/-! ## Runs -/

/-- A table with its live references and what they refer to, and the references that have been released and
not been used again. -/
structure Refs (N : Type) where
  table : Table N
  live : List (BitVec 32 × TValue N)
  released : List (BitVec 32)

/-- Some index that an `int` can have is free. `luaM_reallocv` refuses an array of `INT_MAX` elements. -/
def FreeIndex (hash : TValue N → Nat) (t : Table N) : Prop :=
  t.sizearray < INT_MAX ∧ ∃ k, 1 ≤ k ∧ k ≤ INT_MAX ∧ NilAt hash t k

/-- A reference is made, or a live one is released. -/
inductive RefStep (hash : TValue N → Nat) (depth fuel : Nat) : Refs N → Refs N → Prop
  | ref {s : Refs N} {v : TValue N} {ref : BitVec 32} {t' : Table N}
      (hindex : v ≠ .nil → FreeIndex hash s.table)
      (h : luaLRef hash depth fuel v s.table = .ok (ref, t')) :
      RefStep hash depth fuel s ⟨t', (ref, v) :: s.live, s.released.erase ref⟩
  | unref {s : Refs N} {before after : List (BitVec 32 × TValue N)} {ref : BitVec 32} {v : TValue N}
      {t' : Table N} (hlive : s.live = before ++ (ref, v) :: after)
      (h : luaLUnref hash depth ref s.table = .ok t') :
      RefStep hash depth fuel s
        ⟨t', before ++ after, if ref = LUA_REFNIL then s.released else ref :: s.released⟩

/-- From a value on, the free list has these references. -/
def FreeFrom (hash : TValue N → Nat) (t : Table N) : TValue N → List (BitVec 32) → Prop
  | first, [] => first = .nil
  | first, r :: l =>
    first = .number (castNum r) ∧ ∃ next, rawgeti hash t r = .ok next ∧ FreeFrom hash t next l

def FreeList (hash : TValue N → Nat) (t : Table N) (l : List (BitVec 32)) : Prop :=
  ∃ first, rawgeti hash t FREELIST_REF = .ok first ∧ FreeFrom hash t first l

/-- The references themselves, but those to nil. -/
def liveRefs (live : List (BitVec 32 × TValue N)) : List (BitVec 32) :=
  (live.map Prod.fst).filter (· ≠ LUA_REFNIL)

/-- The free list in the map that a table holds. -/
def ChainFrom (m : TValue N → TValue N) : TValue N → List (BitVec 32) → Prop
  | first, [] => first = .nil
  | first, r :: l => first = .number (castNum r) ∧ ChainFrom m (m (.number (castNum r))) l

/-- Released and live references are positive and all different; the released ones are in the free list, and
the live ones have their values. -/
structure RefInv (hash : TValue N → Nat) (depth : Nat) (m : TValue N → TValue N) (s : Refs N) : Prop where
  stores : Stores hash depth s.table m
  chain : ChainFrom m (m (.number (castNum FREELIST_REF))) s.released
  nodup : (s.released ++ liveRefs s.live).Nodup
  positive : ∀ r ∈ s.released ++ liveRefs s.live, 0 < r.toInt
  live : ∀ e ∈ s.live, (e.1 = LUA_REFNIL ∧ e.2 = .nil) ∨
    (e.1 ≠ LUA_REFNIL ∧ e.2 ≠ .nil ∧ m (.number (castNum e.1)) = e.2)

section Rules

variable {hash : TValue N → Nat} {depth fuel : Nat} {t t' : Table N}
  {m : TValue N → TValue N} {r k : BitVec 32} {v : TValue N} {s s' : Refs N} {l : List (BitVec 32)}

theorem rawseti_stores (h : Stores hash depth t m) (hset : rawseti hash depth t r v = .ok t') :
    Stores hash depth t' (store m (.number (castNum r)) v) := by
  unfold rawseti at hset
  cases hs : luaHSetnum hash depth t r with
  | error e =>
    rw [hs] at hset
    cases hset
  | ok p =>
    obtain ⟨slot, t1⟩ := p
    rw [hs] at hset
    have hwrite : (t1.write v slot).mapError Unfinished.failure = .ok t' := hset
    cases hw : t1.write v slot with
    | error e =>
      rw [hw] at hwrite
      cases hwrite
    | ok t2 =>
      rw [hw] at hwrite
      cases hwrite
      exact .setnum v h hs hw

theorem ChainFrom.congr {m' : TValue N → TValue N} {first : TValue N} (h : ChainFrom m first l)
    (heq : ∀ r ∈ l, m' (.number (castNum r)) = m (.number (castNum r))) : ChainFrom m' first l := by
  induction l generalizing first with
  | nil => exact h
  | cons r l ih =>
    refine ⟨h.1, ?_⟩
    rw [heq r List.mem_cons_self]
    exact ih h.2 fun r hr => heq r (List.mem_cons_of_mem _ hr)

omit [LuaNumber N] in
theorem mem_liveRefs {live : List (BitVec 32 × TValue N)} :
    r ∈ liveRefs live ↔ (∃ v, (r, v) ∈ live) ∧ r ≠ LUA_REFNIL := by
  simp [liveRefs]

theorem RefInv.ref_ne_zero (h : RefInv hash depth m s) (hr : r ∈ s.released ++ liveRefs s.live) : r ≠ 0 := by
  rintro rfl
  exact absurd (h.positive 0 hr) (by decide)

omit [LuaNumber N] in
theorem liveRefs_append (live live' : List (BitVec 32 × TValue N)) :
    liveRefs (live ++ live') = liveRefs live ++ liveRefs live' := by
  rw [liveRefs, List.map_append, List.filter_append]
  rfl

omit [LuaNumber N] in
theorem liveRefs_cons {live : List (BitVec 32 × TValue N)} (hr : r ≠ LUA_REFNIL) :
    liveRefs ((r, v) :: live) = r :: liveRefs live := by
  rw [liveRefs, List.map_cons, List.filter_cons, if_pos (decide_eq_true hr)]
  rfl

theorem refnil_of_positive (hr : 0 < r.toInt) : r ≠ LUA_REFNIL := by
  rintro rfl
  exact absurd hr (by decide)

variable [LawfulNumber N]

theorem tointeger_castNum (r : BitVec 32) : tointeger (.number (castNum r) : TValue N) = r := by
  simp only [tointeger, luaVTonumber, luaNumber2int, LawfulNumber.toInt_castNum]
  grind

theorem store_num (m : TValue N → TValue N) (r k : BitVec 32) (v : TValue N) :
    store m (.number (castNum r)) v (.number (castNum k)) = if r = k then v else m (.number (castNum k)) := by
  have heq : luaORawequalObj (.number (castNum r) : TValue N) (.number (castNum k)) = true ↔ r = k := by
    constructor
    · intro h
      have hint : LuaNumber.toInt (castNum r : N) = LuaNumber.toInt (castNum k : N) :=
        LawfulNumber.toInt_congr h
      rwa [LawfulNumber.toInt_castNum, LawfulNumber.toInt_castNum] at hint
    · rintro rfl
      exact LawfulNumber.castNum_eq r
  simp only [store, heq]

theorem rawgeti_eq (hhash : Consistent hash) (hdepth : 3 ≤ depth) (h : Stores hash depth t m)
    (r : BitVec 32) : rawgeti hash t r = .ok (m (.number (castNum r))) := by
  obtain ⟨hinv, hholds⟩ := h.holds hhash hdepth
  have hproper := proper_castNum (N := N) r
  obtain ⟨v, hv, hhas⟩ := hinv.lookup_spec hhash hproper.1
  rw [lookup, ← luaHGetnum_eq] at hv
  have hsame : v = m (.number (castNum r)) := by
    by_cases hnil : v = .nil
    · by_contra hne
      have hm : m (.number (castNum r)) ≠ .nil := fun heq => hne (hnil.trans heq.symm)
      exact hm (((hhas _).mp ((hholds _ _ hproper).mpr ⟨rfl, hm⟩)).1.trans hnil)
    · exact ((hholds _ _ hproper).mp ((hhas v).mpr ⟨rfl, hnil⟩)).1
  rw [rawgeti, hv, hsame]
  rfl

/-- A reference to a value takes the first of the free list, or a new index. -/
theorem luaLRef_cases (hhash : Consistent hash) (hdepth : 3 ≤ depth) (hst : Stores hash depth t m)
    (hv : v ≠ .nil) {ref : BitVec 32} (h : luaLRef hash depth fuel v t = .ok (ref, t')) :
    (tointeger (m (.number (castNum FREELIST_REF))) = ref ∧ ref ≠ 0 ∧
      Stores hash depth t' (store (store m (.number (castNum FREELIST_REF)) (m (.number (castNum ref))))
        (.number (castNum ref)) v)) ∨
    (tointeger (m (.number (castNum FREELIST_REF))) = 0 ∧ ∃ n uses, luaHGetn hash t fuel = .ok (n, uses) ∧
      ref = n + 1 ∧ Stores hash depth t' (store m (.number (castNum ref)) v)) := by
  have hnil : ¬ v.isNil = true := fun hnil => hv ((TValue.isNil_iff _).mp hnil)
  rw [luaLRef, if_neg hnil] at h
  obtain ⟨first, hfirst, h⟩ := Loop.ok_of_bind h
  cases hfirst.symm.trans (rawgeti_eq hhash hdepth hst FREELIST_REF)
  dsimp only at h
  split_ifs at h with hfree
  · obtain ⟨next, hnext, h⟩ := Loop.ok_of_bind h
    cases hnext.symm.trans (rawgeti_eq hhash hdepth hst _)
    obtain ⟨t1, ht1, h⟩ := Loop.ok_of_bind h
    obtain ⟨t2, ht2, h⟩ := Loop.ok_of_bind h
    cases h
    exact .inl ⟨rfl, hfree, rawseti_stores (rawseti_stores hst ht1) ht2⟩
  · obtain ⟨⟨n, uses⟩, hn, h⟩ := Loop.ok_of_bind h
    obtain ⟨t1, ht1, h⟩ := Loop.ok_of_bind h
    cases h
    exact .inr ⟨not_not.mp hfree, n, uses, hn, rfl, rawseti_stores hst ht1⟩

/-- A released reference goes to the front of the free list. -/
theorem luaLUnref_cases (hhash : Consistent hash) (hdepth : 3 ≤ depth) (hst : Stores hash depth t m)
    {ref : BitVec 32} (href : 0 ≤ ref.toInt) (h : luaLUnref hash depth ref t = .ok t') :
    Stores hash depth t' (store (store m (.number (castNum ref)) (m (.number (castNum FREELIST_REF))))
      (.number (castNum FREELIST_REF)) (.number (castNum ref))) := by
  rw [luaLUnref, if_pos href] at h
  obtain ⟨first, hfirst, h⟩ := Loop.ok_of_bind h
  cases hfirst.symm.trans (rawgeti_eq hhash hdepth hst FREELIST_REF)
  obtain ⟨t1, ht1, h⟩ := Loop.ok_of_bind h
  exact rawseti_stores (rawseti_stores hst ht1) h

theorem freeList_of_chain (hhash : Consistent hash) (hdepth : 3 ≤ depth) (hst : Stores hash depth t m)
    (h : ChainFrom m (m (.number (castNum FREELIST_REF))) l) : FreeList hash t l := by
  refine ⟨_, rawgeti_eq hhash hdepth hst FREELIST_REF, ?_⟩
  generalize m (.number (castNum FREELIST_REF)) = first at h
  induction l generalizing first with
  | nil => exact h
  | cons r l ih => exact ⟨h.1, _, rawgeti_eq hhash hdepth hst r, ih _ h.2⟩

/-- A fresh index is none that has a value. -/
theorem fresh_index (hhash : Consistent hash) (hdepth : 3 ≤ depth) (hst : Stores hash depth t m)
    (hfuel : INT_MAX < fuel) (hindex : FreeIndex hash t) {n : BitVec 32} {uses : List Use}
    (hn : luaHGetn hash t fuel = .ok (n, uses)) :
    0 < (n + 1).toInt ∧ m (.number (castNum (n + 1))) = .nil := by
  obtain ⟨hsize, hfree⟩ := hindex
  obtain ⟨n', uses', hn', ⟨hmax, -, hnil⟩, -⟩ :=
    (hst.holds hhash hdepth).1.getn_boundary hhash hsize (.inr (.inr hfree)) hfuel
  cases hn.symm.trans hn'
  have hbound : INT_MAX = 2147483647 := rfl
  have hone : (1 : BitVec 32).toNat = 1 := rfl
  have hnat : (n + 1).toNat = n.toNat + 1 := by
    rw [BitVec.toNat_add, hone, Nat.mod_eq_of_lt (by omega)]
  refine ⟨?_, ?_⟩
  · rw [BitVec.toInt_eq_toNat_of_lt (by omega), hnat]
    omega
  · have hget := rawgeti_eq hhash hdepth hst (n + 1)
    have hof : BitVec.ofNat 32 (n.toNat + 1) = n + 1 := by
      rw [← hnat, BitVec.ofNat_toNat, BitVec.setWidth_eq]
    rw [NilAt, hof] at hnil
    rw [rawgeti, hnil] at hget
    exact (Except.ok.inj hget).symm

/-- A reference to a value is new among the live ones, and the invariant is kept. -/
theorem RefInv.reference (hhash : Consistent hash) (hdepth : 3 ≤ depth) (hfuel : INT_MAX < fuel)
    (h : RefInv hash depth m s) (hv : v ≠ .nil) (hindex : FreeIndex hash s.table) {ref : BitVec 32}
    (href : luaLRef hash depth fuel v s.table = .ok (ref, t')) :
    0 < ref.toInt ∧ ref ∉ liveRefs s.live ∧
      ∃ m', RefInv hash depth m' ⟨t', (ref, v) :: s.live, s.released.erase ref⟩ := by
  obtain ⟨table, live, released⟩ := s
  -- A live reference other than this one keeps its value.
  have hkeep : ∀ {ref : BitVec 32} {m' : TValue N → TValue N}, 0 < ref.toInt →
      ref ∉ liveRefs live → m' (.number (castNum ref)) = v →
      (∀ r ∈ liveRefs live, r ≠ ref → m' (.number (castNum r)) = m (.number (castNum r))) →
      ∀ e ∈ (ref, v) :: live, (e.1 = LUA_REFNIL ∧ e.2 = .nil) ∨
        (e.1 ≠ LUA_REFNIL ∧ e.2 ≠ .nil ∧ m' (.number (castNum e.1)) = e.2) := by
    intro ref m' hpos hnew hvalue hsame e he
    rcases List.mem_cons.mp he with rfl | he
    · exact .inr ⟨refnil_of_positive hpos, hv, hvalue⟩
    · refine (h.live e he).imp id fun ⟨hne, hvalue', hm⟩ => ⟨hne, hvalue', ?_⟩
      have hin : e.1 ∈ liveRefs live := mem_liveRefs.mpr ⟨⟨e.2, he⟩, hne⟩
      rw [hsame e.1 hin fun heq => hnew (heq ▸ hin), hm]
  rcases luaLRef_cases hhash hdepth h.stores hv href with ⟨hhead, hne, hst⟩ | ⟨hhead, n, uses, hn, rfl, hst⟩
  · -- the first of the free list
    cases released with
    | nil =>
      have hnil : m (.number (castNum FREELIST_REF)) = .nil := h.chain
      rw [hnil] at hhead
      exact (hne hhead.symm).elim
    | cons r l =>
      obtain ⟨hfirst, hchain⟩ := h.chain
      rw [hfirst, tointeger_castNum] at hhead
      subst hhead
      have hnodup : (r :: (l ++ liveRefs live)).Nodup := h.nodup
      obtain ⟨hrnew, hrest⟩ := List.nodup_cons.mp hnodup
      have hpos : 0 < r.toInt := h.positive r List.mem_cons_self
      have hrlive : r ∉ liveRefs live := fun hr => hrnew (List.mem_append_right _ hr)
      have hzero : ∀ k ∈ r :: l ++ liveRefs live, FREELIST_REF ≠ k := fun k hk heq =>
        h.ref_ne_zero hk heq.symm
      have hother : ∀ k ∈ l ++ liveRefs live, store (store m (.number (castNum FREELIST_REF))
          (m (.number (castNum r)))) (.number (castNum r)) v (.number (castNum k)) =
            m (.number (castNum k)) := fun k hk => by
        have hne : r ≠ k := fun heq => hrnew (heq ▸ hk)
        rw [store_num, if_neg hne, store_num, if_neg (hzero k (List.mem_cons_of_mem r hk))]
      refine ⟨hpos, hrlive, _, ⟨hst, ?_, ?_, ?_, ?_⟩⟩
      · rw [List.erase_cons_head, store_num, if_neg (hzero r List.mem_cons_self).symm, store_num, if_pos rfl]
        exact hchain.congr fun k hk => hother k (List.mem_append_left _ hk)
      · rw [List.erase_cons_head, liveRefs_cons (refnil_of_positive hpos), List.nodup_middle]
        exact hnodup
      · intro k hk
        rw [List.erase_cons_head, liveRefs_cons (refnil_of_positive hpos)] at hk
        exact h.positive k (List.perm_middle.mem_iff.mp hk)
      · refine hkeep hpos hrlive ?_ fun k hk _ => hother k (List.mem_append_right _ hk)
        rw [store_num, if_pos rfl]
  · -- a fresh index
    have hnil : released = [] := by
      cases released with
      | nil => rfl
      | cons r l =>
        rw [h.chain.1, tointeger_castNum] at hhead
        exact (h.ref_ne_zero List.mem_cons_self hhead).elim
    subst hnil
    obtain ⟨hpos, hfree⟩ := fresh_index hhash hdepth h.stores hfuel hindex hn
    have hnew : n + 1 ∉ liveRefs live := fun hr => by
      obtain ⟨⟨w, hw⟩, hne⟩ := mem_liveRefs.mp hr
      rcases h.live _ hw with ⟨heq, -⟩ | ⟨-, hvalue, hm⟩
      · exact hne heq
      · exact hvalue (hm.symm.trans hfree)
    have hzero : n + 1 ≠ FREELIST_REF := fun heq => absurd hpos (by rw [heq]; decide)
    refine ⟨hpos, hnew, _, ⟨hst, ?_, ?_, ?_, ?_⟩⟩
    · rw [store_num, if_neg hzero]
      exact h.chain
    · rw [liveRefs_cons (refnil_of_positive hpos)]
      exact List.nodup_cons.mpr ⟨hnew, h.nodup⟩
    · intro k hk
      rw [liveRefs_cons (refnil_of_positive hpos)] at hk
      rcases List.mem_cons.mp hk with rfl | hk
      · exact hpos
      · exact h.positive k hk
    · refine hkeep hpos hnew ?_ fun k hk hne => ?_
      · rw [store_num, if_pos rfl]
      · rw [store_num, if_neg hne.symm]

/-- A live reference is released, and the invariant is kept. -/
theorem RefInv.release (hhash : Consistent hash) (hdepth : 3 ≤ depth) (h : RefInv hash depth m s)
    {before after : List (BitVec 32 × TValue N)} {ref : BitVec 32}
    (hlive : s.live = before ++ (ref, v) :: after) (hunref : luaLUnref hash depth ref s.table = .ok t') :
    ∃ m', RefInv hash depth m'
      ⟨t', before ++ after, if ref = LUA_REFNIL then s.released else ref :: s.released⟩ := by
  obtain ⟨table, live, released⟩ := s
  simp only at hlive hunref
  subst hlive
  have hrest : ∀ e ∈ before ++ after, e ∈ before ++ (ref, v) :: after := fun e he =>
    List.perm_middle.mem_iff.mpr (List.mem_cons_of_mem _ he)
  by_cases hnil : ref = LUA_REFNIL
  · rw [if_pos hnil]
    subst hnil
    have hrefs : liveRefs (before ++ (LUA_REFNIL, v) :: after) = liveRefs (before ++ after) := by
      rw [liveRefs_append, liveRefs_append]
      rfl
    have hsame : table = t' := Except.ok.inj hunref
    subst hsame
    exact ⟨m, h.stores, h.chain, hrefs ▸ h.nodup, hrefs ▸ h.positive, fun e he => h.live e (hrest e he)⟩
  · rw [if_neg hnil]
    have hrefs : released ++ liveRefs (before ++ (ref, v) :: after) =
        (released ++ liveRefs before) ++ ref :: liveRefs after := by
      rw [liveRefs_append, liveRefs_cons hnil, List.append_assoc]
    have hperm : ((released ++ liveRefs before) ++ ref :: liveRefs after).Perm
        (ref :: released ++ liveRefs (before ++ after)) := by
      rw [liveRefs_append, List.cons_append, ← List.append_assoc]
      exact List.perm_middle
    have hnodup : (ref :: released ++ liveRefs (before ++ after)).Nodup :=
      hperm.nodup_iff.mp (hrefs ▸ h.nodup)
    have hpositive : ∀ k ∈ ref :: released ++ liveRefs (before ++ after), 0 < k.toInt := fun k hk =>
      h.positive k (hrefs ▸ hperm.mem_iff.mpr hk)
    have hpos := hpositive ref List.mem_cons_self
    have hst := luaLUnref_cases hhash hdepth h.stores (Int.le_of_lt hpos) hunref
    obtain ⟨hnew, -⟩ := List.nodup_cons.mp hnodup
    have hzero : ∀ k ∈ ref :: released ++ liveRefs (before ++ after), FREELIST_REF ≠ k := fun k hk heq =>
      absurd (hpositive k hk) (by rw [← heq]; decide)
    have hother : ∀ k ∈ released ++ liveRefs (before ++ after),
        store (store m (.number (castNum ref)) (m (.number (castNum FREELIST_REF))))
          (.number (castNum FREELIST_REF)) (.number (castNum ref)) (.number (castNum k)) =
            m (.number (castNum k)) := fun k hk => by
      have hne : ref ≠ k := fun heq => hnew (heq ▸ hk)
      rw [store_num, if_neg (hzero k (List.mem_cons_of_mem ref hk)), store_num, if_neg hne]
    refine ⟨_, ⟨hst, ?_, hnodup, hpositive, fun e he => ?_⟩⟩
    · rw [store_num, if_pos rfl]
      refine ⟨rfl, ?_⟩
      rw [store_num, if_neg (hzero ref List.mem_cons_self), store_num, if_pos rfl]
      exact ChainFrom.congr h.chain fun k hk => hother k (List.mem_append_left _ hk)
    · refine (h.live e (hrest e he)).imp id fun ⟨hne, hvalue, hm⟩ => ⟨hne, hvalue, ?_⟩
      rw [hother e.1 (List.mem_append_right _ (mem_liveRefs.mpr ⟨⟨e.2, he⟩, hne⟩)), hm]

/-- A step keeps the invariant. -/
theorem RefInv.step (hhash : Consistent hash) (hdepth : 3 ≤ depth) (hfuel : INT_MAX < fuel)
    (h : RefInv hash depth m s) (hstep : RefStep hash depth fuel s s') : ∃ m', RefInv hash depth m' s' := by
  cases hstep with
  | @ref v ref t' hindex href =>
    by_cases hv : v = .nil
    · subst hv
      cases href
      have hnew : LUA_REFNIL ∉ s.released := fun hin =>
        refnil_of_positive (h.positive _ (List.mem_append_left _ hin)) rfl
      rw [List.erase_of_not_mem hnew]
      refine ⟨m, h.stores, h.chain, h.nodup, h.positive, fun e he => ?_⟩
      rcases List.mem_cons.mp he with rfl | he
      · exact .inl ⟨rfl, rfl⟩
      · exact h.live e he
    · exact (h.reference hhash hdepth hfuel hv (hindex hv) href).2.2
  | unref hlive hunref => exact h.release hhash hdepth hlive hunref

/-- From a table that has nothing at the head of the free list, a run of references and releases. -/
def RefRun (hash : TValue N → Nat) (depth fuel : Nat) (t0 : Table N) (s : Refs N) : Prop :=
  rawgeti hash t0 FREELIST_REF = .ok .nil ∧
    Relation.ReflTransGen (RefStep hash depth fuel) ⟨t0, [], []⟩ s

theorem RefRun.inv (hhash : Consistent hash) (hdepth : 3 ≤ depth) (hfuel : INT_MAX < fuel) {t0 : Table N}
    {m0 : TValue N → TValue N} (ht0 : Stores hash depth t0 m0) (h : RefRun hash depth fuel t0 s) :
    ∃ m, RefInv hash depth m s := by
  obtain ⟨hempty, hsteps⟩ := h
  induction hsteps with
  | refl =>
    have hnil := Except.ok.inj ((rawgeti_eq hhash hdepth ht0 FREELIST_REF).symm.trans hempty)
    exact ⟨m0, ht0, hnil, List.nodup_nil, fun _ hr => (List.not_mem_nil hr).elim,
      fun _ he => (List.not_mem_nil he).elim⟩
  | tail _ hstep ih =>
    obtain ⟨m, hinv⟩ := ih
    exact hinv.step hhash hdepth hfuel hstep

end Rules

/-- In every state that references and releases lead to: a reference to a value is positive, and no live one;
`luaL_ref` of nil is `LUA_REFNIL` and, like its release, leaves the table as it is; under every live reference
but that the table has its value; and the free list has the released references that have not been used again,
each once and none of them live. -/
theorem luaLRef_references [LawfulNumber N] {hash : TValue N → Nat} (hhash : Consistent hash) {depth fuel : Nat}
    (hdepth : 3 ≤ depth) (hfuel : INT_MAX < fuel) {t0 : Table N} {m0 : TValue N → TValue N}
    (ht0 : Stores hash depth t0 m0) {s : Refs N} (hrun : RefRun hash depth fuel t0 s) :
    (∀ v ref t', v ≠ .nil → FreeIndex hash s.table → luaLRef hash depth fuel v s.table = .ok (ref, t') →
      0 < ref.toInt ∧ ref ∉ liveRefs s.live) ∧
    luaLRef hash depth fuel .nil s.table = .ok (LUA_REFNIL, s.table) ∧
    luaLUnref hash depth LUA_REFNIL s.table = .ok s.table ∧
    (∀ e ∈ s.live, (e.1 = LUA_REFNIL ∧ e.2 = .nil) ∨ 0 < e.1.toInt ∧ rawgeti hash s.table e.1 = .ok e.2) ∧
    FreeList hash s.table s.released ∧ (s.released ++ liveRefs s.live).Nodup := by
  obtain ⟨m, hinv⟩ := hrun.inv hhash hdepth hfuel ht0
  refine ⟨fun v ref t' hv hindex href => ?_, rfl, rfl, fun e he => ?_,
    freeList_of_chain hhash hdepth hinv.stores hinv.chain, hinv.nodup⟩
  · obtain ⟨hpos, hnew, -⟩ := hinv.reference hhash hdepth hfuel hv hindex href
    exact ⟨hpos, hnew⟩
  · refine (hinv.live e he).imp id fun ⟨hne, _, hm⟩ => ⟨hinv.positive e.1 ?_, ?_⟩
    · exact List.mem_append_right _ (mem_liveRefs.mpr ⟨⟨e.2, he⟩, hne⟩)
    · rw [rawgeti_eq hhash hdepth hinv.stores, hm]

/-- A reference that is made and released. -/
def oneRef (t0 : Table Int) : Except Unfinished (BitVec 32) := do
  let (ref, t1) ← luaLRef (fun _ => 0) 3 (INT_MAX + 1) (.boolean true) t0
  let _ ← luaLUnref (fun _ => 0) 3 ref t1
  .ok ref

theorem oneRef_ok : ∃ t0 : Table Int, luaHNew 0 0 = .ok t0 ∧ oneRef t0 = .ok 1 ∧
    FreeIndex (fun _ => 0) t0 ∧ rawgeti (fun _ => 0) t0 FREELIST_REF = .ok .nil := by
  obtain ⟨t0, ht0, hstart⟩ : ∃ t0 : Table Int, luaHNew 0 0 = .ok t0 ∧
      FreeIndex (fun _ => 0) t0 ∧ rawgeti (fun _ => 0) t0 FREELIST_REF = .ok .nil :=
    ⟨_, rfl, ⟨by decide, 1, by decide, by decide, rfl⟩, rfl⟩
  have hrun : ((luaHNew 0 0).mapError .failure >>= oneRef).toOption = some 1 := by decide +kernel
  rw [ht0, Except.mapError, Loop.ok_bind] at hrun
  refine ⟨t0, ht0, ?_, hstart⟩
  generalize oneRef t0 = r at hrun
  cases r with
  | error e => cases hrun
  | ok ref =>
    cases hrun
    rfl

theorem luaLRef_references_one : ∃ t0 t1 t2 : Table Int, luaHNew 0 0 = .ok t0 ∧
    RefRun (fun _ => 0) 3 (INT_MAX + 1) t0 ⟨t1, [(1, .boolean true)], []⟩ ∧
    rawgeti (fun _ => 0) t1 1 = .ok (.boolean true) ∧
    RefRun (fun _ => 0) 3 (INT_MAX + 1) t0 ⟨t2, [], [1]⟩ ∧ FreeList (fun _ => 0) t2 [1] := by
  obtain ⟨t0, ht0, hrun, hindex, hempty⟩ := oneRef_ok
  obtain ⟨⟨ref, t1⟩, href, hrun⟩ := Loop.ok_of_bind hrun
  obtain ⟨t2, hunref, hrun⟩ := Loop.ok_of_bind hrun
  cases hrun
  have hstep1 : RefStep (fun _ => 0) 3 (INT_MAX + 1) ⟨t0, [], []⟩ ⟨t1, [(1, .boolean true)], []⟩ :=
    .ref (fun _ => hindex) href
  have hstep2 : RefStep (fun _ => 0) 3 (INT_MAX + 1) ⟨t1, [(1, .boolean true)], []⟩ ⟨t2, [], [1]⟩ :=
    @RefStep.unref Int _ (fun _ => 0) 3 _ ⟨t1, [(1, .boolean true)], []⟩ [] [] 1 _ _ rfl hunref
  have hrun1 : RefRun (fun _ => 0) 3 (INT_MAX + 1) t0 _ := ⟨hempty, .single hstep1⟩
  have hrun2 : RefRun (fun _ => 0) 3 (INT_MAX + 1) t0 _ := ⟨hempty, .tail (.single hstep1) hstep2⟩
  have hfuel := Nat.lt_succ_self INT_MAX
  have hall1 := luaLRef_references (fun _ _ _ => rfl) (by decide) hfuel (.new (by decide) ht0) hrun1
  have hall2 := luaLRef_references (fun _ _ _ => rfl) (by decide) hfuel (.new (by decide) ht0) hrun2
  refine ⟨t0, t1, t2, ht0, hrun1, ?_, hrun2, hall2.2.2.2.2.1⟩
  rcases hall1.2.2.2.1 _ List.mem_cons_self with ⟨hnil, -⟩ | ⟨-, hget⟩
  · exact absurd hnil (by decide)
  · exact hget

/-- All references to nil are the same. -/
theorem luaLRef_nil_again : ¬ ∀ (fuel : Nat) (t0 : Table Int) (s : Refs Int), INT_MAX < fuel →
    luaHNew 0 0 = .ok t0 → RefRun (fun _ => 0) 3 fuel t0 s → ∀ v ref t',
      luaLRef (fun _ => 0) 3 fuel v s.table = .ok (ref, t') → ref ∉ s.live.map Prod.fst := by
  intro hall
  obtain ⟨fuel, hfuel⟩ : ∃ fuel, INT_MAX < fuel := ⟨_, Nat.lt_succ_self _⟩
  obtain ⟨t0, ht0⟩ : ∃ t0 : Table Int, luaHNew 0 0 = .ok t0 := ⟨_, rfl⟩
  have hempty : rawgeti (fun _ => 0) t0 FREELIST_REF = .ok .nil := by
    cases ht0
    rfl
  have hstep : RefStep (fun _ => 0) 3 fuel ⟨t0, [], []⟩ ⟨t0, [(LUA_REFNIL, .nil)], []⟩ :=
    .ref (fun hv => (hv rfl).elim) rfl
  exact hall fuel t0 _ hfuel ht0 ⟨hempty, .single hstep⟩ .nil LUA_REFNIL t0 rfl List.mem_cons_self

end UgmeeLua.Lauxlib

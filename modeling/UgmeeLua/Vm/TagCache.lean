import UgmeeLua.Lib.Loop
import UgmeeLua.Lib.Run
import UgmeeLua.Ltable.Maps
import UgmeeLua.Vm.Metamethod

namespace UgmeeLua.TagCache

open Ltable Ltable.Table LawfulNumber TMS

variable {N : Type}

/-- A table: its fields, the tag methods that are known to be absent, and its metatable. -/
structure Table (N : Type) where
  fields : Ltable.Table N
  flags : BitVec 8
  metatable : Option Nat

/-- The tables, by reference, and the metatables of other values. -/
structure State (N : Type) where
  table : Nat → Table N
  userdata : Nat → Option Nat
  mt : LuaType → Option Nat

namespace State

variable (g : State N) (r r' : Nat) (t : Table N)

def setTable : State N := { g with table := fun i => if i = r then t else g.table i }

@[simp] theorem setTable_self : (g.setTable r t).table r = t := if_pos rfl

theorem setTable_ne (h : r' ≠ r) : (g.setTable r t).table r' = g.table r' := if_neg h

end State

section Access

variable [LuaNumber N] (hash : TValue N → Nat) (depth : Nat)

/-- `luaT_gettm`. The bits that are left of the byte are of no event that it is used for. -/
def luaTGettm (g : State N) (events : Nat) (event : TMS) : Except Failure (Option (TValue N) × State N) := do
  let t := g.table events
  let tm ← t.fields.found (luaHGetstr hash t.fields (tmname event))
  if tm.isNil then .ok (none, g.setTable events { t with flags := t.flags ||| BitVec.twoPow 8 event.ctorIdx })
  else .ok (some tm, g)

def fasttm (g : State N) (et : Option Nat) (event : TMS) : Except Failure (Option (TValue N) × State N) :=
  match et with
  | none => .ok (none, g)
  | some r => if (g.table r).flags.getLsbD event.ctorIdx then .ok (none, g) else luaTGettm hash g r event

/-- `setobj2t` to a place that `luaH_set` has come to. -/
def setobj (g : State N) (r : Nat) (s : Slot) (val : TValue N) : Except Failure (State N) := do
  let fields ← (g.table r).fields.write val s
  .ok (g.setTable r { g.table r with fields := fields })

/-- `luaH_set`, which clears the flags. -/
def luaHSet (g : State N) (r : Nat) (key : TValue N) : Except Failure (Slot × State N) := do
  let (s, fields) ← Ltable.luaHSet hash depth (g.table r).fields key
  .ok (s, g.setTable r { g.table r with fields := fields, flags := 0 })

def luaRawset (g : State N) (r : Nat) (key val : TValue N) : Except Failure (State N) := do
  let (s, g) ← luaHSet hash depth g r key
  setobj g r s val

/-- A pass of the loop of `luaV_settable` at a table: it stores the value, or goes on with a tag method. -/
def settablePass (g : State N) (h : Nat) (key val : TValue N) : Except Failure (Option (TValue N) × State N) := do
  let (s, g) ← luaHSet hash depth g h key
  let oldval ← (g.table h).fields.read s
  if oldval.isNil then do
    let (tm, g) ← fasttm hash g (g.table h).metatable TM_NEWINDEX
    match tm with
    | some tm => .ok (some tm, g)
    | none => do
      let g ← setobj g h s val
      .ok (none, g)
  else do
    let g ← setobj g h s val
    .ok (none, g)

/-- The metatables, as `luaT_gettmbyobj` reads them. -/
def State.heap (g : State N) : Heap N where
  tableMetatable r := (g.table r).metatable
  userdataMetatable := g.userdata
  mt := g.mt
  getstr r s := ((g.table r).fields.found (luaHGetstr hash (g.table r).fields s)).toOption.getD .nil

/-- How `luaV_settable` ends: the value is stored, a tag method is called, or there is an error. -/
inductive Ending (N : Type) where
  | stored
  | callTM (tm t : TValue N)
  | typeerror (t : TValue N)
  | loop

/-- The loop of `luaV_settable`, with so many passes at most. -/
def settableLoop (key val : TValue N) : Nat → TValue N → State N → Except Failure (Ending N × State N)
  | 0, _, g => .ok (.loop, g)
  | n + 1, .table h, g => do
    let (tm, g) ← settablePass hash depth g h key val
    match tm with
    | none => .ok (.stored, g)
    | some tm => if tm.ttype = .LUA_TFUNCTION then .ok (.callTM tm (.table h), g) else settableLoop key val n tm g
  | n + 1, t, g =>
    let tm := luaTGettmbyobj (g.heap hash) t TM_NEWINDEX
    if tm.isNil then .ok (.typeerror t, g)
    else if tm.ttype = .LUA_TFUNCTION then .ok (.callTM tm t, g)
    else settableLoop key val n tm g

def MAXTAGLOOP : Nat := 100

def luaVSettable (g : State N) (t key val : TValue N) : Except Failure (Ending N × State N) :=
  settableLoop hash depth key val MAXTAGLOOP t g

/-- The store of a table's own `__newindex`, where it is the metatable of itself: `fasttm` finds none after
`luaH_set` has cleared the flags, and before the value is there. -/
def Hides (g : State N) (h : Nat) (key val : TValue N) : Prop :=
  (g.table h).metatable = some h ∧ key = .string (tmname TM_NEWINDEX) ∧ val ≠ .nil ∧
    lookup hash (g.table h).fields key = .ok .nil

/-- What is done to tables: a table is made, maybe where one has been freed; metatables are set; tag methods are
looked for; values are stored under any key by `lua_rawset` and `luaV_settable`, under integers, and by `adjust_varargs`
under the name `n`; the array grows; and the collector clears the value of a key. Only `luaH_set` clears the flags, which a
rehash in `luaH_setnum` or in `luaH_setstr` uses too. -/
inductive Step (g : State N) : State N → Prop
  | new {r narray nhash : Nat} {t : Ltable.Table N} (hsize : narray < 2 ^ 31)
      (h : luaHNew narray nhash = .ok t) : Step g (g.setTable r ⟨t, 255, none⟩)
  | setmetatable (r : Nat) (mt : Option Nat) : Step g (g.setTable r { g.table r with metatable := mt })
  | setothers (userdata : Nat → Option Nat) (mt : LuaType → Option Nat) :
      Step g { g with userdata := userdata, mt := mt }
  | fasttm {et : Option Nat} {event : TMS} {tm : Option (TValue N)} {g' : State N}
      (h : fasttm hash g et event = .ok (tm, g')) : Step g g'
  | rawset {r : Nat} {key val : TValue N} {g' : State N} (h : luaRawset hash depth g r key val = .ok g') : Step g g'
  | settable {r : Nat} {key val : TValue N} {tm : Option (TValue N)} {g' : State N}
      (h : settablePass hash depth g r key val = .ok (tm, g')) (hhides : ¬ Hides hash g r key val) : Step g g'
  | setnum {r : Nat} {key : BitVec 32} {s : Slot} {val : TValue N} {t t' : Ltable.Table N} {flags : BitVec 8}
      (h : luaHSetnum hash depth (g.table r).fields key = .ok (s, t)) (hwrite : t.write val s = .ok t')
      (hflags : flags = (g.table r).flags ∨ flags = 0) :
      Step g (g.setTable r { g.table r with fields := t', flags := flags })
  | setcount {r : Nat} {s : Slot} {val : TValue N} {t t' : Ltable.Table N} {flags : BitVec 8}
      (h : luaHSetstr hash depth (g.table r).fields (bytes "n") = .ok (s, t)) (hwrite : t.write val s = .ok t')
      (hflags : flags = (g.table r).flags ∨ flags = 0) :
      Step g (g.setTable r { g.table r with fields := t', flags := flags })
  | grow {r nasize : Nat} {t : Ltable.Table N} {flags : BitVec 8} (hsize : nasize < 2 ^ 31)
      (hgrows : (g.table r).fields.sizearray ≤ nasize)
      (h : luaHResizearray hash depth (g.table r).fields nasize = .ok t)
      (hflags : flags = (g.table r).flags ∨ flags = 0) :
      Step g (g.setTable r { g.table r with fields := t, flags := flags })
  | clear {r : Nat} {key : TValue N} {s : Slot} {t : Ltable.Table N} (hkey : key ≠ .nil)
      (hget : luaHGet hash (g.table r).fields key = some s) (hwrite : (g.table r).fields.write .nil s = .ok t) :
      Step g (g.setTable r { g.table r with fields := t })

/-- At the start there are no tables. -/
def Start (g : State N) : Prop := ∀ r, ∃ t, luaHNew 0 0 = .ok t ∧ g.table r = ⟨t, 255, none⟩

def Reached : State N → Prop := Run.Reach Start (Step hash depth)

/-- What is known to be absent is. -/
structure Coherent (t : Table N) : Prop where
  inv : Inv hash t.fields
  absent : ∀ event : TMS, t.flags.getLsbD event.ctorIdx = true → ∀ w, ¬ Has t.fields (.string (tmname event)) w

end Access

theorem ctorIdx_injective {a b : TMS} (h : a.ctorIdx = b.ctorIdx) : a = b := by
  have hof := congrArg TMS.ofNat h
  rwa [TMS.ofNat_ctorIdx, TMS.ofNat_ctorIdx] at hof

/-! ## Fields of a table -/

section Fields

variable [LuaNumber N] [LawfulNumber N] {hash : TValue N → Nat} {depth : Nat} {t t' : Ltable.Table N}
  {key v w : TValue N} {s : Slot}

theorem Inv.absent_iff (h : Inv hash t) (hhash : Consistent hash) (hkey : key ≠ .nil) :
    (∀ w, ¬ Has t key w) ↔ lookup hash t key = .ok .nil := by
  obtain ⟨v, hv, hhas⟩ := Inv.lookup_spec h hhash hkey
  rw [hv]
  constructor
  · intro hnot
    by_contra hne
    have hnil : v ≠ .nil := fun heq => hne (by rw [heq])
    exact hnot v ((hhas v).mpr ⟨rfl, hnil⟩)
  · intro heq w hw
    obtain ⟨rfl, hne⟩ := (hhas w).mp hw
    cases heq
    exact hne rfl

omit [LawfulNumber N] in
/-- A store under another key. -/
theorem store_has (hkey : ¬ luaORawequalObj key w = true)
    (hhas : ∀ k u, Has t' k u ↔ if luaORawequalObj key k = true then u = v ∧ u ≠ .nil else Has t k u) (u : TValue N) :
    Has t' w u ↔ Has t w u := by
  rw [hhas, if_neg hkey]

theorem Inv.placed_of_set (h : Inv hash t) (hhash : Consistent hash) (hdepth : 3 ≤ depth)
    (hset : Ltable.luaHSet hash depth t key = .ok (s, t')) : Placed hash t key (s, t') := by
  have hplaced := Inv.luaHSet_placed h hhash (proper_of_set hset) hdepth
  rw [hset] at hplaced
  cases hplaced with
  | ok hplaced => exact hplaced

/-- A value can be stored where `luaH_set` has come to. -/
theorem Inv.write_after_set (h : Inv hash t) (hhash : Consistent hash) (hdepth : 3 ≤ depth) {t1 : Ltable.Table N}
    (hset : Ltable.luaHSet hash depth t key = .ok (s, t1)) (v : TValue N) :
    ∃ t2, t1.write v s = .ok t2 ∧ Inv hash t2 ∧
      ∀ k u, Has t2 k u ↔ if luaORawequalObj key k = true then u = v ∧ u ≠ .nil else Has t k u := by
  have hplaced := Inv.placed_of_set h hhash hdepth hset
  obtain ⟨t2, hwrite, hinv, hhas⟩ := Inv.write_kept hplaced.inv hplaced.kept v
  refine ⟨t2, hwrite, hinv, fun k u => ?_⟩
  rw [hhas]
  split_ifs
  · exact Iff.rfl
  · exact hplaced.has k u

/-- A store after `luaH_set`, of which the flags are not known. -/
theorem Inv.stored (h : Inv hash t) (hhash : Consistent hash) (hdepth : 3 ≤ depth) {t1 : Ltable.Table N}
    (hset : Ltable.luaHSet hash depth t key = .ok (s, t1)) (hwrite : t1.write v s = .ok t') :
    Inv hash t' ∧ ∀ k u, Has t' k u ↔ if luaORawequalObj key k = true then u = v ∧ u ≠ .nil else Has t k u := by
  obtain ⟨t2, hwrite2, hstored⟩ := Inv.write_after_set h hhash hdepth hset v
  obtain rfl := Except.ok.inj (hwrite2.symm.trans hwrite)
  exact hstored

theorem Inv.get_of_kept (h : Inv hash t) (hhash : Consistent hash) (hkey : key ≠ .nil) (hkept : Ltable.Kept t key (some s)) :
    luaHGet hash t key = some s := by
  have hget := Inv.get_kept h hhash hkey
  generalize luaHGet hash t key = o at hget
  cases hkept with
  | array hin =>
    cases hget with
    | array => rfl
    | node hout => omega
    | none hout => omega
  | @node i k hout hi hk =>
    cases hget with
    | array hin => omega
    | @node j k' _ hj hk' => rw [h.keys j i k' k hj hi (rawequal_trans hk' (rawequal_symm hk))]
    | none _ hnone =>
      rw [hnone i k hi] at hk
      cases hk

/-- Before the store, the place of a key has the value that it had. -/
theorem Placed.read {r : Slot × Ltable.Table N} (h : Placed hash t key r) (hinv : Inv hash t) (hhash : Consistent hash)
    (hkey : key ≠ .nil) : ∃ v, r.2.read r.1 = .ok v ∧ lookup hash t key = .ok v := by
  obtain ⟨v, hv, hhas⟩ := Inv.lookup_spec h.inv hhash hkey
  obtain ⟨v', hv', hhas'⟩ := Inv.lookup_spec hinv hhash hkey
  have hiff : ∀ w, (w = v ∧ w ≠ .nil) ↔ (w = v' ∧ w ≠ .nil) := fun w =>
    (hhas w).symm.trans ((h.has key w).trans (hhas' w))
  have heq : v' = v := by
    by_cases hnil : v = .nil
    · by_contra hne
      have hv'nil : v' ≠ .nil := fun heq => hne (heq.trans hnil.symm)
      exact hne ((hiff v').mpr ⟨rfl, hv'nil⟩).1
    · exact ((hiff v).mp ⟨rfl, hnil⟩).1.symm
  refine ⟨v, ?_, hv'.trans (by rw [heq])⟩
  rw [lookup, Inv.get_of_kept h.inv hhash hkey h.kept] at hv
  exact hv

end Fields

/-! ## Steps -/

section Steps

variable [LuaNumber N] [LawfulNumber N] {hash : TValue N → Nat} {depth : Nat} {g g' : State N} {t : Table N}
  {key val : TValue N} {r : Nat} {event : TMS} {tm : Option (TValue N)}

omit [LawfulNumber N] in
theorem coherent_cleared {fields : Ltable.Table N} (h : Inv hash fields) (mt : Option Nat) :
    Coherent hash ⟨fields, 0, mt⟩ :=
  ⟨h, fun event hbit => by simp at hbit⟩

omit [LawfulNumber N] in
theorem coherent_setTable (h : ∀ i, Coherent hash (g.table i)) (ht : Coherent hash t) (i : Nat) :
    Coherent hash ((g.setTable r t).table i) := by
  by_cases hi : i = r
  · rw [hi, State.setTable_self]
    exact ht
  · rw [State.setTable_ne _ _ _ _ hi]
    exact h i

omit [LawfulNumber N] in
theorem inv_setTable (h : ∀ i, Coherent hash (g.table i)) (ht : Inv hash t.fields) (i : Nat) :
    Inv hash ((g.setTable r t).table i).fields := by
  by_cases hi : i = r
  · rw [hi, State.setTable_self]
    exact ht
  · rw [State.setTable_ne _ _ _ _ hi]
    exact (h i).inv

omit [LawfulNumber N] in
theorem coherent_new {narray nhash : Nat} {fields : Ltable.Table N} (hsize : narray < 2 ^ 31)
    (h : luaHNew narray nhash = .ok fields) : Coherent hash ⟨fields, 255, none⟩ := by
  obtain ⟨hinv, hholds⟩ : Inv hash fields ∧ Holds fields fun _ => .nil := luaHNew_spec hsize h
  refine ⟨hinv, fun event _ w hw => ?_⟩
  have hproper : Proper (.string (tmname event) : TValue N) := ⟨by simp, by simp [luaORawequalObj]⟩
  obtain ⟨rfl, hne⟩ := (hholds _ w hproper).mp hw
  exact hne rfl

/-- What `fasttm` comes to at a metatable whose field for the event is `v`. -/
structure Found (hash : TValue N → Nat) (g g' : State N) (r : Nat) (event : TMS) (v : TValue N) : Prop where
  value : lookup hash (g.table r).fields (.string (tmname event)) = .ok v
  coherent : ∀ i, Coherent hash (g'.table i)
  fields : (g'.table r).fields = (g.table r).fields
  flags : ∀ i < 8, (g'.table r).flags.getLsbD i = ((g.table r).flags.getLsbD i || (v.isNil && event.ctorIdx = i))
  others : ∀ i, i ≠ r → g'.table i = g.table i

/-- `fasttm` tells what is there, and what it remembers is right. -/
theorem fasttm_spec (h : ∀ i, Coherent hash (g.table i)) (hhash : Consistent hash) (r : Nat) (event : TMS) :
    ∃ v g', fasttm hash g (some r) event = .ok (if v.isNil then none else some v, g') ∧ Found hash g g' r event v := by
  have hne : (.string (tmname event) : TValue N) ≠ .nil := by simp
  obtain ⟨v, hv, -⟩ := Inv.lookup_spec (h r).inv hhash hne
  have hfound : (g.table r).fields.found (luaHGetstr hash (g.table r).fields (tmname event)) = .ok v := hv
  by_cases hbit : (g.table r).flags.getLsbD event.ctorIdx = true
  · have hnil := (Inv.absent_iff (h r).inv hhash hne).mp ((h r).absent event hbit)
    refine ⟨.nil, g, ?_, hnil, h, rfl, fun i _ => ?_, fun _ _ => rfl⟩
    · simp only [fasttm, if_pos hbit]
      rfl
    · by_cases hi : event.ctorIdx = i
      · rw [← hi, hbit, Bool.true_or]
      · simp [hi]
  · by_cases hnil : v = .nil
    · subst hnil
      refine ⟨.nil, g.setTable r { g.table r with flags := (g.table r).flags ||| BitVec.twoPow 8 event.ctorIdx }, ?_, hv,
        coherent_setTable h ⟨(h r).inv, fun event' hbit' => ?_⟩, ?_, fun i hi => ?_,
        fun i hi => State.setTable_ne _ _ _ _ hi⟩
      · simp only [fasttm, if_neg hbit, luaTGettm, hfound]
        rfl
      · rw [BitVec.getLsbD_or, Bool.or_eq_true] at hbit'
        rcases hbit' with hold | hnew
        · exact (h r).absent event' hold
        · rw [BitVec.getLsbD_twoPow, Bool.and_eq_true, decide_eq_true_iff, decide_eq_true_iff] at hnew
          rw [← ctorIdx_injective hnew.2]
          exact (Inv.absent_iff (h r).inv hhash hne).mpr hv
      · rw [State.setTable_self]
      · rw [State.setTable_self]
        change ((g.table r).flags ||| BitVec.twoPow 8 event.ctorIdx).getLsbD i = _
        rw [BitVec.getLsbD_or, BitVec.getLsbD_twoPow]
        by_cases heq : event.ctorIdx = i
        · simp [heq, hi, TValue.isNil]
        · simp [heq]
    · have hfalse : v.isNil = false := by
        rw [← Bool.not_eq_true, TValue.isNil_iff]
        exact hnil
      refine ⟨v, g, ?_, hv, h, rfl, fun i _ => ?_, fun _ _ => rfl⟩
      · simp only [fasttm, if_neg hbit, luaTGettm, hfound, Loop.ok_bind, hfalse]
        rfl
      · simp [hfalse]

/-- `luaV_settable` and `lua_rawset` begin with `luaH_set`. -/
theorem luaHSet_spec (h : ∀ i, Coherent hash (g.table i)) (hhash : Consistent hash) (hdepth : 3 ≤ depth) {s : Slot}
    (hrun : luaHSet hash depth g r key = .ok (s, g')) :
    ∃ t1, Ltable.luaHSet hash depth (g.table r).fields key = .ok (s, t1) ∧
      g' = g.setTable r { g.table r with fields := t1, flags := 0 } ∧ Placed hash (g.table r).fields key (s, t1) ∧
      key ≠ .nil := by
  obtain ⟨⟨s1, t1⟩, hset, hrun⟩ := Loop.ok_of_bind hrun
  cases hrun
  exact ⟨t1, hset, rfl, Inv.placed_of_set (h r).inv hhash hdepth hset, (proper_of_set hset).1⟩

theorem rawset_coherent (h : ∀ i, Coherent hash (g.table i)) (hhash : Consistent hash) (hdepth : 3 ≤ depth)
    (hrun : luaRawset hash depth g r key val = .ok g') (i : Nat) : Coherent hash (g'.table i) := by
  obtain ⟨⟨s, g1⟩, hset, hrun⟩ := Loop.ok_of_bind hrun
  obtain ⟨t1, hset1, rfl, hplaced, -⟩ := luaHSet_spec h hhash hdepth hset
  obtain ⟨t2, hwrite, hinv, -⟩ := Inv.write_after_set (h r).inv hhash hdepth hset1 val
  simp only [setobj, State.setTable_self, hwrite, Loop.ok_bind] at hrun
  cases hrun
  exact coherent_setTable (coherent_setTable h (coherent_cleared hplaced.inv _)) (coherent_cleared hinv _) i

/-- The store to a table that is its own metatable, when `fasttm` has found no `__newindex` in it. -/
theorem store_self_spec {g1 g2 : State N} {t1 t2 : Ltable.Table N} {s : Slot}
    (hfound : Found hash g1 g2 r TM_NEWINDEX .nil) (hfields1 : (g1.table r).fields = t1) (hflags1 : (g1.table r).flags = 0)
    (hself : (g.table r).metatable = some r) (hplaced : Placed hash (g.table r).fields key (s, t1))
    (hhash : Consistent hash) (hold : lookup hash (g.table r).fields key = .ok .nil)
    (hwrite : t1.write val s = .ok t2) (hinv2 : Inv hash t2)
    (hhas2 : ∀ k u, Has t2 k u ↔ if luaORawequalObj key k = true then u = val ∧ u ≠ .nil else Has (g.table r).fields k u)
    (hrun : (setobj g2 r s val >>= fun g => .ok (none, g)) = .ok (tm, g')) :
    (∀ i, Inv hash (g'.table i).fields) ∧ ((∀ i, Coherent hash (g'.table i)) ↔ ¬ Hides hash g r key val) := by
  have hfields : (g2.table r).fields = t1 := hfound.fields.trans hfields1
  have hflags : ∀ i < 8, (g2.table r).flags.getLsbD i = decide (TM_NEWINDEX.ctorIdx = i) := by
    intro i hi
    rw [hfound.flags i hi, hflags1]
    simp [TValue.isNil]
  simp only [setobj, hfields, hwrite, Loop.ok_bind] at hrun
  cases hrun
  refine ⟨inv_setTable hfound.coherent hinv2, ?_⟩
  constructor
  · rintro hcoherent ⟨-, rfl, hval, -⟩
    have hafter := hcoherent r
    rw [State.setTable_self] at hafter
    have hbit : (g2.table r).flags.getLsbD TM_NEWINDEX.ctorIdx = true := by
      rw [hflags _ (by decide)]
      rfl
    refine hafter.absent TM_NEWINDEX hbit val ((hhas2 _ val).mpr ?_)
    rw [if_pos (by simp [luaORawequalObj])]
    exact ⟨rfl, hval⟩
  · intro hhides
    refine coherent_setTable hfound.coherent ⟨hinv2, fun event hbit w hw => ?_⟩
    change (g2.table r).flags.getLsbD event.ctorIdx = true at hbit
    have hlt : event.ctorIdx < 8 := by
      by_contra hge
      rw [BitVec.getLsbD_of_ge _ _ (Nat.le_of_not_lt hge)] at hbit
      cases hbit
    rw [hflags _ hlt, decide_eq_true_iff] at hbit
    obtain rfl := ctorIdx_injective hbit
    rw [hhas2] at hw
    split_ifs at hw with hkey
    · -- The name has been stored, and its value is nil.
      have heq : key = .string (tmname TM_NEWINDEX) := by
        cases key <;> simp_all [luaORawequalObj]
      by_cases hval : val = .nil
      · exact hw.2 (hw.1.trans hval)
      · exact hhides ⟨hself, heq, hval, hold⟩
    · have hvalue := hfound.value
      rw [hfields1] at hvalue
      exact (Inv.absent_iff hplaced.inv hhash (by simp)).mpr hvalue w ((hplaced.has _ w).mpr hw)

/-- A pass of `luaV_settable` keeps the invariant of the tables. What is known of them stays right if and only if the
pass does not store the `__newindex` of a table that is its own metatable, where there was none. -/
theorem settablePass_spec (h : ∀ i, Coherent hash (g.table i)) (hhash : Consistent hash) (hdepth : 3 ≤ depth)
    (hrun : settablePass hash depth g r key val = .ok (tm, g')) :
    (∀ i, Inv hash (g'.table i).fields) ∧ ((∀ i, Coherent hash (g'.table i)) ↔ ¬ Hides hash g r key val) := by
  have hsettled : (∀ i, Coherent hash (g'.table i)) → ¬ Hides hash g r key val →
      (∀ i, Inv hash (g'.table i).fields) ∧ ((∀ i, Coherent hash (g'.table i)) ↔ ¬ Hides hash g r key val) :=
    fun hcoherent hhides => ⟨fun i => (hcoherent i).inv, iff_of_true hcoherent hhides⟩
  obtain ⟨⟨s, g1⟩, hset, hrun⟩ := Loop.ok_of_bind hrun
  obtain ⟨t1, hset1, hg1, hplaced, hkey⟩ := luaHSet_spec h hhash hdepth hset
  obtain ⟨t2, hwrite, hinv2, hhas2⟩ := Inv.write_after_set (h r).inv hhash hdepth hset1 val
  obtain ⟨oldval, hread, hold⟩ := Placed.read hplaced (h r).inv hhash hkey
  have htable1 : g1.table r = { g.table r with fields := t1, flags := 0 } := by
    rw [hg1, State.setTable_self]
  have h1 : ∀ i, Coherent hash (g1.table i) := by
    rw [hg1]
    exact coherent_setTable h (coherent_cleared hplaced.inv _)
  simp only [htable1, hread, Loop.ok_bind] at hrun
  by_cases hnil : oldval = .nil
  · subst hnil
    rw [if_pos (by rfl)] at hrun
    cases hmt : (g.table r).metatable with
    | none =>
      have hfast : fasttm hash g1 none TM_NEWINDEX = .ok (none, g1) := rfl
      simp only [hmt, hfast, Loop.ok_bind, setobj, htable1, hwrite] at hrun
      cases hrun
      refine hsettled (coherent_setTable h1 (coherent_cleared hinv2 _)) fun hhides => ?_
      rw [hhides.1] at hmt
      cases hmt
    | some mt =>
      obtain ⟨v, g2, hfast, hfound⟩ := fasttm_spec h1 hhash mt TM_NEWINDEX
      simp only [hmt, hfast, Loop.ok_bind] at hrun
      by_cases hv : v = .nil
      · subst hv
        rw [if_pos (by rfl)] at hrun
        by_cases hself : mt = r
        · subst hself
          exact store_self_spec hfound (by rw [htable1]) (by rw [htable1]) hmt hplaced hhash hold hwrite hinv2 hhas2 hrun
        · have htable2 : g2.table r = g1.table r := hfound.others r (Ne.symm hself)
          simp only [setobj, htable2, htable1, hwrite, Loop.ok_bind] at hrun
          cases hrun
          refine hsettled (coherent_setTable hfound.coherent (coherent_cleared hinv2 _)) fun hhides => hself ?_
          exact Option.some_inj.mp (hmt.symm.trans hhides.1)
      · -- A tag method has been found.
        have hfalse : ¬ v.isNil = true := by rwa [TValue.isNil_iff]
        rw [if_neg hfalse] at hrun
        cases hrun
        refine hsettled hfound.coherent fun hhides => hv ?_
        obtain ⟨hmeta, rfl, -, hnone⟩ := hhides
        obtain rfl := Option.some_inj.mp (hmt.symm.trans hmeta)
        have habsent := (Inv.absent_iff (h mt).inv hhash hkey).mpr hnone
        have hnone1 := (Inv.absent_iff hplaced.inv hhash hkey).mp fun w hw => habsent w ((hplaced.has _ w).mp hw)
        have hvalue := hfound.value
        rw [htable1] at hvalue
        exact Except.ok.inj (hvalue.symm.trans hnone1)
  · -- The key has a value already, and no tag method is looked for.
    have hfalse : ¬ oldval.isNil = true := by rwa [TValue.isNil_iff]
    rw [if_neg hfalse] at hrun
    simp only [setobj, htable1, hwrite, Loop.ok_bind] at hrun
    cases hrun
    refine hsettled (coherent_setTable h1 (coherent_cleared hinv2 _)) fun hhides => hnil ?_
    exact Except.ok.inj (hold.symm.trans hhides.2.2.2)

/-! ## Runs -/

omit [LawfulNumber N] in
theorem Start.coherent (h : Start g) (i : Nat) : Coherent hash (g.table i) := by
  obtain ⟨fields, hnew, htable⟩ := h i
  rw [htable]
  exact coherent_new (by decide) hnew

omit [LawfulNumber N] in
/-- A store under a name that is no tag method keeps what is known of them. -/
theorem coherent_flags {fields : Ltable.Table N} {flags : BitVec 8} (h : Coherent hash t) (hinv : Inv hash fields)
    (hhas : ∀ (event : TMS) w, Has fields (.string (tmname event)) w ↔ Has t.fields (.string (tmname event)) w)
    (hflags : flags = t.flags ∨ flags = 0) (mt : Option Nat) : Coherent hash ⟨fields, flags, mt⟩ := by
  rcases hflags with rfl | rfl
  · exact ⟨hinv, fun event hbit w hw => h.absent event hbit w ((hhas event w).mp hw)⟩
  · exact coherent_cleared hinv mt

theorem Step.coherent (hstep : Step hash depth g g') (hhash : Consistent hash) (hdepth : 3 ≤ depth)
    (h : ∀ i, Coherent hash (g.table i)) : ∀ i, Coherent hash (g'.table i) := by
  cases hstep with
  | new hsize hnew => exact coherent_setTable h (coherent_new hsize hnew)
  | setmetatable r mt => exact coherent_setTable h ⟨(h r).inv, (h r).absent⟩
  | setothers => exact h
  | @fasttm et event tm _ hrun =>
    cases et with
    | none =>
      cases hrun
      exact h
    | some r =>
      obtain ⟨v, g1, hfast, hfound⟩ := fasttm_spec h hhash r event
      rw [hfast] at hrun
      cases hrun
      exact hfound.coherent
  | rawset hrun => exact rawset_coherent h hhash hdepth hrun
  | settable hrun hhides => exact (settablePass_spec h hhash hdepth hrun).2.mpr hhides
  | @setnum r key s val _ _ _ hset hwrite hflags =>
    rw [luaHSetnum_eq] at hset
    obtain ⟨hinv, hhas⟩ := Inv.stored (h r).inv hhash hdepth hset hwrite
    exact coherent_setTable h
      (coherent_flags (h r) hinv (fun event => store_has (by simp [luaORawequalObj]) hhas) hflags _)
  | @setcount r s val _ _ _ hset hwrite hflags =>
    rw [luaHSetstr_eq] at hset
    obtain ⟨hinv, hhas⟩ := Inv.stored (h r).inv hhash hdepth hset hwrite
    have hname : ∀ event : TMS, ¬ luaORawequalObj (.string (bytes "n") : TValue N) (.string (tmname event)) = true := by
      intro event
      have hne : bytes "n" ≠ tmname event := by cases event <;> decide
      simpa [luaORawequalObj] using hne
    exact coherent_setTable h (coherent_flags (h r) hinv (fun event => store_has (hname event) hhas) hflags _)
  | @grow r nasize _ _ hsize hgrows hresize hflags =>
    have hyields := Elements.resizearray (h r).inv.elements hhash (Nat.le_trans (by decide) hdepth) hsize
      (Sound.live_le (h r).inv.sound) fun hlt => absurd hgrows (Nat.not_le_of_lt hlt)
    rw [hresize] at hyields
    cases hyields with
    | ok hres => exact coherent_setTable h (coherent_flags (h r) hres.inv (fun _ _ => hres.has _ _) hflags _)
  | @clear r key s _ hkey hget hwrite =>
    have hkept := Inv.get_kept (h r).inv hhash hkey
    rw [hget] at hkept
    obtain ⟨t2, hwrite2, hinv, hhas⟩ := Inv.write_kept (h r).inv hkept .nil
    obtain rfl := Except.ok.inj (hwrite2.symm.trans hwrite)
    refine coherent_setTable h ⟨hinv, fun event hbit w hw => ?_⟩
    rw [hhas] at hw
    split_ifs at hw
    · exact hw.2 hw.1
    · exact (h r).absent event hbit w hw

theorem Reached.coherent (h : Reached hash depth g) (hhash : Consistent hash) (hdepth : 3 ≤ depth) :
    ∀ i, Coherent hash (g.table i) :=
  Run.Reach.inv _ (fun _ hstart => hstart.coherent) (fun _ _ hg hstep => hstep.coherent hhash hdepth hg) h

end Steps

/-! ## What is found -/

section Finding

variable [LuaNumber N] [LawfulNumber N] {hash : TValue N → Nat} {depth : Nat} {g g' : State N} {key val t : TValue N}
  {r : Nat} {tm : Option (TValue N)} {ending : Ending N}

omit [LuaNumber N] [LawfulNumber N] in
theorem setobj_table {s : Slot} (hrun : setobj g r s val = .ok g') :
    ∃ fields, (g.table r).fields.write val s = .ok fields ∧ g' = g.setTable r { g.table r with fields := fields } := by
  obtain ⟨fields, hwrite, hrun⟩ := Loop.ok_of_bind hrun
  cases hrun
  exact ⟨fields, hwrite, rfl⟩

omit [LuaNumber N] [LawfulNumber N] in
theorem metatable_setTable (g : State N) (r : Nat) (fields : Ltable.Table N) (flags : BitVec 8) (i : Nat) :
    ((g.setTable r ⟨fields, flags, (g.table r).metatable⟩).table i).metatable = (g.table i).metatable := by
  by_cases hi : i = r
  · rw [hi, State.setTable_self]
  · rw [State.setTable_ne _ _ _ _ hi]

omit [LuaNumber N] [LawfulNumber N] in
/-- `fasttm` changes no metatable. -/
theorem fasttm_metatable {et : Option Nat} {event : TMS} (hrun : fasttm hash g et event = .ok (tm, g')) (i : Nat) :
    (g'.table i).metatable = (g.table i).metatable := by
  cases et with
  | none =>
    cases hrun
    rfl
  | some r =>
    simp only [fasttm] at hrun
    split_ifs at hrun
    · cases hrun
      rfl
    · obtain ⟨v, -, hrun⟩ := Loop.ok_of_bind hrun
      split_ifs at hrun
      · cases hrun
        exact metatable_setTable g r _ _ i
      · cases hrun
        rfl

omit [LawfulNumber N] in
/-- A pass of `luaV_settable` changes no metatable. -/
theorem settablePass_metatable (hrun : settablePass hash depth g r key val = .ok (tm, g')) (i : Nat) :
    (g'.table i).metatable = (g.table i).metatable := by
  obtain ⟨⟨s, g1⟩, hset, hrun⟩ := Loop.ok_of_bind hrun
  obtain ⟨⟨s1, t1⟩, -, hset⟩ := Loop.ok_of_bind hset
  cases hset
  obtain ⟨oldval, -, hrun⟩ := Loop.ok_of_bind hrun
  have h1 : ∀ {fields : Ltable.Table N} {g2 g3 : State N}, (∀ i, (g2.table i).metatable = (g.table i).metatable) →
      g3 = g2.setTable r { g2.table r with fields := fields } → ∀ i, (g3.table i).metatable = (g.table i).metatable := by
    rintro fields g2 g3 h2 rfl i
    exact (metatable_setTable g2 r _ _ i).trans (h2 i)
  split_ifs at hrun
  · obtain ⟨⟨tm1, g2⟩, hfast, hrun⟩ := Loop.ok_of_bind hrun
    have h2 : ∀ i, (g2.table i).metatable = (g.table i).metatable := fun i =>
      (fasttm_metatable hfast i).trans (metatable_setTable g r _ _ i)
    cases tm1 with
    | some tm1 =>
      cases hrun
      exact h2 i
    | none =>
      obtain ⟨g3, hstore, hrun⟩ := Loop.ok_of_bind hrun
      obtain ⟨fields, -, hg3⟩ := setobj_table hstore
      cases hrun
      exact h1 h2 hg3 i
  · obtain ⟨g3, hstore, hrun⟩ := Loop.ok_of_bind hrun
    obtain ⟨fields, -, hg3⟩ := setobj_table hstore
    cases hrun
    exact h1 (metatable_setTable g r _ _) hg3 i

omit [LawfulNumber N] in
/-- `luaV_settable` takes its passes one after the other. -/
theorem luaVSettable_reached (h : Reached hash depth g) (hrun : luaVSettable hash depth g t key val = .ok (ending, g'))
    (hcareful : key = .string (tmname TM_NEWINDEX) → val = .nil ∨ ∀ i, (g.table i).metatable ≠ some i) :
    Reached hash depth g' := by
  unfold luaVSettable at hrun
  generalize MAXTAGLOOP = n at hrun
  induction n generalizing t g with
  | zero =>
    rw [settableLoop] at hrun
    cases hrun
    exact h
  | succ n ih =>
    by_cases htable : ∃ i, t = .table i
    · obtain ⟨i, rfl⟩ := htable
      rw [settableLoop] at hrun
      obtain ⟨⟨tm, g1⟩, hpass, hrun⟩ := Loop.ok_of_bind hrun
      have hhides : ¬ Hides hash g i key val := fun hhides =>
        (hcareful hhides.2.1).elim hhides.2.2.1 fun hself => hself i hhides.1
      have h1 : Reached hash depth g1 := .step h (.settable hpass hhides)
      cases tm with
      | none =>
        cases hrun
        exact h1
      | some tm =>
        dsimp only at hrun
        split_ifs at hrun
        · cases hrun
          exact h1
        · refine ih h1 (fun hkey => (hcareful hkey).imp_right fun hself i => ?_) hrun
          rw [settablePass_metatable hpass]
          exact hself i
    · rw [settableLoop] at hrun
      · split_ifs at hrun
        · cases hrun
          exact h
        · cases hrun
          exact h
        · exact ih h hcareful hrun
      · exact fun i heq => htable ⟨i, heq⟩

/-- `fasttm` finds the tag method that is in a metatable, and none where there is none. -/
def Finds (hash : TValue N → Nat) (g : State N) : Prop :=
  ∀ (r : Nat) (event : TMS), ∃ v g', lookup hash (g.table r).fields (.string (tmname event)) = .ok v ∧
    fasttm hash g (some r) event = .ok (if v.isNil then none else some v, g')

theorem finds_iff (hinv : ∀ i, Inv hash (g.table i).fields) (hhash : Consistent hash) :
    Finds hash g ↔ ∀ i, Coherent hash (g.table i) := by
  constructor
  · intro h i
    refine ⟨hinv i, fun event hbit => ?_⟩
    obtain ⟨v, g', hv, hfast⟩ := h i event
    have hnone : fasttm hash g (some i) event = .ok (none, g) := by
      simp only [fasttm, if_pos hbit]
    have hnil : v = .nil := by
      rw [← TValue.isNil_iff]
      by_contra hv'
      rw [hnone, if_neg hv'] at hfast
      cases hfast
    exact (Inv.absent_iff (hinv i) hhash (by simp)).mpr (hnil ▸ hv)
  · intro h r event
    obtain ⟨v, g', hfast, hfound⟩ := fasttm_spec h hhash r event
    exact ⟨v, g', hfound.value, hfast⟩

/-- Whatever has been done to tables, as long as no assignment has given its `__newindex` to a table that is its own
metatable and had none. -/
theorem fasttm_finds (hhash : Consistent hash) (hdepth : 3 ≤ depth) (h : Reached hash depth g) : Finds hash g :=
  (finds_iff (fun i => (h.coherent hhash hdepth i).inv) hhash).mpr (h.coherent hhash hdepth)

/-- After a pass of `luaV_settable` tag methods are found if and only if the pass has not hidden one. -/
theorem settable_finds_iff (hhash : Consistent hash) (hdepth : 3 ≤ depth) (h : Reached hash depth g)
    (hrun : settablePass hash depth g r key val = .ok (tm, g')) : Finds hash g' ↔ ¬ Hides hash g r key val := by
  obtain ⟨hinv, hcoherent⟩ := settablePass_spec (h.coherent hhash hdepth) hhash hdepth hrun
  exact (finds_iff hinv hhash).trans hcoherent

end Finding

/-- A table that is its own metatable, with nothing in it. -/
def selfMeta (t : Ltable.Table Int) : State Int :=
  State.setTable ⟨fun _ => ⟨t, 255, none⟩, fun _ => none, fun _ => none⟩ 0 ⟨t, 255, some 0⟩

theorem selfMeta_reached {t : Ltable.Table Int} (h : luaHNew 0 0 = .ok t) : Reached (fun _ => 0) 3 (selfMeta t) :=
  .step (.start fun _ => ⟨t, h, rfl⟩) (.setmetatable 0 (some 0))

theorem fasttm_finds_selfMeta : ∃ (t : Ltable.Table Int) (g : State Int), luaHNew 0 0 = .ok t ∧
    luaRawset (fun _ => 0) 3 (selfMeta t) 0 (.string (tmname TM_NEWINDEX)) (.boolean true) = .ok g ∧
    Finds (fun _ => 0) g := by
  obtain ⟨t, g, hnew, hrun⟩ : ∃ (t : Ltable.Table Int) (g : State Int), luaHNew 0 0 = .ok t ∧
      luaRawset (fun _ => 0) 3 (selfMeta t) 0 (.string (tmname TM_NEWINDEX)) (.boolean true) = .ok g :=
    ⟨_, _, rfl, rfl⟩
  have hreached := Run.Reach.step (selfMeta_reached hnew) (.rawset hrun)
  exact ⟨t, g, hnew, hrun, fasttm_finds (fun _ _ _ => rfl) (Nat.le_refl 3) hreached⟩

/-- An assignment to the same field of the same table hides it. -/
theorem settable_hides_selfMeta : ∃ (t : Ltable.Table Int) (g' : State Int), luaHNew 0 0 = .ok t ∧
    settablePass (fun _ => 0) 3 (selfMeta t) 0 (.string (tmname TM_NEWINDEX)) (.boolean true) = .ok (none, g') ∧
    ¬ Finds (fun _ => 0) g' := by
  obtain ⟨t, g', hnew, hrun, hnil⟩ : ∃ (t : Ltable.Table Int) (g' : State Int), luaHNew 0 0 = .ok t ∧
      settablePass (fun _ => 0) 3 (selfMeta t) 0 (.string (tmname TM_NEWINDEX)) (.boolean true) = .ok (none, g') ∧
      lookup (fun _ => 0) t (.string (tmname TM_NEWINDEX)) = .ok .nil := ⟨_, _, rfl, rfl, rfl⟩
  refine ⟨t, g', hnew, hrun, fun hfinds => ?_⟩
  have hnot := (settable_finds_iff (fun _ _ _ => rfl) (Nat.le_refl 3) (selfMeta_reached hnew) hrun).mp hfinds
  exact hnot ⟨rfl, rfl, by simp, hnil⟩

end UgmeeLua.TagCache

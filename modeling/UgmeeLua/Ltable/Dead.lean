import UgmeeLua.Ltable.Maps

namespace UgmeeLua.Ltable

open Scatter Ltable.Table

variable {N : Type}

/-- `iscollectable`. -/
def iscollectable : TValue N → Bool
  | .string _ | .table _ | .function _ | .userdata _ | .thread _ => true
  | _ => false

/-- A table some of whose keys are dead: of such a key nothing is left but the address of its object
(`dead`). The key that the node had stays in `table`, where only the proofs look at it. -/
structure Aged (N : Type) where
  table : Table N
  dead : Nat → Option Nat

/-- Where the objects are; a value without an object that is allocated has no address. -/
abbrev Gcvalue (N : Type) := TValue N → Option Nat

/-- Objects that are allocated at one time have different addresses. -/
def Gcvalue.Apart (gcvalue : Gcvalue N) : Prop :=
  ∀ a b p, iscollectable a = true → iscollectable b = true → gcvalue a = some p →
    gcvalue b = some p → a = b

namespace Aged

/-- The table with the keys that can be told apart; a dead key is equal to none. -/
def seen (a : Aged N) : Table N :=
  { a.table with
    node := fun i =>
      if (a.dead i).isSome then { a.table.node i with key := .nil } else a.table.node i }

/-- `removeentry`; the value of the node is nil. -/
def removeentry (gcvalue : Gcvalue N) (a : Aged N) (i : Nat) : Aged N :=
  match a.dead i with
  | some _ => a
  | none =>
    if iscollectable (a.table.node i).key then
      { a with dead := fun j => if j = i then gcvalue (a.table.node i).key else a.dead j }
    else a

variable [LuaNumber N]

/-- `luaO_rawequalObj(key2tval(n), key) || (ttype(gkey(n)) == LUA_TDEADKEY && ...)`. -/
def isKey (gcvalue : Gcvalue N) (a : Aged N) (key : TValue N) (i : Nat) : Bool :=
  match a.dead i with
  | none => luaORawequalObj (a.table.node i).key key
  | some p => iscollectable key && gcvalue key = some p

end Aged

/-- A number that must be one of the type `int`. -/
def cInt (i : Int) : Except Failure Int :=
  if -2 ^ 31 ≤ i ∧ i < 2 ^ 31 then .ok i else .error .undefined

/-- The first loop of `luaH_next`, over elements of the array. -/
def nextArray [LuaNumber N] (t : Table N) : List Nat → Except Failure (Option (TValue N × TValue N))
  | [] => .ok none
  | i :: is => do
    let v ← t.read (.array i)
    if v.isNil then nextArray t is
    else .ok (some (.number (castNum (BitVec.ofNat 32 (i + 1))), v))

/-- The second loop of `luaH_next`, over nodes. -/
def nextNode (t : Table N) : List Nat → Option (TValue N × TValue N)
  | [] => none
  | i :: is => if (t.node i).val.isNil then nextNode t is else some ((t.node i).key, (t.node i).val)

namespace Aged

variable [LuaNumber N] (hash : TValue N → Nat)

def findindex (gcvalue : Gcvalue N) (a : Aged N) (key : TValue N) : Except Failure Int :=
  match key with
  | .nil => .ok (-1)
  | _ =>
    let i := (arrayindex key).toInt
    if 0 < i ∧ i ≤ a.table.sizearray then .ok (i - 1)
    else
      match find a.table.nextAt (a.isKey gcvalue key) a.table.sizenode
          (mainposition hash a.table key) with
      | some n => cInt (n + a.table.sizearray)
      | none => .error (.raised "invalid key to 'next'")

/-- `luaH_next`: the next key and its value, if there is one. -/
def luaHNext (gcvalue : Gcvalue N) (a : Aged N) (key : TValue N) :
    Except Failure (Option (TValue N × TValue N)) := do
  let i ← findindex hash gcvalue a key
  let i ← cInt (i + 1)
  let size := a.table.sizearray
  match ← nextArray a.table (List.range' i.toNat (size - i.toNat)) with
  | some r => .ok (some r)
  | none =>
    let i := i.toNat - size
    .ok (nextNode a.seen (List.range' i (a.table.sizenode - i)))

/-- `newkey`: a rehash makes the node vector anew, otherwise the key comes to one node. -/
def newkey (depth : Nat) (a : Aged N) (key : TValue N) : Except Failure (Slot × Aged N) := do
  let mp := mainposition hash a.table key
  let full := (!(a.table.node mp).val.isNil || a.table.isDummy) &&
    (getfreepos a.table a.table.lastfree).1.isNone
  let (s, t) ← Ltable.newkey hash depth a.table key
  .ok (s, ⟨t, fun i => if full || s = .node i then none else a.dead i⟩)

def luaHSet (depth : Nat) (a : Aged N) (key : TValue N) : Except Failure (Slot × Aged N) :=
  match luaHGet hash a.seen key with
  | some p => .ok (p, a)
  | none =>
    match key with
    | .nil => .error (.raised "table index is nil")
    | .number n =>
      if luaiNumisnan n then .error (.raised "table index is NaN") else a.newkey hash depth key
    | _ => a.newkey hash depth key

def luaHSetnum (depth : Nat) (a : Aged N) (key : BitVec 32) : Except Failure (Slot × Aged N) :=
  match luaHGetnum hash a.seen key with
  | some p => .ok (p, a)
  | none => a.newkey hash depth (.number (castNum key))

def luaHSetstr (depth : Nat) (a : Aged N) (key : Bytes) : Except Failure (Slot × Aged N) :=
  match luaHGetstr hash a.seen key with
  | some p => .ok (p, a)
  | none => a.newkey hash depth (.string key)

end Aged

/-- The collector at work on a table: keys of emptied nodes become dead keys, and objects come and go,
but not those of the keys that the table still has, nor that of the key `cur` of a traversal. -/
structure Collects (cur : TValue N) (gcvalue : Gcvalue N) (a : Aged N) (gcvalue' : Gcvalue N)
    (a' : Aged N) : Prop where
  entries : ∃ is : List Nat, (∀ i ∈ is, (a.table.node i).val = .nil) ∧
    a' = is.foldl (Aged.removeentry gcvalue) a
  apart : gcvalue'.Apart
  kept : ∀ k, k = cur ∨ (∃ i, a'.seen.keyAt i = some k) → gcvalue' k = gcvalue k

end UgmeeLua.Ltable

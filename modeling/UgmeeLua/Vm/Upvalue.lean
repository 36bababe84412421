import UgmeeLua.Core.Value

namespace UgmeeLua

/-- Where the pointer `v` of an upvalue leads: to a slot of the stack, or to the value in the upvalue
itself. -/
inductive Home where
  | stack (level : Nat)
  | own
  deriving DecidableEq, Repr

/-- `uv->v >= level`; the value of an upvalue is not on the stack. -/
def Home.atLeast (level : Nat) : Home → Bool
  | .stack l => level ≤ l
  | .own => false

structure UpVal (N : Type) where
  v : Home
  value : TValue N
  dead : Bool

variable {N : Type}

/-- The stack of a thread and the upvalues: `heap` by their addresses, `openupval` and `uvhead` in the
order of their links. -/
structure Upvalues (N : Type) where
  stack : Nat → TValue N
  heap : Nat → Option (UpVal N)
  openupval : List Nat
  uvhead : List Nat

namespace Upvalues

variable (L : Upvalues N)

def setStack (s : Nat) (v : TValue N) : Upvalues N :=
  { L with stack := fun t => if t = s then v else L.stack t }

def setHeap (u : Nat) (uv : Option (UpVal N)) : Upvalues N :=
  { L with heap := fun w => if w = u then uv else L.heap w }

/-- The comparison of an open upvalue with a level. -/
def atLeast (level u : Nat) : Bool := (L.heap u).any fun uv => uv.v.atLeast level

def isAt (level u : Nat) : Bool := (L.heap u).any fun uv => uv.v = .stack level

/-- `*uv->v`. -/
def read (u : Nat) : Option (TValue N) :=
  match L.heap u with
  | some uv =>
    match uv.v with
    | .stack l => some (L.stack l)
    | .own => some uv.value
  | none => none

/-- `setobj(L, uv->v, ra)`. -/
def write (u : Nat) (v : TValue N) : Upvalues N :=
  match L.heap u with
  | some uv =>
    match uv.v with
    | .stack l => L.setStack l v
    | .own => L.setHeap u (some { uv with value := v })
  | none => L

end Upvalues

/-- Where the search of `luaF_findupval` ends: at the upvalue, or at the place for a new one. -/
inductive Found where
  | upval (p : Nat)
  | place (before after : List Nat)
  deriving DecidableEq, Repr

def findupvalLoop (L : Upvalues N) (level : Nat) (before : List Nat) : List Nat → Found
  | [] => .place before []
  | p :: rest =>
    if L.atLeast level p then
      if L.isAt level p then .upval p else findupvalLoop L level (before ++ [p]) rest
    else .place before (p :: rest)

/-- `changewhite` of an upvalue that is dead. -/
def resurrect (L : Upvalues N) (p : Nat) : Upvalues N :=
  match L.heap p with
  | some uv => if uv.dead then L.setHeap p (some { uv with dead := false }) else L
  | none => L

/-- A new upvalue at `addr`, chained in its place. -/
def linkupval (L : Upvalues N) (level addr : Nat) (before after : List Nat) : Upvalues N :=
  { L.setHeap addr (some ⟨.stack level, .nil, false⟩) with
    openupval := before ++ addr :: after
    uvhead := addr :: L.uvhead }

/-- `luaF_findupval`; `addr` is where `luaM_new` puts the new upvalue. -/
def luaFFindupval (L : Upvalues N) (level addr : Nat) : Nat × Upvalues N :=
  match findupvalLoop L level [] L.openupval with
  | .upval p => (p, resurrect L p)
  | .place before after => (addr, linkupval L level addr before after)

def unlinkupval (L : Upvalues N) (u : Nat) : Upvalues N := { L with uvhead := L.uvhead.erase u }

/-- `luaF_freeupval`. -/
def luaFFreeupval (L : Upvalues N) (u : Nat) : Upvalues N :=
  let L := if (L.heap u).any fun uv => uv.v ≠ .own then unlinkupval L u else L
  L.setHeap u none

/-- The body of the loop of `luaF_close`, for an upvalue that has left the open list. -/
def closeUpval (L : Upvalues N) (u : Nat) : Upvalues N :=
  match L.heap u with
  | some uv =>
    if uv.dead then luaFFreeupval L u
    else
      let L := unlinkupval L u
      match uv.v with
      | .stack l => L.setHeap u (some { uv with value := L.stack l, v := .own })
      | .own => L.setHeap u (some { uv with v := .own })
  | none => L

def closeLoop (level : Nat) : List Nat → Upvalues N → Upvalues N
  | [], L => { L with openupval := [] }
  | u :: rest, L =>
    if L.atLeast level u then closeLoop level rest (closeUpval { L with openupval := rest } u)
    else { L with openupval := u :: rest }

/-- `luaF_close`. -/
def luaFClose (L : Upvalues N) (level : Nat) : Upvalues N := closeLoop level L.openupval L

/-- What `sweeplist` does to the open list of a thread when it comes to a dead upvalue. -/
def sweepUpval (L : Upvalues N) (u : Nat) : Upvalues N :=
  luaFFreeupval { L with openupval := L.openupval.erase u } u

end UgmeeLua

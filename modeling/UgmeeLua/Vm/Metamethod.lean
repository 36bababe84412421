import UgmeeLua.Core.Value

namespace UgmeeLua

/-- Tag methods, in the order of the enumeration. -/
inductive TMS where
  | TM_INDEX | TM_NEWINDEX | TM_GC | TM_MODE | TM_EQ
  | TM_ADD | TM_SUB | TM_MUL | TM_DIV | TM_MOD | TM_POW | TM_UNM | TM_LEN
  | TM_LT | TM_LE | TM_CONCAT | TM_CALL
  | TM_BOR | TM_BAND | TM_BXOR | TM_BRSHFT | TM_BLSHFT | TM_BNOT
  deriving DecidableEq, Repr

/-- The event names of `luaT_init`, in the order they have in the source. -/
def luaTEventname : List Bytes := [
  "__index", "__newindex",
  "__gc", "__mode", "__eq",
  "__add", "__sub", "__mul", "__div", "__mod",
  "__pow", "__unm", "__len", "__lt", "__le",
  "__concat", "__call",
  "__or", "__and", "__xor", "__shl", "__shr", "__not"].map bytes

/-- `G(L)->tmname[event]`, as `luaT_init` fills it. -/
def tmname (event : TMS) : Bytes := luaTEventname.getD event.ctorIdx []

variable {N : Type}

/-- What `luaT_gettmbyobj` reads of the heap: the metatables, by reference, and their fields. -/
structure Heap (N : Type) where
  tableMetatable : Nat → Option Nat
  userdataMetatable : Nat → Option Nat
  mt : LuaType → Option Nat
  getstr : Nat → Bytes → TValue N

/-- A heap without metatables. -/
def Heap.bare : Heap N := ⟨fun _ => none, fun _ => none, fun _ => none, fun _ _ => .nil⟩

def Heap.metatable (h : Heap N) : TValue N → Option Nat
  | .table r => h.tableMetatable r
  | .userdata r => h.userdataMetatable r
  | o => h.mt o.ttype

/-- The field of a value's metatable, nil without one. -/
def Heap.metafield (h : Heap N) (o : TValue N) (name : Bytes) : TValue N :=
  match h.metatable o with
  | some mt => h.getstr mt name
  | none => .nil

def luaTGettmbyobj (h : Heap N) (o : TValue N) (event : TMS) : TValue N :=
  h.metafield o (tmname event)

inductive LuaError (N E : Type) where
  | aritherror (culprit : TValue N)
  | logicerror (culprit : TValue N)
  | thrown (e : E)
  deriving DecidableEq, Repr

/-- `luaD_call` of a function value: its results and the state it leaves, or what it throws. -/
abbrev Call (N S E : Type) := TValue N → List (TValue N) → S → Except E (List (TValue N) × S)

/-- What an arithmetic instruction does: it stores a value, stores the result of a tag method,
raises an error, or (after a failed assertion) leaves the register as it is. -/
inductive Outcome (N : Type) where
  | value (v : TValue N)
  | callTMres (f p1 p2 : TValue N)
  | aritherror (culprit : TValue N)
  | logicerror (culprit : TValue N)
  | unchanged
  deriving DecidableEq, Repr

/-- The value of the register `ra` and the state afterwards; a call is adjusted to one result. -/
def Outcome.run {S E : Type} (call : Call N S E) (ra : TValue N) (s : S) :
    Outcome N → Except (LuaError N E) (TValue N × S)
  | .value v => .ok (v, s)
  | .callTMres f p1 p2 =>
    match call f [p1, p2] s with
    | .ok (results, s') => .ok (results.headD .nil, s')
    | .error e => .error (.thrown e)
  | .aritherror culprit => .error (.aritherror culprit)
  | .logicerror culprit => .error (.logicerror culprit)
  | .unchanged => .ok (ra, s)

/-- The tag method that `call_binTM` selects, nil when neither operand has one. -/
def binTM (h : Heap N) (p1 p2 : TValue N) (event : TMS) : TValue N :=
  let tm := luaTGettmbyobj h p1 event
  if tm.isNil then luaTGettmbyobj h p2 event else tm

/-- `call_binTM`, and the error when it finds no tag method. -/
def callBinTM (h : Heap N) (p1 p2 : TValue N) (event : TMS) (error : Outcome N) : Outcome N :=
  let tm := binTM h p1 p2 event
  if tm.isNil then error else .callTMres tm p1 p2

end UgmeeLua

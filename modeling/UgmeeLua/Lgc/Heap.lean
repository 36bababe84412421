import UgmeeLua.Core.Value
import UgmeeLua.Lgc.Marks
import Mathlib.Logic.Function.Basic

namespace UgmeeLua.Gc

/-- A collectable object: its type, and which of them it is. -/
inductive GCObject where
  | string (ts : Nat)
  | userdata (u : Nat)
  | upval (uv : Nat)
  | function (cl : Nat)
  | table (h : Nat)
  | thread (th : Nat)
  | proto (p : Nat)
  deriving DecidableEq, Repr

/-- What the collector sees of a value; `plain` are booleans, numbers and light userdata. No value is an
upvalue. -/
inductive TValue where
  | nil
  | plain (n : Nat)
  | string (ts : Nat)
  | userdata (u : Nat)
  | function (cl : Nat)
  | table (h : Nat)
  | thread (th : Nat)
  | proto (p : Nat)
  deriving DecidableEq, Repr

/-- The object of a value that is collectable. -/
def TValue.gcvalue : TValue → Option GCObject
  | nil => none
  | plain _ => none
  | string ts => some (.string ts)
  | userdata u => some (.userdata u)
  | function cl => some (.function cl)
  | table h => some (.table h)
  | thread th => some (.thread th)
  | proto p => some (.proto p)

/-- The value that an object is. -/
def GCObject.toValue : GCObject → Option TValue
  | string ts => some (.string ts)
  | userdata u => some (.userdata u)
  | upval _ => none
  | function cl => some (.function cl)
  | table h => some (.table h)
  | thread th => some (.thread th)
  | proto p => some (.proto p)

theorem gcvalue_toValue {o : GCObject} {v : TValue} (h : o.toValue = some v) : v.gcvalue = some o := by
  cases o <;> cases h <;> rfl

/-- `dead`: the type of the key is `LUA_TDEADKEY`. -/
structure Node where
  key : TValue
  dead : Bool
  val : TValue
  deriving DecidableEq, Repr

structure Table where
  metatable : Option Nat
  array : List TValue
  node : List Node
  deriving DecidableEq, Repr

structure Udata where
  metatable : Option Nat
  env : Nat
  deriving DecidableEq, Repr

inductive Closure where
  | c (env : Nat) (upvalue : List TValue)
  | l (env : Nat) (p : Nat) (upvals : List Nat)
  deriving DecidableEq, Repr

/-- An upvalue is open, and lives in a slot of a stack, or has its own value. -/
inductive UpVal where
  | opened (th : Nat) (level : Nat)
  | closed (v : TValue)
  deriving DecidableEq, Repr

structure Proto where
  source : Option Nat
  k : List TValue
  upvalues : List (Option Nat)
  p : List (Option Nat)
  locvars : List (Option Nat)
  deriving DecidableEq, Repr

/-- A stack, with its `top`, and with the highest `top` of its calls; and the open upvalues in it. -/
structure Thread where
  gt : TValue
  stack : Nat → TValue
  top : Nat
  lim : Nat
  openupval : List Nat

/-- What is in the gcvalues. -/
structure Heap where
  str : Nat → Bytes
  udata : Nat → Udata
  table : Nat → Table
  closure : Nat → Closure
  upval : Nat → UpVal
  thread : Nat → Thread
  proto : Nat → Proto

namespace Heap

variable (hp : Heap)

def setUdata (u : Nat) (x : Udata) : Heap := { hp with udata := Function.update hp.udata u x }

def setTable (h : Nat) (x : Table) : Heap := { hp with table := Function.update hp.table h x }

def setClosure (cl : Nat) (x : Closure) : Heap := { hp with closure := Function.update hp.closure cl x }

def setUpval (uv : Nat) (x : UpVal) : Heap := { hp with upval := Function.update hp.upval uv x }

def setThread (th : Nat) (x : Thread) : Heap := { hp with thread := Function.update hp.thread th x }

def setProto (p : Nat) (x : Proto) : Heap := { hp with proto := Function.update hp.proto p x }

def setStr (ts : Nat) (x : Bytes) : Heap := { hp with str := Function.update hp.str ts x }

theorem udata_self (i : Nat) (x : Udata) : (hp.setUdata i x).udata i = x := Function.update_self ..

theorem udata_other {i j : Nat} (x : Udata) (h : j ≠ i) : (hp.setUdata i x).udata j = hp.udata j :=
  Function.update_of_ne h ..

theorem table_self (i : Nat) (x : Table) : (hp.setTable i x).table i = x := Function.update_self ..

theorem table_other {i j : Nat} (x : Table) (h : j ≠ i) : (hp.setTable i x).table j = hp.table j :=
  Function.update_of_ne h ..

theorem closure_self (i : Nat) (x : Closure) : (hp.setClosure i x).closure i = x := Function.update_self ..

theorem closure_other {i j : Nat} (x : Closure) (h : j ≠ i) : (hp.setClosure i x).closure j = hp.closure j :=
  Function.update_of_ne h ..

theorem upval_self (i : Nat) (x : UpVal) : (hp.setUpval i x).upval i = x := Function.update_self ..

theorem upval_other {i j : Nat} (x : UpVal) (h : j ≠ i) : (hp.setUpval i x).upval j = hp.upval j :=
  Function.update_of_ne h ..

theorem thread_self (i : Nat) (x : Thread) : (hp.setThread i x).thread i = x := Function.update_self ..

theorem thread_other {i j : Nat} (x : Thread) (h : j ≠ i) : (hp.setThread i x).thread j = hp.thread j :=
  Function.update_of_ne h ..

theorem proto_self (i : Nat) (x : Proto) : (hp.setProto i x).proto i = x := Function.update_self ..

theorem proto_other {i j : Nat} (x : Proto) (h : j ≠ i) : (hp.setProto i x).proto j = hp.proto j :=
  Function.update_of_ne h ..

/-- `*uv->v`. -/
def upvalue (uv : Nat) : TValue :=
  match hp.upval uv with
  | .opened th level => (hp.thread th).stack level
  | .closed v => v

end Heap

/-! ## References -/

/-- The objects among values. -/
def gcvalues (l : List TValue) : List GCObject := l.filterMap TValue.gcvalue

def Node.isEmpty (n : Node) : Bool := n.val = .nil

/-- The sides of an entry that are not weak; an empty node is no entry. -/
def Node.refs (weakkey weakvalue : Bool) (n : Node) : List GCObject :=
  if n.isEmpty then []
  else gcvalues ((if weakkey then [] else [n.key]) ++ if weakvalue then [] else [n.val])

/-- The metatable, and the entries without their weak sides. -/
def Table.refs (weakkey weakvalue : Bool) (t : Table) : List GCObject :=
  t.metatable.toList.map .table ++
    ((if weakvalue then [] else gcvalues t.array.reverse) ++
      t.node.reverse.flatMap (Node.refs weakkey weakvalue))

def Udata.refs (x : Udata) : List GCObject := x.metatable.toList.map .table ++ [.table x.env]

def Closure.refs : Closure → List GCObject
  | c env upvalue => .table env :: gcvalues upvalue
  | l env p upvals => .table env :: .proto p :: upvals.map .upval

def Proto.refs (x : Proto) : List GCObject :=
  x.source.toList.map .string ++ (gcvalues x.k ++ (x.upvalues.reduceOption.map .string ++
    (x.p.reduceOption.map .proto ++ x.locvars.reduceOption.map .string)))

def Thread.refs (x : Thread) : List GCObject := gcvalues (x.gt :: (List.range x.top).map x.stack)

/-- The gcvalues that an object refers to, weakly too. -/
def refs (hp : Heap) : GCObject → List GCObject
  | .string _ => []
  | .userdata u => (hp.udata u).refs
  | .upval uv => gcvalues [hp.upvalue uv]
  | .function cl => (hp.closure cl).refs
  | .table h => (hp.table h).refs false false
  | .thread th => (hp.thread th).refs
  | .proto p => (hp.proto p).refs

theorem mem_gcvalues {l : List TValue} {o : GCObject} : o ∈ gcvalues l ↔ ∃ v ∈ l, v.gcvalue = some o :=
  List.mem_filterMap

theorem Table.mem_refs {weakkey weakvalue : Bool} {t : Table} {o : GCObject} :
    o ∈ t.refs weakkey weakvalue ↔ (∃ mt, t.metatable = some mt ∧ o = .table mt) ∨
      (weakvalue = false ∧ o ∈ gcvalues t.array) ∨
      ∃ n ∈ t.node, n.val ≠ .nil ∧
        ((weakkey = false ∧ n.key.gcvalue = some o) ∨ (weakvalue = false ∧ n.val.gcvalue = some o)) := by
  simp only [refs, Node.refs, Node.isEmpty, List.mem_append, List.mem_flatMap, List.mem_reverse, mem_gcvalues]
  cases weakkey <;> cases weakvalue <;> simp [mem_gcvalues, eq_comm]

end UgmeeLua.Gc

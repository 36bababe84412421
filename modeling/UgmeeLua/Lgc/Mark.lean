import UgmeeLua.Lgc.Heap
import UgmeeLua.Lstring.Strings

namespace UgmeeLua.Gc

/-- `global_State`, as far as the collector goes. `rootgc` is the list of objects down to the main thread,
`udata` what follows the main thread, `strt` the lists of strings, `uvhead` the list of open upvalues and
`running` the thread that runs. `tmudata` is a circular list in C, here from its first element to the last.
`sweepgc` points to the beginning of the list (`none`), or behind an object. -/
structure State where
  heap : Heap
  marked : GCObject → BitVec 8
  currentwhite : BitVec 8
  gcstate : GCState
  sweepstrgc : Nat
  sweepgc : Option GCObject
  rootgc : List GCObject
  mainthread : Nat
  udata : List Nat
  strt : List (List Nat)
  uvhead : List Nat
  gray : List GCObject
  grayagain : List GCObject
  weak : List Nat
  tmudata : List Nat
  running : Nat
  registry : TValue
  mt : List (Option Nat)
  tmGc : Nat
  tmMode : Nat
  closing : Bool

namespace State

variable (g : State)

def white (o : GCObject) : Bool := iswhite (g.marked o)

def black (o : GCObject) : Bool := isblack (g.marked o)

def mark (o : GCObject) (f : BitVec 8 → BitVec 8) : State :=
  { g with marked := Function.update g.marked o (f (g.marked o)) }

end State

/-! ## Marking -/

/-- `stringmark`. -/
def stringmark (ts : Nat) (g : State) : State := g.mark (.string ts) white2gray

/-- `reallymarkobject` on a function, a table, a thread or a prototype. -/
def markgray (o : GCObject) (g : State) : State := { g.mark o white2gray with gray := o :: g.gray }

/-- `markobject` on a table. -/
def marktable (h : Nat) (g : State) : State := if g.white (.table h) then markgray (.table h) g else g

def markmetatable : Option Nat → State → State
  | none, g => g
  | some mt, g => marktable mt g

/-- `reallymarkobject` on userdata, which is never gray. -/
def markudata (u : Nat) (g : State) : State :=
  let x := g.heap.udata u
  marktable x.env (markmetatable x.metatable (g.mark (.userdata u) fun m => gray2black (white2gray m)))

/-- `reallymarkobject` on an object that can be a value. -/
def markplain (g : State) : GCObject → State
  | .string ts => stringmark ts g
  | .userdata u => markudata u g
  | o => markgray o g

def markvalue (v : TValue) (g : State) : State :=
  match v.gcvalue with
  | none => g
  | some o => if g.white o then markplain g o else g

/-- `reallymarkobject`. -/
def reallymarkobject (o : GCObject) (g : State) : State :=
  match o with
  | .upval uv =>
    let g := markvalue (g.heap.upvalue uv) (g.mark o white2gray)
    match g.heap.upval uv with
    | .opened _ _ => g
    | .closed _ => g.mark o gray2black
  | o => markplain g o

def markobject (o : GCObject) (g : State) : State := if g.white o then reallymarkobject o g else g

/-- A loop that marks one thing after the other. -/
def marksAll {α : Type} (f : α → State → State) (l : List α) (g : State) : State :=
  l.foldl (fun g x => f x g) g

/-! ## Traversing -/

/-- `luaH_getstr`. -/
def getstr (t : Table) (ts : Nat) : TValue :=
  ((t.node.find? fun n => n.key = .string ts ∧ n.dead = false).map Node.val).getD .nil

/-- `fasttm`, without the flags that remember which fields are absent. -/
def fasttm (hp : Heap) (et : Option Nat) (ename : Nat) : Option TValue :=
  match et with
  | none => none
  | some mt =>
    match getstr (hp.table mt) ename with
    | .nil => none
    | tm => some tm

/-- The weak keys and the weak values that the mode of a table asks for. -/
def weakmode (g : State) (h : Nat) : Bool × Bool :=
  match fasttm g.heap (g.heap.table h).metatable g.tmMode with
  | some (.string ts) =>
    let s := (g.heap.str ts).takeWhile (· ≠ 0)
    (s.contains 0x6b, s.contains 0x76)
  | _ => (false, false)

/-- `removeentry`. -/
def removeentry (n : Node) : Node := if n.key.gcvalue.isSome then { n with dead := true } else n

/-- The loop of `traversetable` removes the empty entries. -/
def removeempty (h : Nat) (g : State) : State :=
  let t := g.heap.table h
  let node := t.node.map fun n => if n.isEmpty then removeentry n else n
  { g with heap := g.heap.setTable h { t with node := node } }

/-- What `traversetable` marks of an entry. -/
def markentry (weakkey weakvalue : Bool) (n : Node) (g : State) : State :=
  if n.isEmpty then g
  else
    let g := if weakkey then g else markvalue n.key g
    if weakvalue then g else markvalue n.val g

def traversetable (h : Nat) (g : State) : Bool × State :=
  let t := g.heap.table h
  let g := markmetatable t.metatable g
  let (weakkey, weakvalue) := weakmode g h
  let g := if weakkey || weakvalue then
      { g.mark (.table h) (setweak weakkey weakvalue) with weak := h :: g.weak }
    else g
  if weakkey && weakvalue then (true, g)
  else
    let g := if weakvalue then g else marksAll markvalue t.array.reverse g
    let g := marksAll (markentry weakkey weakvalue) t.node.reverse (removeempty h g)
    (weakkey || weakvalue, g)

def traverseproto (p : Nat) (g : State) : State :=
  let f := g.heap.proto p
  let g := marksAll stringmark f.source.toList g
  let g := marksAll markvalue f.k g
  let g := marksAll stringmark f.upvalues.reduceOption g
  let g := marksAll (fun p => markobject (.proto p)) f.p.reduceOption g
  marksAll stringmark f.locvars.reduceOption g

def traverseclosure (cl : Nat) (g : State) : State :=
  match g.heap.closure cl with
  | .c env upvalue => marksAll markvalue upvalue (marktable env g)
  | .l env p upvals =>
    marksAll (fun uv => markobject (.upval uv)) upvals (markobject (.proto p) (marktable env g))

/-- The part of the stack that is not in use becomes nil. -/
def clearstack (x : Thread) : Thread :=
  { x with stack := fun i => if x.top ≤ i ∧ i ≤ x.lim then .nil else x.stack i }

def traversestack (th : Nat) (g : State) : State :=
  let x := g.heap.thread th
  let g := markvalue x.gt g
  let g := marksAll markvalue ((List.range x.top).map x.stack) g
  { g with heap := g.heap.setThread th (clearstack x) }

/-- `propagatemark`, without the sizes it returns. -/
def propagatemark (g : State) : State :=
  match g.gray with
  | [] => g
  | o :: gray =>
    let g := g.mark o gray2black
    match o with
    | .table h =>
      let (weak, g) := traversetable h { g with gray := gray }
      if weak then g.mark o black2gray else g
    | .function cl => traverseclosure cl { g with gray := gray }
    | .thread th =>
      traversestack th { g.mark o black2gray with gray := gray, grayagain := o :: g.grayagain }
    | .proto p => traverseproto p { g with gray := gray }
    | _ => g

/-! ## Where the objects are -/

/-- The list that begins at `rootgc`. -/
def State.mainlist (g : State) : List GCObject :=
  g.rootgc ++ .thread g.mainthread :: g.udata.map .userdata

/-- All objects that are not freed. -/
def State.objects (g : State) : List GCObject :=
  g.mainlist ++ (g.strt.flatten.map .string ++ (g.uvhead.map .upval ++ g.tmudata.map .userdata))

def propagateTimes : Nat → State → State
  | 0, g => g
  | n + 1, g => if g.gray = [] then g else propagateTimes n (propagatemark g)

/-- As often as objects can become gray. -/
def propagations (g : State) : Nat := g.objects.countP g.white + g.gray.length

def propagateall (g : State) : State := propagateTimes (propagations g) g

end UgmeeLua.Gc

import UgmeeLua.Lgc.Mark

namespace UgmeeLua.Gc

/-! ## The mark phase -/

def markmt (g : State) : State := marksAll markmetatable g.mt g

/-- `markroot`. -/
def markroot (g : State) : State :=
  let g := { g with gray := [], grayagain := [], weak := [] }
  let g := markobject (.thread g.mainthread) g
  let g := markvalue (g.heap.thread g.mainthread).gt g
  let g := markvalue g.registry g
  { markmt g with gcstate := .GCSpropagate }

/-- What `remarkupvals` does to an upvalue. -/
def remarkupval (uv : Nat) (g : State) : State :=
  if isgray (g.marked (.upval uv)) then markvalue (g.heap.upvalue uv) g else g

/-- `remarkupvals`. -/
def remarkupvals (g : State) : State := marksAll remarkupval g.uvhead g

/-- `luaC_separateudata` on one userdata. -/
def separate (all : Bool) (u : Nat) (g : State) : State :=
  let o := GCObject.userdata u
  if !(g.white o || all) || isfinalized (g.marked o) then { g with udata := g.udata ++ [u] }
  else
    match fasttm g.heap (g.heap.udata u).metatable g.tmGc with
    | none => { g.mark o markfinalized with udata := g.udata ++ [u] }
    | some _ => { g.mark o markfinalized with tmudata := g.tmudata ++ [u] }

/-- `luaC_separateudata`, without the size it returns: the list of userdata is taken apart from its
beginning. -/
def luaCSeparateudata (all : Bool) (g : State) : State :=
  marksAll (separate all) g.udata { g with udata := [] }

/-- `marktmu` on one userdata. -/
def remarkudata (u : Nat) (g : State) : State :=
  reallymarkobject (.userdata u) (g.mark (.userdata u) (makewhite g.currentwhite))

/-- `marktmu`. -/
def marktmu (g : State) : State := marksAll remarkudata g.tmudata g

/-- `iscleared`, which marks strings. -/
def iscleared (v : TValue) (iskey : Bool) (g : State) : Bool × State :=
  match v with
  | .string ts => (false, stringmark ts g)
  | .userdata u =>
    (g.white (.userdata u) || (!iskey && isfinalized (g.marked (.userdata u))), g)
  | v =>
    match v.gcvalue with
    | none => (false, g)
    | some o => (g.white o, g)

/-- The values of an array part, from the last to the first. -/
def cleararray : List TValue → State → List TValue × State
  | [], g => ([], g)
  | v :: l, g =>
    let (l, g) := cleararray l g
    let (cleared, g) := iscleared v false g
    ((if cleared then .nil else v) :: l, g)

def clearnode (n : Node) (g : State) : Node × State :=
  if n.isEmpty then (n, g)
  else
    match iscleared n.key true g with
    | (true, g) => (removeentry { n with val := .nil }, g)
    | (false, g) =>
      match iscleared n.val false g with
      | (true, g) => (removeentry { n with val := .nil }, g)
      | (false, g) => (n, g)

/-- The nodes, from the last to the first. -/
def clearnodes : List Node → State → List Node × State
  | [], g => ([], g)
  | n :: l, g =>
    let (l, g) := clearnodes l g
    let (n, g) := clearnode n g
    (n :: l, g)

/-- `cleartable` on one table. -/
def cleartable (h : Nat) (g : State) : State :=
  let t := g.heap.table h
  let (array, g) := if testbit (g.marked (.table h)) VALUEWEAKBIT then cleararray t.array g else (t.array, g)
  let (node, g) := clearnodes t.node g
  { g with heap := g.heap.setTable h { t with array := array, node := node } }

def cleartables (g : State) : State := marksAll cleartable g.weak g

/-- `atomic` up to the userdata that need finalization. -/
def remarkall (g : State) : State :=
  let g := propagateall (remarkupvals g)
  let g := { g with gray := g.weak.map .table, weak := [] }
  let g := propagateall (markmt (markobject (.thread g.running) g))
  propagateall { g with gray := g.grayagain, grayagain := [] }

/-- `atomic` up to the weak tables. -/
def preserveudata (g : State) : State := propagateall (marktmu (luaCSeparateudata false (remarkall g)))

/-- `flip current white`, and the rest of `atomic`. -/
def flipwhite (g : State) : State :=
  { g with currentwhite := otherwhite g.currentwhite, sweepstrgc := 0, sweepgc := none,
           gcstate := .GCSsweepstring }

def atomic (g : State) : State := flipwhite (cleartables (preserveudata g))

/-! ## The sweep phase -/

/-- What follows an object in a list. -/
def following (o : GCObject) (l : List GCObject) : List GCObject := (l.dropWhile fun x => x ≠ o).tail

/-- `*g->sweepgc`. `lua_close` may leave `sweepgc` behind userdata of the circular list `tmudata`. -/
def State.swept (g : State) : Option GCObject :=
  match g.sweepgc with
  | none => g.mainlist.head?
  | some o =>
    if o ∈ g.mainlist then (following o g.mainlist).head?
    else
      let l := g.tmudata.map GCObject.userdata
      (following o (l ++ l)).head?

/-- An object that is swept and lives on. -/
def State.whiten (g : State) (o : GCObject) : State := g.mark o (makewhite g.currentwhite)

def State.survives (g : State) (o : GCObject) : Bool := UgmeeLua.survives g.currentwhite (g.marked o)

/-- `luaF_freeupval` on an open upvalue. -/
def luaFFreeupval (uv : Nat) (g : State) : State := { g with uvhead := g.uvhead.erase uv }

def setopenupval (th : Nat) (l : List Nat) (g : State) : State :=
  { g with heap := g.heap.setThread th { g.heap.thread th with openupval := l } }

/-- `sweepwholelist` on the open upvalues of a thread. -/
def sweepopenupval (th : Nat) (g : State) : State :=
  let l := (g.heap.thread th).openupval
  let alive := l.filter fun uv => g.survives (.upval uv)
  let dead := l.filter fun uv => !g.survives (.upval uv)
  marksAll (fun uv g => g.whiten (.upval uv)) alive (setopenupval th alive (marksAll luaFFreeupval dead g))

/-- `luaC_barrierf`. -/
def luaCBarrierf (o v : GCObject) (g : State) : State :=
  if g.gcstate = .GCSpropagate then reallymarkobject v g else g.whiten o

/-- `luaC_objbarrier`. -/
def luaCObjbarrier (p o : GCObject) (g : State) : State :=
  if g.white o && g.black p then luaCBarrierf p o g else g

/-- `luaC_barrier`. -/
def luaCBarrier (p : GCObject) (v : TValue) (g : State) : State :=
  match v.gcvalue with
  | none => g
  | some o => luaCObjbarrier p o g

/-- `luaC_linkupval`. -/
def luaCLinkupval (uv : Nat) (g : State) : State :=
  let o := GCObject.upval uv
  let g := { g with rootgc := o :: g.rootgc }
  if isgray (g.marked o) then
    if g.gcstate = .GCSpropagate then luaCBarrier o (g.heap.upvalue uv) (g.mark o gray2black)
    else g.whiten o
  else g

/-- `luaF_close` on the first open upvalue of a thread. -/
def closeupval (th uv : Nat) (l : List Nat) (g : State) : State :=
  let g := luaFFreeupval uv (setopenupval th l g)
  if isdead g.currentwhite (g.marked (.upval uv)) then g
  else luaCLinkupval uv { g with heap := g.heap.setUpval uv (.closed (g.heap.upvalue uv)) }

/-- `luaF_close` for the whole stack: the upvalues of the list, one after the other. -/
def closeall (th : Nat) : List Nat → State → State
  | [], g => g
  | uv :: l, g => closeall th l (closeupval th uv l g)

/-- `freeobj`, when the object is in no list any more. -/
def freeobj (o : GCObject) (g : State) : State :=
  match o with
  | .thread th => closeall th (g.heap.thread th).openupval g
  | _ => g

def unlink (o : GCObject) (g : State) : State :=
  match o with
  | .userdata u => { g with udata := g.udata.erase u, tmudata := g.tmudata.erase u }
  | o => { g with rootgc := g.rootgc.erase o }

/-- One object of `sweeplist`. -/
def sweepobject (o : GCObject) (g : State) : State :=
  let g :=
    match o with
    | .thread th => sweepopenupval th g
    | _ => g
  if g.survives o then { g.whiten o with sweepgc := some o } else freeobj o (unlink o g)

/-- `sweeplist` from `sweepgc` on. -/
def sweeplist : Nat → State → State
  | 0, g => g
  | n + 1, g =>
    match g.swept with
    | none => g
    | some o => sweeplist n (sweepobject o g)

/-- `sweepwholelist` on a list of strings. -/
def sweepstrings (i : Nat) (g : State) : State :=
  let l := g.strt.getD i []
  let alive := l.filter fun ts => g.survives (.string ts)
  marksAll (fun ts g => g.whiten (.string ts)) alive { g with strt := g.strt.set i alive }

/-! ## Finalizers -/

/-- Values pushed on the stack of the running thread. -/
def pushes (l : List TValue) (g : State) : State :=
  let x := g.heap.thread g.running
  let stack := fun i => if x.top ≤ i then l.getD (i - x.top) (x.stack i) else x.stack i
  { g with heap := g.heap.setThread g.running { x with stack := stack, top := x.top + l.length } }

/-- `GCTM` up to the call: the finalizer, with its argument. -/
def gctm (g : State) : State :=
  match g.tmudata with
  | [] => g
  | u :: tmudata =>
    let g := { g.whiten (.userdata u) with tmudata := tmudata, udata := u :: g.udata }
    match fasttm g.heap (g.heap.udata u).metatable g.tmGc with
    | none => g
    | some tm => pushes [tm, .userdata u] g

/-! ## Steps -/

def GCSWEEPMAX : Nat := 40

/-- `singlestep`, without the estimates and the sizes it returns, and without `checkSizes`: the string table
is resized by a step of its own. -/
def singlestep (g : State) : State :=
  match g.gcstate with
  | .GCSpause => markroot g
  | .GCSpropagate => if g.gray = [] then atomic g else propagatemark g
  | .GCSsweepstring =>
    let g := { sweepstrings g.sweepstrgc g with sweepstrgc := g.sweepstrgc + 1 }
    if g.strt.length ≤ g.sweepstrgc then { g with gcstate := .GCSsweep } else g
  | .GCSsweep =>
    let g := sweeplist GCSWEEPMAX g
    match g.swept with
    | none => { g with gcstate := .GCSfinalize }
    | some _ => g
  | .GCSfinalize =>
    match g.tmudata with
    | [] => { g with gcstate := .GCSpause }
    | _ :: _ => gctm g

/-- The beginning of `luaC_fullgc`, before `GCSsweepstring`. -/
def resetsweep (g : State) : State :=
  { g with sweepstrgc := 0, sweepgc := none, gray := [], grayagain := [], weak := [],
           gcstate := .GCSsweepstring }

end UgmeeLua.Gc

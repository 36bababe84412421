import Mathlib.Data.List.ReduceOption
import UgmeeLua.Lgc.Collect
import UgmeeLua.Lib.Run

namespace UgmeeLua.Gc

/-! ## Barriers -/

/-- `luaC_barrierback`. -/
def luaCBarrierback (h : Nat) (g : State) : State :=
  { g.mark (.table h) black2gray with grayagain := .table h :: g.grayagain }

/-- `luaC_objbarriert`. -/
def luaCObjbarriert (h : Nat) (o : GCObject) (g : State) : State :=
  if g.white o && g.black (.table h) then luaCBarrierback h g else g

/-- `luaC_barriert`. -/
def luaCBarriert (h : Nat) (v : TValue) (g : State) : State :=
  match v.gcvalue with
  | none => g
  | some o => luaCObjbarriert h o g

/-! ## New objects -/

def State.setHeap (g : State) (hp : Heap) : State := { g with heap := hp }

/-- The mark of a new object. -/
def newmark (o : GCObject) (g : State) : State := g.mark o fun _ => luaCWhite g.currentwhite

/-- `luaC_link`. -/
def luaCLink (o : GCObject) (g : State) : State := { newmark o g with rootgc := o :: g.rootgc }

def luaHNew (h : Nat) (g : State) : State :=
  luaCLink (.table h) (g.setHeap (g.heap.setTable h ⟨none, [], []⟩))

def luaFNewCclosure (cl env : Nat) (upvalue : List TValue) (g : State) : State :=
  luaCLink (.function cl) (g.setHeap (g.heap.setClosure cl (.c env upvalue)))

def luaFNewLclosure (cl env p : Nat) (g : State) : State :=
  luaCLink (.function cl) (g.setHeap (g.heap.setClosure cl (.l env p [])))

def luaFNewproto (p : Nat) (g : State) : State :=
  luaCLink (.proto p) (g.setHeap (g.heap.setProto p ⟨none, [], [], [], []⟩))

def luaFNewupval (uv : Nat) (g : State) : State :=
  luaCLink (.upval uv) (g.setHeap (g.heap.setUpval uv (.closed .nil)))

/-- `luaE_newthread`: the globals are those of the running thread. -/
def luaENewthread (th : Nat) (g : State) : State :=
  luaCLink (.thread th)
    (g.setHeap (g.heap.setThread th ⟨(g.heap.thread g.running).gt, fun _ => .nil, 0, 0, []⟩))

def luaSNewudata (u env : Nat) (g : State) : State :=
  { newmark (.userdata u) (g.setHeap (g.heap.setUdata u ⟨none, env⟩)) with udata := u :: g.udata }

/-- `newlstr`, in the list of the string's hash. -/
def newlstr (ts : Nat) (str : Bytes) (i : Nat) (g : State) : State :=
  { newmark (.string ts) (g.setHeap (g.heap.setStr ts str)) with strt := g.strt.modify i (ts :: ·) }

/-- A dead object comes back to life. -/
def resurrect (o : GCObject) (g : State) : State :=
  if isdead g.currentwhite (g.marked o) then g.mark o changewhite else g

def levelOf (hp : Heap) (uv : Nat) : Nat :=
  match hp.upval uv with
  | .opened _ level => level
  | .closed _ => 0

/-- `luaF_findupval` in the running thread; `uv` is the upvalue that is made where none is found. -/
def luaFFindupval (level uv : Nat) (g : State) : Nat × State :=
  let x := g.heap.thread g.running
  let above := x.openupval.takeWhile fun p => level ≤ levelOf g.heap p
  match above.find? fun p => levelOf g.heap p = level with
  | some p => (p, resurrect (.upval p) g)
  | none =>
    let l := above ++ uv :: x.openupval.drop above.length
    let hp := (g.heap.setThread g.running { x with openupval := l }).setUpval uv (.opened g.running level)
    (uv, { newmark (.upval uv) (g.setHeap hp) with uvhead := uv :: g.uvhead })

/-- How a new Lua function gets an upvalue: from the function around it, from the stack, or a new one. -/
inductive Capture where
  | share (uv : Nat)
  | find (level uv : Nat)
  | new (uv : Nat)
  deriving DecidableEq, Repr

def capture : Capture → State → Nat × State
  | .share uv, g => (uv, g)
  | .find level uv, g => luaFFindupval level uv g
  | .new uv, g => (uv, luaFNewupval uv g)

def captures : List Capture → State → List Nat × State
  | [], g => ([], g)
  | c :: l, g =>
    let (uv, g) := capture c g
    let (uvs, g) := captures l g
    (uv :: uvs, g)

/-- `OP_CLOSURE`, and the function that `lua_load` makes. -/
def newLclosure (cl env p : Nat) (l : List Capture) (g : State) : State :=
  let (upvals, g) := captures l (luaFNewLclosure cl env p g)
  g.setHeap (g.heap.setClosure cl (.l env p upvals))

/-! ## Stores -/

def setstack (th i : Nat) (v : TValue) (g : State) : State :=
  let x := g.heap.thread th
  g.setHeap (g.heap.setThread th { x with stack := Function.update x.stack i v })

/-- `lua_settop`. -/
def settop (th n : Nat) (g : State) : State :=
  let x := g.heap.thread th
  let stack := fun i => if x.top ≤ i ∧ i < n then .nil else x.stack i
  g.setHeap (g.heap.setThread th { x with stack := stack, top := n })

/-- The calls of a thread have another highest `top`. -/
def setlim (th n : Nat) (g : State) : State :=
  g.setHeap (g.heap.setThread th { g.heap.thread th with lim := n })

/-- An entry of a table is set: `newkey`, where its key is new, and its value. What else is in the table
may have moved to other places. -/
def settable (h : Nat) (newkey : Option TValue) (v : TValue) (array : List TValue) (node : List Node)
    (g : State) : State :=
  let g := g.setHeap (g.heap.setTable h { g.heap.table h with array := array, node := node })
  luaCBarriert h v (luaCBarriert h (newkey.getD .nil) g)

/-- `lua_setmetatable` on a table. -/
def setmetatable (h : Nat) (mt : Option Nat) (g : State) : State :=
  let g := g.setHeap (g.heap.setTable h { g.heap.table h with metatable := mt })
  match mt with
  | none => g
  | some mt => luaCObjbarriert h (.table mt) g

/-- `lua_setmetatable` on userdata. -/
def setudatametatable (u : Nat) (mt : Option Nat) (g : State) : State :=
  let g := g.setHeap (g.heap.setUdata u { g.heap.udata u with metatable := mt })
  match mt with
  | none => g
  | some mt => luaCObjbarrier (.userdata u) (.table mt) g

/-- `lua_setmetatable` on a value of another type. -/
def settypemetatable (tt : Nat) (mt : Option Nat) (g : State) : State := { g with mt := g.mt.set tt mt }

/-- `lua_setfenv`. -/
def luaSetfenv (o : GCObject) (env : Nat) (g : State) : State :=
  let hp :=
    match o with
    | .function cl =>
      match g.heap.closure cl with
      | .c _ upvalue => g.heap.setClosure cl (.c env upvalue)
      | .l _ p upvals => g.heap.setClosure cl (.l env p upvals)
    | .userdata u => g.heap.setUdata u { g.heap.udata u with env := env }
    | .thread th => g.heap.setThread th { g.heap.thread th with gt := .table env }
    | _ => g.heap
  luaCObjbarrier o (.table env) (g.setHeap hp)

/-- `*uv->v` is set. -/
def setvalue (uv : Nat) (v : TValue) (hp : Heap) : Heap :=
  match hp.upval uv with
  | .opened th level =>
    let x := hp.thread th
    hp.setThread th { x with stack := Function.update x.stack level v }
  | .closed _ => hp.setUpval uv (.closed v)

/-- `OP_SETUPVAL`. -/
def opSetupval (uv : Nat) (v : TValue) (g : State) : State :=
  luaCBarrier (.upval uv) v (g.setHeap (setvalue uv v g.heap))

/-- `lua_setupvalue`; an upvalue of a C function is set in the same way by `lua_replace`. -/
def luaSetupvalue (cl n : Nat) (v : TValue) (g : State) : State :=
  let hp :=
    match g.heap.closure cl with
    | .c env upvalue => g.heap.setClosure cl (.c env (upvalue.set n v))
    | .l _ _ upvals =>
      match upvals[n]? with
      | some uv => setvalue uv v g.heap
      | none => g.heap
  luaCBarrier (.function cl) v (g.setHeap hp)

/-- A prototype that is being made gets another part. -/
def setproto (p : Nat) (x : Proto) (o : GCObject) (g : State) : State :=
  luaCObjbarrier (.proto p) o (g.setHeap (g.heap.setProto p x))

/-! ## Steps -/

/-- What the program and the collector do. -/
inductive Action where
  | singlestep
  | markroot
  | resetsweep
  | close
  | callGCTM
  | push (v : TValue)
  | setstack (th i : Nat) (v : TValue)
  | settop (th n : Nat)
  | setlim (th n : Nat)
  | resume (th : Nat)
  | newtable (h : Nat)
  | newCclosure (cl env : Nat) (upvalue : List TValue)
  | newLclosure (cl env p : Nat) (l : List Capture)
  | newproto (p : Nat)
  | newthread (th : Nat)
  | newudata (u env : Nat)
  | newlstr (ts : Nat) (str : Bytes) (i : Nat)
  | findstr (ts : Nat)
  | fix (ts : Nat)
  | resize (strt : List (List Nat))
  | closeupval (th : Nat)
  | settable (h : Nat) (newkey : Option TValue) (v : TValue) (array : List TValue) (node : List Node)
  | setmetatable (h : Nat) (mt : Option Nat)
  | setudatametatable (u : Nat) (mt : Option Nat)
  | settypemetatable (tt : Nat) (mt : Option Nat)
  | setfenv (o : GCObject) (env : Nat)
  | opSetupval (uv : Nat) (v : TValue)
  | setupvalue (cl n : Nat) (v : TValue)
  | setproto (p : Nat) (x : Proto) (o : GCObject)

def perform (a : Action) (g : State) : State :=
  match a with
  | .singlestep => singlestep g
  | .markroot => markroot g
  | .resetsweep => resetsweep g
  | .close => luaCSeparateudata true { g with closing := true, running := g.mainthread }
  | .callGCTM => gctm g
  | .push v => pushes [v] g
  | .setstack th i v => setstack th i v g
  | .settop th n => settop th n g
  | .setlim th n => setlim th n g
  | .resume th => { g with running := th }
  | .newtable h => pushes [.table h] (luaHNew h g)
  | .newCclosure cl env upvalue => pushes [.function cl] (luaFNewCclosure cl env upvalue g)
  | .newLclosure cl env p l => pushes [.function cl] (newLclosure cl env p l g)
  | .newproto p => pushes [.proto p] (luaFNewproto p g)
  | .newthread th => pushes [.thread th] (luaENewthread th g)
  | .newudata u env => pushes [.userdata u] (luaSNewudata u env g)
  | .newlstr ts str i => pushes [.string ts] (newlstr ts str i g)
  | .findstr ts => pushes [.string ts] (resurrect (.string ts) g)
  | .fix ts => g.mark (.string ts) (· ||| bitmask FIXEDBIT)
  | .resize strt => { g with strt := strt }
  | .closeupval th =>
    match (g.heap.thread th).openupval with
    | [] => g
    | uv :: l => closeupval th uv l g
  | .settable h newkey v array node => settable h newkey v array node g
  | .setmetatable h mt => setmetatable h mt g
  | .setudatametatable u mt => setudatametatable u mt g
  | .settypemetatable tt mt => settypemetatable tt mt g
  | .setfenv o env => luaSetfenv o env g
  | .opSetupval uv v => opSetupval uv v g
  | .setupvalue cl n v => luaSetupvalue cl n v g
  | .setproto p x o => setproto p x o g

/-- The roots: the main thread, the thread that runs, the registry, the metatables of the basic types, and
userdata that waits for its finalizer. -/
def State.roots (g : State) : List GCObject :=
  .thread g.mainthread :: .thread g.running :: (gcvalues [g.registry] ++
    (g.mt.reduceOption.map .table ++ g.tmudata.map .userdata))

section Roots

variable {g : State} {o : GCObject} {t u : Nat}

theorem State.mem_roots : o ∈ g.roots ↔ o = .thread g.mainthread ∨ o = .thread g.running ∨ o ∈ gcvalues [g.registry] ∨
    (∃ t, some t ∈ g.mt ∧ .table t = o) ∨ ∃ u ∈ g.tmudata, .userdata u = o := by
  simp only [State.roots, List.mem_cons, List.mem_append, List.mem_map, List.reduceOption_mem_iff]

theorem State.mainthread_mem_roots : .thread g.mainthread ∈ g.roots := List.mem_cons_self

theorem State.running_mem_roots : .thread g.running ∈ g.roots := List.mem_cons_of_mem _ List.mem_cons_self

theorem State.registry_mem_roots (h : o ∈ gcvalues [g.registry]) : o ∈ g.roots := mem_roots.mpr (.inr (.inr (.inl h)))

theorem State.metatable_mem_roots (h : some t ∈ g.mt) : .table t ∈ g.roots :=
  mem_roots.mpr (.inr (.inr (.inr (.inl ⟨t, h, rfl⟩))))

theorem State.tmudata_mem_roots (h : u ∈ g.tmudata) : .userdata u ∈ g.roots :=
  mem_roots.mpr (.inr (.inr (.inr (.inr ⟨u, h, rfl⟩))))

end Roots

/-- What can be reached from the roots, weak references included. -/
def Accessible (g : State) : GCObject → Prop :=
  Run.Reach (· ∈ g.roots) fun o o' => o' ∈ refs g.heap o

def AccessibleValue (g : State) (v : TValue) : Prop := ∀ o, v.gcvalue = some o → Accessible g o

/-- The objects that a new Lua function takes from elsewhere; new ones are new. -/
def Capture.Allowed (g : State) : Capture → Prop
  | share uv => Accessible g (.upval uv)
  | find level uv => .upval uv ∉ g.objects ∧ level < (g.heap.thread g.running).top
  | new uv => .upval uv ∉ g.objects

def Capture.made : Capture → List Nat
  | share _ => []
  | find _ uv => [uv]
  | new uv => [uv]

/-- Where an action takes place: the program has the objects that it uses, an allocator returns blocks that
are not in use, and the parts of `luaC_fullgc` and `lua_close` have their states. -/
def Allowed (g : State) : Action → Prop
  | .singlestep => True
  | .markroot => g.gcstate = .GCSfinalize
  | .resetsweep => g.gcstate = .GCSpause ∨ g.gcstate = .GCSpropagate
  | .close => g.closing = false
  | .callGCTM => g.closing = true
  | .push v => AccessibleValue g v
  | .setstack th i v => Accessible g (.thread th) ∧ i < (g.heap.thread th).top ∧ AccessibleValue g v
  | .settop th _ => Accessible g (.thread th)
  | .setlim th _ => Accessible g (.thread th)
  | .resume th => Accessible g (.thread th)
  | .newtable h => .table h ∉ g.objects
  | .newCclosure cl env upvalue =>
    .function cl ∉ g.objects ∧ Accessible g (.table env) ∧ ∀ v ∈ upvalue, AccessibleValue g v
  | .newLclosure cl env p l =>
    .function cl ∉ g.objects ∧ Accessible g (.table env) ∧ Accessible g (.proto p) ∧
      (∀ c ∈ l, c.Allowed g) ∧ (l.flatMap Capture.made).Nodup
  | .newproto p => .proto p ∉ g.objects
  | .newthread th => .thread th ∉ g.objects
  | .newudata u env => .userdata u ∉ g.objects ∧ Accessible g (.table env)
  | .newlstr ts _ i => .string ts ∉ g.objects ∧ i < g.strt.length
  | .findstr ts => .string ts ∈ g.objects
  | .fix ts => Accessible g (.string ts)
  | .resize strt => g.gcstate ≠ .GCSsweepstring ∧ strt.flatten.Perm g.strt.flatten
  | .closeupval th => Accessible g (.thread th)
  | .settable h newkey v array node =>
    Accessible g (.table h) ∧ AccessibleValue g v ∧ (∀ k ∈ newkey, AccessibleValue g k) ∧
      ∀ o ∈ Table.refs false false ⟨none, array, node⟩,
        o ∈ (g.heap.table h).refs false false ∨ o ∈ gcvalues (v :: newkey.toList)
  | .setmetatable h mt => Accessible g (.table h) ∧ ∀ t ∈ mt, Accessible g (.table t)
  | .setudatametatable u mt => Accessible g (.userdata u) ∧ ∀ h ∈ mt, Accessible g (.table h)
  | .settypemetatable _ mt => ∀ h ∈ mt, Accessible g (.table h)
  | .setfenv o env => Accessible g o ∧ Accessible g (.table env)
  | .opSetupval uv v => Accessible g (.upval uv) ∧ AccessibleValue g v
  | .setupvalue cl _ v => Accessible g (.function cl) ∧ AccessibleValue g v
  | .setproto p x o => Accessible g (.proto p) ∧ Accessible g o ∧
      ∀ o' ∈ x.refs, o' ∈ (g.heap.proto p).refs ∨ o' = o

def Step (g g' : State) : Prop := ∃ a, Allowed g a ∧ g' = perform a g

/-- A state with its tables of globals and of the registry, and with the names of the metamethods, before
anything has run. -/
def start : State where
  heap :=
    ⟨fun ts => if ts = 0 then [0x5f, 0x5f, 0x67, 0x63] else [0x5f, 0x5f, 0x6d, 0x6f, 0x64, 0x65],
      fun _ => ⟨none, 0⟩, fun _ => ⟨none, [], []⟩, fun _ => .c 0 [], fun _ => .closed .nil,
      fun _ => ⟨.table 0, fun _ => .nil, 0, 0, []⟩, fun _ => ⟨none, [], [], [], []⟩⟩
  marked o :=
    match o with
    | .thread _ => bitmask WHITE0BIT ||| (bitmask FIXEDBIT ||| bitmask SFIXEDBIT)
    | .string _ => bitmask WHITE0BIT ||| bitmask FIXEDBIT
    | _ => bitmask WHITE0BIT
  currentwhite := bitmask WHITE0BIT ||| bitmask FIXEDBIT
  gcstate := .GCSpause
  sweepstrgc := 0
  sweepgc := none
  rootgc := [.table 1, .table 0]
  mainthread := 0
  udata := []
  strt := [0, 1] :: List.replicate (MINSTRTABSIZE - 1) []
  uvhead := []
  gray := []
  grayagain := []
  weak := []
  tmudata := []
  running := 0
  registry := .table 1
  mt := List.replicate 9 none
  tmGc := 0
  tmMode := 1
  closing := false

/-- The states that the program and the collector come to. -/
def Reached : State → Prop := Run.Reach (· = start) Step

end UgmeeLua.Gc

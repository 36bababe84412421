import UgmeeLua.Lib.Block
import UgmeeLua.Ltable.Table
import UgmeeLua.Vm.CheckCode
import UgmeeLua.Vm.Thread

namespace UgmeeLua.Calls

open Block Ltable

def LUA_MULTRET : Int := -1

/-- A thread as calls see it: places are offsets in the stack, and `ci` is an offset in the array of call
frames. The tables are in the heap, by their addresses. No hook is set. -/
structure Stack (N : Type) where
  top : Nat
  base : Nat
  savedpc : Nat
  ci : Nat
  frames : Nat → CallInfo
  up : Upvalues N
  tables : Nat → Option (Table N)

/-- What a function is: `isC`, or a prototype. -/
inductive Closure (N : Type) where
  | lua (p : Proto N)
  | c

/-- What a call raises: `luaG_typeerror`, the stack overflow of `growCI`, and what a table raises. -/
inductive CallError (N : Type) where
  | typeerror (o : TValue N) (op : String)
  | overflow
  | table (e : Failure)

/-- What `luaD_precall` returns when the function has been entered. -/
inductive Entered where
  | PCRLUA
  | PCRC
  deriving DecidableEq, Repr

variable {N : Type}

namespace Stack

section Access

variable (L : Stack N)

def get (s : Nat) : TValue N := L.up.stack s

/-- Values on the stack change, and nothing else. -/
def withStack (f : (Nat → TValue N) → Nat → TValue N) : Stack N :=
  { L with up := { L.up with stack := f L.up.stack } }

def set (s : Nat) (v : TValue N) : Stack N := L.withStack fun m => put m s v

/-- `setobj(L, L->top++, v)`. -/
def push (v : TValue N) : Stack N := { L.set L.top v with top := L.top + 1 }

/-- `*L->ci`. -/
def frame : CallInfo := L.frames L.ci

def setFrame (i : Nat) (c : CallInfo) : Stack N :=
  { L with frames := fun j => if j = i then c else L.frames j }

def setTable (r : Nat) (t : Table N) : Stack N :=
  { L with tables := fun s => if s = r then some t else L.tables s }

end Access

end Stack

/-- What calls read of the rest: functions by their references, the length of the array of frames that
`growCI` does not go beyond, and what tables need. -/
structure Host (N : Type) where
  closure : Nat → Closure N
  limit : Nat
  hash : TValue N → Nat
  depth : Nat

namespace Host

variable (H : Host N)

def closureOf : TValue N → Option (Closure N)
  | .function r => some (H.closure r)
  | _ => none

/-- The prototype of a Lua function. -/
def protoOf (v : TValue N) : Option (Proto N) :=
  match H.closureOf v with
  | some (.lua p) => some p
  | _ => none

end Host

/-- `tryfuncTM`; `tm` is the tag method for `TM_CALL`. -/
def tryfuncTM (tm : TValue N) (func : Nat) (L : Stack N) : Except (CallError N) (Stack N) :=
  if tm.ttype ≠ .LUA_TFUNCTION then .error (.typeerror (L.get func) "call")
  else
    let L := L.withStack (copyDown (func + 1) func (L.top - func))
    .ok ({ L with top := L.top + 1 }.set func tm)

/-- `inc_ci`. -/
def incCi (H : Host N) (L : Stack N) : Except (CallError N) (Stack N) :=
  if L.ci + 1 < H.limit then .ok { L with ci := L.ci + 1 } else .error .overflow

/-- The `luaD_poscall` loop over the results, with what is left of the count and where it ends. -/
def moveResults : Nat → Int → Nat → Nat → (Nat → TValue N) → Int × Nat × (Nat → TValue N)
  | 0, i, _, res, m => (i, res, m)
  | n + 1, i, firstResult, res, m =>
    if i ≠ 0 then moveResults n (i - 1) (firstResult + 1) (res + 1) (put m res (m firstResult))
    else (i, res, m)

/-- `luaD_poscall`. -/
def luaDPoscall (firstResult : Nat) (L : Stack N) : Int × Stack N :=
  let ci := L.frame
  let wanted := ci.nresults
  let caller := L.frames (L.ci - 1)
  let (i, res, m) := moveResults (L.top - firstResult) wanted firstResult ci.func L.up.stack
  (wanted - LUA_MULTRET,
    { L with
      ci := L.ci - 1
      base := caller.base
      savedpc := caller.savedpc
      top := res + i.toNat
      up := { L.up with stack := putUp (fun _ => .nil) i.toNat res m } })

/-- The loop of `OP_VARARG`, from `j` on; the extra arguments are the `n` values below `base`. -/
def varargLoop (base : Nat) (n : Int) (ra : Nat) : Nat → Nat → (Nat → TValue N) → Nat → TValue N
  | 0, _, m => m
  | k + 1, j, m =>
    let v := if (j : Int) < n then m ((base : Int) - n + j).toNat else .nil
    varargLoop base n ra k (j + 1) (put m (ra + j) v)

/-- `OP_VARARG`. -/
def opVararg (p : Proto N) (a b : Nat) (L : Stack N) : Stack N :=
  let ra := L.base + a
  let n : Int := (L.frame.base : Int) - L.frame.func - p.numparams - 1
  if (b : Int) - 1 = LUA_MULTRET then
    { L.withStack (varargLoop L.frame.base n ra n.toNat 0) with top := ((ra : Int) + n).toNat }
  else L.withStack (varargLoop L.frame.base n ra (b - 1) 0)

section Entering

variable [LuaNumber N] (H : Host N)

/-- The extra arguments go into the `arg` table; `extra i` is at `L->top - nvar + i`. -/
def argLoop (extra : Nat → TValue N) : List Nat → Table N → Except Failure (Table N)
  | [], t => .ok t
  | i :: is, t => do
    let (s, t) ← luaHSetnum H.hash H.depth t (BitVec.ofNat 32 (i + 1))
    let t ← t.write (extra i) s
    argLoop extra is t

def argTable (extra : Nat → TValue N) (nvar : Nat) : Except Failure (Table N) := do
  let htab ← luaHNew nvar 1
  let htab ← argLoop H extra (List.range nvar) htab
  let (s, htab) ← luaHSetstr H.hash H.depth htab (bytes "n")
  htab.write (.number (castNum (BitVec.ofNat 32 nvar))) s

/-- The parameters come to their places above the arguments, and where they were is nil. -/
def moveFixed (fixed : Nat) : Nat → Nat → Stack N → Stack N
  | 0, _, L => L
  | n + 1, i, L => moveFixed fixed n (i + 1) ((L.push (L.get (fixed + i))).set (fixed + i) .nil)

/-- The missing arguments of `adjust_varargs` are nil. -/
def padArguments (missing : Nat) (L : Stack N) : Stack N :=
  { L.withStack (putUp (fun _ => .nil) missing L.top) with top := L.top + missing }

/-- The rest of `adjust_varargs`, with the base that it returns. -/
def placeArguments (addr : Nat) (p : Proto N) (actual : Nat) (L : Stack N) :
    Except (CallError N) (Nat × Stack N) :=
  let nfixargs := p.numparams
  let nvar := actual - nfixargs
  let fixed := L.top - actual
  let base := L.top
  if p.needsArg then
    match argTable H (fun i => L.get (L.top - nvar + i)) nvar with
    | .error e => .error (.table e)
    | .ok htab => .ok (base, (moveFixed fixed nfixargs 0 (L.setTable addr htab)).push (.table addr))
  else .ok (base, moveFixed fixed nfixargs 0 L)

/-- `adjust_varargs`; `addr` is where the `arg` table comes to. -/
def adjustVarargs (addr : Nat) (p : Proto N) (actual : Nat) (L : Stack N) :
    Except (CallError N) (Nat × Stack N) :=
  let missing := p.numparams - actual
  placeArguments H addr p (actual + missing) (padArguments missing L)

/-- The arguments of a Lua function come to their places, with its base. -/
def adjustArguments (addr : Nat) (p : Proto N) (func : Nat) (L : Stack N) :
    Except (CallError N) (Nat × Stack N) :=
  if p.isVararg = 0 then
    let base := func + 1
    .ok (base, if L.top > base + p.numparams then { L with top := base + p.numparams } else L)
  else adjustVarargs H addr p (L.top - func - 1) L

/-- The new frame of a Lua function; its registers above the arguments are nil. -/
def enterLua (p : Proto N) (func base : Nat) (nresults : Int) (L : Stack N) : Stack N :=
  let top := base + p.maxstacksize
  let L := L.setFrame L.ci ⟨base, func, top, L.frame.savedpc, nresults, 0⟩
  { L.withStack (putUp (fun _ => .nil) (top - L.top) L.top) with
    base := base
    savedpc := 0
    top := top }

/-- The new frame of a C function. -/
def enterC (func : Nat) (nresults : Int) (L : Stack N) : Stack N :=
  let base := func + 1
  let L := L.setFrame L.ci
    ⟨base, func, L.top + LUA_MINSTACK, L.frame.savedpc, nresults, L.frame.tailcalls⟩
  { L with base := base }

/-- `luaD_precall` of a function that can be called, up to where it runs. -/
def precallFunction (addr func : Nat) (nresults : Int) (L : Stack N) :
    Except (CallError N) (Entered × Stack N) :=
  let L := L.setFrame L.ci { L.frame with savedpc := L.savedpc }
  match H.closureOf (L.get func) with
  | some (.lua p) => do
    let (base, L) ← adjustArguments H addr p func L
    let L ← incCi H L
    .ok (.PCRLUA, enterLua p func base nresults L)
  | some .c => do
    let L ← incCi H L
    .ok (.PCRC, enterC func nresults L)
  | none => .error (.typeerror (L.get func) "call")

/-- `luaD_precall`, up to where the function runs. -/
def luaDPrecall (tm : TValue N) (addr func : Nat) (nresults : Int) (L : Stack N) :
    Except (CallError N) (Entered × Stack N) :=
  if (L.get func).ttype = .LUA_TFUNCTION then precallFunction H addr func nresults L
  else do
    let L ← tryfuncTM tm func L
    precallFunction H addr func nresults L

/-- `L->top` behind the arguments; an open instruction before has set it where `b` is zero. -/
def setArguments (a b : Nat) (L : Stack N) : Stack N :=
  if b ≠ 0 then { L with top := L.base + a + b } else L

/-- `OP_CALL`, up to where the function runs; `pc` is where the instruction ends. -/
def opCall (tm : TValue N) (addr pc a b c : Nat) (L : Stack N) :
    Except (CallError N) (Entered × Stack N) :=
  luaDPrecall H tm addr (L.base + a) ((c : Int) - 1) { setArguments a b L with savedpc := pc }

end Entering

/-- What `OP_TAILCALL` does with the frame of a Lua function: it takes the place of the one below. -/
def replaceFrame (L : Stack N) : Stack N :=
  let ci := L.frames (L.ci - 1)
  let func := ci.func
  let pfunc := L.frame.func
  let up := if L.up.openupval ≠ [] then luaFClose L.up ci.base else L.up
  let base := func + (L.frame.base - pfunc)
  let aux := L.top - pfunc
  let top := func + aux
  let L := { L with up := { up with stack := copyUp func pfunc aux up.stack } }
  let L := L.setFrame (L.ci - 1) ⟨base, func, top, L.savedpc, ci.nresults, ci.tailcalls + 1⟩
  { L with base := base, top := top, ci := L.ci - 1 }

/-- `OP_TAILCALL`, up to where the function runs; a C function runs above the frame that calls it. -/
def opTailcall [LuaNumber N] (H : Host N) (tm : TValue N) (addr pc a b : Nat) (L : Stack N) :
    Except (CallError N) (Entered × Stack N) := do
  let (e, L) ← luaDPrecall H tm addr (L.base + a) LUA_MULTRET { setArguments a b L with savedpc := pc }
  match e with
  | .PCRLUA => .ok (e, replaceFrame L)
  | .PCRC => .ok (e, L)

/-- `L->top` behind the results. -/
def setResults (a b : Nat) (L : Stack N) : Stack N :=
  if b ≠ 0 then { L with top := L.base + a + b - 1 } else L

/-- `OP_RETURN`, with what `luaD_poscall` returns; `pc` is where the instruction ends. -/
def opReturn (pc a b : Nat) (L : Stack N) : Int × Stack N :=
  let L := setResults a b L
  let up := if L.up.openupval ≠ [] then luaFClose L.up L.base else L.up
  luaDPoscall (L.base + a) { L with up := up, savedpc := pc }

end UgmeeLua.Calls

import UgmeeLua.Lexer.Token
import UgmeeLua.Vm.Upvalue

namespace UgmeeLua

def LUAI_MAXCCALLS : Nat := 200

def LUAI_MAXCALLS : Nat := 20000

def LUA_MINSTACK : Nat := 20

def EXTRA_STACK : Nat := 5

def BASIC_CI_SIZE : Nat := 8

def BASIC_STACK_SIZE : Nat := 40

/-- The codes that an error is thrown with. -/
inductive ErrorCode where
  | LUA_ERRRUN
  | LUA_ERRSYNTAX
  | LUA_ERRMEM
  | LUA_ERRERR
  deriving DecidableEq, Repr

/-- A call frame; `base`, `func` and `top` are addresses in the stack. -/
structure CallInfo where
  base : Nat
  func : Nat
  top : Nat
  savedpc : Nat
  nresults : Int
  tailcalls : Nat
  deriving DecidableEq, Repr

variable {N : Type}

/-- A thread. `stack`, `top` and `base` are addresses of values, `baseCi` and `ci` of call frames, and
`frames` is the array at `baseCi`. What is in the stack and where the open upvalues lead is kept by
offsets from `stack`. `errorJmp` is the number of long jump buffers in the chain. -/
structure Thread (N : Type) where
  stack : Nat
  stacksize : Nat
  top : Nat
  base : Nat
  savedpc : Nat
  baseCi : Nat
  sizeCi : Nat
  ci : Nat
  frames : Nat → CallInfo
  nCcalls : BitVec 16
  allowhook : Bool
  hook : Bool
  errfunc : Nat
  errorJmp : Nat
  up : Upvalues N

namespace Thread

section Access

variable (L : Thread N)

def savestack (p : Nat) : Nat := p - L.stack

def restorestack (n : Nat) : Nat := L.stack + n

def saveci (p : Nat) : Nat := p - L.baseCi

def restoreci (n : Nat) : Nat := L.baseCi + n

/-- `*L->ci`. -/
def frame : CallInfo := L.frames (L.saveci L.ci)

def setFrame (i : Nat) (c : CallInfo) : Thread N :=
  { L with frames := fun j => if j = i then c else L.frames j }

end Access

/-- `stack_init`, with what `preinit_state` sets before. -/
def stackInit (stack baseCi : Nat) (values : Nat → TValue N) : Thread N where
  stack := stack
  stacksize := BASIC_STACK_SIZE + EXTRA_STACK
  top := stack + 1
  base := stack + 1
  savedpc := 0
  baseCi := baseCi
  sizeCi := BASIC_CI_SIZE
  ci := baseCi
  frames _ := ⟨stack + 1, stack, stack + 1 + LUA_MINSTACK, 0, 0, 0⟩
  nCcalls := 0
  allowhook := true
  hook := false
  errfunc := 0
  errorJmp := 0
  up := ⟨fun s => if s = 0 then .nil else values s, fun _ => none, [], []⟩

def correctstack (oldstack : Nat) (L : Thread N) : Thread N :=
  let move := fun p => p - oldstack + L.stack
  { L with
    top := move L.top
    frames := fun i =>
      if i ≤ L.saveci L.ci then
        { L.frames i with
          top := move (L.frames i).top
          base := move (L.frames i).base
          func := move (L.frames i).func }
      else L.frames i
    base := move L.base }

/-- `luaD_reallocstack`; `addr` is where the stack comes to. -/
def luaDReallocstack (addr newsize : Nat) (L : Thread N) : Thread N :=
  correctstack L.stack { L with stack := addr, stacksize := newsize + 1 + EXTRA_STACK }

/-- `luaD_reallocCI`; `addr` is where the array comes to. -/
def luaDReallocCI (addr newsize : Nat) (L : Thread N) : Thread N :=
  { L with baseCi := addr, sizeCi := newsize, ci := L.ci - L.baseCi + addr }

/-- What `checkstacksizes` does to the call frames. -/
def checkstacksizes (addr : Nat) (L : Thread N) : Thread N :=
  let ciUsed := L.ci - L.baseCi
  if L.sizeCi > LUAI_MAXCALLS then L
  else if 4 * ciUsed < L.sizeCi ∧ 2 * BASIC_CI_SIZE < L.sizeCi then
    luaDReallocCI addr (L.sizeCi / 2) L
  else L

/-- How a piece of code ends: as it should, or in a long jump to a buffer. -/
inductive Ending where
  | done
  | thrown (errorJmp : Nat) (status : ErrorCode)
  deriving DecidableEq, Repr

/-- What a piece of code makes of the thread that it runs in. -/
abbrev Running (N : Type) := Thread N → Ending × Thread N

def andThen (r : Ending × Thread N) (k : Running N) : Ending × Thread N :=
  match r with
  | (.done, L) => k L
  | (.thrown errorJmp status, L) => (.thrown errorJmp status, L)

def luaDThrow (status : ErrorCode) : Running N := fun L => (.thrown L.errorJmp status, L)

/-- `luaG_runerror`; `report` puts the message on the stack and calls the error function. -/
def luaGRunerror (report : Running N) : Running N := fun L =>
  andThen (report L) (luaDThrow .LUA_ERRRUN)

/-- `luaX_lexerror`. -/
def luaXLexerror (report : Running N) : Running N := fun L =>
  andThen (report L) (luaDThrow .LUA_ERRSYNTAX)

/-- `inc_ci`, with `growCI` when the array is full. -/
def incCi (report : Running N) (addr : Nat) : Running N := fun L =>
  if L.ci = L.baseCi + L.sizeCi - 1 then
    if L.sizeCi > LUAI_MAXCALLS then luaDThrow .LUA_ERRERR L
    else
      let L := luaDReallocCI addr (2 * L.sizeCi) L
      if L.sizeCi > LUAI_MAXCALLS then luaGRunerror report L
      else (.done, { L with ci := L.ci + 1 })
  else (.done, { L with ci := L.ci + 1 })

/-- A function as `luaD_precall` comes to it, with its arguments in their place: offsets of its entry in
the stack, of its base and of the top of its frame, and, for its end, of its first result. -/
structure Callee where
  addr : Nat
  func : Nat
  base : Nat
  top : Nat
  nresults : Int
  isC : Bool
  firstResult : Nat
  deriving DecidableEq, Repr

/-- What `luaD_precall` writes into the new frame. -/
def initFrame (c : Callee) (L : Thread N) : Thread N :=
  let base := L.restorestack c.base
  let top := L.restorestack c.top
  let L := L.setFrame (L.saveci L.ci)
    ⟨base, L.restorestack c.func, top, L.frame.savedpc, c.nresults,
      if c.isC then L.frame.tailcalls else 0⟩
  { L with
    base := base
    top := if c.isC then L.top else top
    savedpc := if c.isC then L.savedpc else 0 }

/-- `luaD_precall`, up to where the function runs. -/
def luaDPrecall (report : Running N) (c : Callee) : Running N := fun L =>
  let L := L.setFrame (L.saveci L.ci) { L.frame with savedpc := L.savedpc }
  andThen (incCi report c.addr L) fun L => (.done, initFrame c L)

/-- `luaD_poscall`: `wanted` results, or all there are when it is negative. -/
def luaDPoscall (firstResult : Nat) : Running N := fun L =>
  let c := L.frame
  let res := L.savestack c.func
  let actual := L.savestack L.top - firstResult
  let (moved, total) := if c.nresults < 0 then (actual, actual)
    else (min c.nresults.toNat actual, c.nresults.toNat)
  let values := fun s =>
    if res ≤ s ∧ s < res + moved then L.up.stack (firstResult + (s - res))
    else if res ≤ s ∧ s < res + total then .nil
    else L.up.stack s
  let caller := L.frames (L.saveci (L.ci - 1))
  (.done, { L with
    ci := L.ci - 1
    base := caller.base
    savedpc := caller.savedpc
    top := L.restorestack (res + total)
    up := { L.up with stack := values } })

/-- What `OP_TAILCALL` does with the frame of a Lua function: it takes the place of the one below. -/
def replaceFrame : Running N := fun L =>
  let c := L.frame
  let i := L.saveci (L.ci - 1)
  let ci := L.frames i
  let func := L.savestack ci.func
  let pfunc := L.savestack c.func
  let aux := L.savestack L.top - pfunc
  let up := if L.up.openupval = [] then L.up else luaFClose L.up (L.savestack ci.base)
  let base := ci.func + (c.base - c.func)
  let top := L.restorestack (func + aux)
  let values := fun s =>
    if func ≤ s ∧ s < func + aux then up.stack (pfunc + (s - func)) else up.stack s
  let L := L.setFrame i ⟨base, ci.func, top, L.savedpc, ci.nresults, ci.tailcalls + 1⟩
  (.done, { L with
    ci := L.ci - 1
    base := base
    top := top
    up := { up with stack := values } })

/-- `luaD_call`; `body` calls `luaD_precall` and `luaV_execute`. -/
def luaDCall (report body : Running N) : Running N := fun L =>
  let L := { L with nCcalls := L.nCcalls + 1 }
  let n := L.nCcalls.toNat
  let checked := if n ≥ LUAI_MAXCCALLS then
      if n = LUAI_MAXCCALLS then luaGRunerror report L
      else if n ≥ LUAI_MAXCCALLS + LUAI_MAXCCALLS / 8 then luaDThrow .LUA_ERRERR L
      else (.done, L)
    else (.done, L)
  andThen checked fun L =>
    andThen (body L) fun L => (.done, { L with nCcalls := L.nCcalls - 1 })

/-- What the parser does between `enterlevel` and `leavelevel`. -/
def enterlevel (report body : Running N) : Running N := fun L =>
  let L := { L with nCcalls := L.nCcalls + 1 }
  andThen (if L.nCcalls.toNat > LUAI_MAXCCALLS then luaXLexerror report L else (.done, L)) fun L =>
    andThen (body L) fun L => (.done, { L with nCcalls := L.nCcalls - 1 })

/-- `luaD_callhook`. -/
def luaDCallhook (body : Running N) : Running N := fun L =>
  if L.hook ∧ L.allowhook then
    let top := L.savestack L.top
    let ciTop := L.savestack L.frame.top
    let L := L.setFrame (L.saveci L.ci) { L.frame with top := L.top + LUA_MINSTACK }
    andThen (body { L with allowhook := false }) fun L =>
      let L := L.setFrame (L.saveci L.ci) { L.frame with top := L.restorestack ciTop }
      (.done, { L with allowhook := true, top := L.restorestack top })
  else (.done, L)

/-- `GCTM`, where there is a tag method. -/
def gctm (body : Running N) : Running N := fun L =>
  let oldah := L.allowhook
  andThen (body { L with allowhook := false }) fun L => (.done, { L with allowhook := oldah })

/-- `luaD_rawrunprotected`, with the status that it returns. A long jump to another buffer goes on. -/
def luaDRawrunprotected (f : Running N) (L : Thread N) : Ending × Option ErrorCode × Thread N :=
  let previous := L.errorJmp
  let lj := previous + 1
  match f { L with errorJmp := lj } with
  | (.done, L) => (.done, none, { L with errorJmp := previous })
  | (.thrown errorJmp status, L) =>
    if errorJmp = lj then (.done, some status, { L with errorJmp := previous })
    else (.thrown errorJmp status, none, L)

/-- The value that stands for an error. -/
def errorObject (errcode : ErrorCode) (L : Thread N) : TValue N :=
  match errcode with
  | .LUA_ERRMEM => .string (bytes "not enough memory")
  | .LUA_ERRERR => .string (bytes "error in error handling")
  | .LUA_ERRSYNTAX | .LUA_ERRRUN => L.up.stack (L.savestack (L.top - 1))

/-- `luaD_seterrorobj`; `room` says whether a string can be had that is not there yet. The message of a
memory error is always there. -/
def luaDSeterrorobj (room : Bool) (errcode : ErrorCode) (oldtop : Nat) : Running N := fun L =>
  if errcode = .LUA_ERRERR ∧ room = false then luaDThrow .LUA_ERRMEM L
  else (.done, { L with
    up := L.up.setStack (L.savestack oldtop) (errorObject errcode L)
    top := oldtop + 1 })

def restoreStackLimit (addr : Nat) (L : Thread N) : Thread N :=
  if L.sizeCi > LUAI_MAXCALLS then
    let inuse := L.ci - L.baseCi
    if inuse + 1 < LUAI_MAXCALLS then luaDReallocCI addr LUAI_MAXCALLS L else L
  else L

/-- What `luaD_pcall` does after an error. -/
def recover (room : Bool) (status : ErrorCode) (oldTop oldCi addr : Nat) (oldnCcalls : BitVec 16)
    (oldAllowhooks : Bool) : Running N := fun L =>
  let oldtop := L.restorestack oldTop
  let L := { L with up := luaFClose L.up (L.savestack oldtop) }
  andThen (luaDSeterrorobj room status oldtop L) fun L =>
    let L := { L with nCcalls := oldnCcalls, ci := L.restoreci oldCi }
    let L := { L with base := L.frame.base, savedpc := L.frame.savedpc, allowhook := oldAllowhooks }
    (.done, restoreStackLimit addr L)

/-- `luaD_pcall`, with the status that it returns; `oldTop` and `ef` are offsets in the stack. -/
def luaDPcall (room : Bool) (func : Running N) (oldTop ef addr : Nat) (L : Thread N) :
    Ending × Option ErrorCode × Thread N :=
  let oldnCcalls := L.nCcalls
  let oldCi := L.saveci L.ci
  let oldAllowhooks := L.allowhook
  let oldErrfunc := L.errfunc
  match luaDRawrunprotected func { L with errfunc := ef } with
  | (.done, none, L) => (.done, none, { L with errfunc := oldErrfunc })
  | (.done, some status, L) =>
    match recover room status oldTop oldCi addr oldnCcalls oldAllowhooks L with
    | (.done, L) => (.done, some status, { L with errfunc := oldErrfunc })
    | (.thrown errorJmp status, L) => (.thrown errorJmp status, none, L)
  | (.thrown errorJmp status, s, L) => (.thrown errorJmp status, s, L)

/-- What the code of a run does to its thread, one thing after the other: C functions, the interpreter,
the parser, hooks, metamethods and the collector. The lists in it are what the code does in between.
Memory comes from addresses that are free. -/
inductive Action (N : Type) where
  | setTop (n : Nat)
  | setStack (s : Nat) (v : TValue N)
  | setPc (pc : Nat)
  | setHook (hook : Bool)
  | reallocStack (addr newsize : Nat)
  | shrinkCI (addr : Nat)
  | findupval (level addr : Nat)
  | close (level : Nat)
  | sweepUpval (u : Nat)
  | throw (status : ErrorCode)
  | call (report body : List (Action N))
  | enter (c : Callee) (report body : List (Action N))
  | tailcall (c : Callee) (report : List (Action N))
  | hook (body : List (Action N))
  | gctm (body : List (Action N))
  | level (report body : List (Action N))
  | pcall (room : Bool) (body : List (Action N)) (oldTop ef addr : Nat)

mutual

/-- The effect of an action; only a Lua function, which runs in its own frame, makes tail calls. -/
def Action.run (isLua : Bool) : Action N → Running N
  | .setTop n => fun L => (.done, { L with top := L.restorestack n })
  | .setStack s v => fun L => (.done, { L with up := L.up.setStack s v })
  | .setPc pc => fun L => (.done, { L with savedpc := pc })
  | .setHook hook => fun L => (.done, { L with hook := hook })
  | .reallocStack addr newsize => fun L => (.done, luaDReallocstack addr newsize L)
  | .shrinkCI addr => fun L => (.done, checkstacksizes addr L)
  | .findupval level addr => fun L =>
    (.done, if (L.up.heap addr).isSome then L
      else { L with up := (luaFFindupval L.up level addr).2 })
  | .close level => fun L => (.done, { L with up := luaFClose L.up level })
  | .sweepUpval u => fun L => (.done, { L with up := UgmeeLua.sweepUpval L.up u })
  | .throw status => luaDThrow status
  | .call report body => luaDCall (runAll false report) (runAll false body)
  | .enter c report body => fun L =>
    andThen (luaDPrecall (runAll false report) c L) fun L =>
      andThen (runAll (!c.isC) body L) (luaDPoscall c.firstResult)
  | .tailcall c report => fun L =>
    if isLua then andThen (luaDPrecall (runAll false report) c L) replaceFrame else (.done, L)
  | .hook body => luaDCallhook (runAll false body)
  | .gctm body => Thread.gctm (runAll false body)
  | .level report body => enterlevel (runAll false report) (runAll false body)
  | .pcall room body oldTop ef addr => fun L =>
    let r := luaDPcall room (runAll false body) oldTop ef addr L
    (r.1, r.2.2)

def runAll (isLua : Bool) : List (Action N) → Running N
  | [] => fun L => (.done, L)
  | a :: as => fun L => andThen (a.run isLua L) (runAll isLua as)

end

end Thread

end UgmeeLua

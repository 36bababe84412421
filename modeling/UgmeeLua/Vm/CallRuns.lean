import UgmeeLua.Vm.Calls

namespace UgmeeLua.Calls

open Block Ltable

variable {N : Type}

/-- What a protected call keeps for its end: the frame, and the top of the stack without the function. -/
structure Handler where
  ci : Nat
  oldtop : Nat
  deriving DecidableEq, Repr

/-- A thread and the protected calls that it is in, the innermost first. -/
structure State (N : Type) where
  L : Stack N
  handlers : List Handler

/-- What running code does to its thread: the interpreter and C functions, by registers of the frame that
runs. `tm`, `addr` and `msg` come from the rest of the program: a tag method, an address that is free,
and the value that stands for an error. -/
inductive Action (N : Type) where
  | getReg (i : Nat)
  | setReg (i : Nat) (v : TValue N)
  | setTop (n : Nat)
  | push (v : TValue N)
  | gettop
  | getUpval (u : Nat)
  | setUpval (u : Nat) (v : TValue N)
  | findupval (i addr : Nat)
  | close (i : Nat)
  | getTable (r : Nat)
  | setTable (r : Nat) (t : Table N)
  | vararg (a b : Nat)
  | opCall (tm : TValue N) (addr pc a b c : Nat) (msg : TValue N)
  | luaDCall (tm : TValue N) (addr a : Nat) (nresults : Int) (msg : TValue N)
  | tailcall (tm : TValue N) (addr pc a b : Nat) (msg : TValue N)
  | opReturn (pc a b : Nat)
  | returnC (n : Nat)
  | getstack (level : Nat)
  | pcall (a : Nat)
  | endPcall
  | throw (v : TValue N)

/-- What the code sees of what it has done. -/
inductive Observed (N : Type) where
  | done
  | value (v : TValue N)
  | count (n : Nat)
  | upval (u : Nat)
  | table (t : Option (Table N))
  | level (f : Option (TValue N))
  | entered (e : Entered)

/-- Code, by what it does next after all that it has seen. -/
abbrev Code (N : Type) := List (Observed N) → Action N

/-- What comes of an action: the code goes on, the function at the bottom has returned, an error leaves
it, or the frames are full. Code that has been checked does not get stuck. -/
inductive Next (N : Type) where
  | go (o : Observed N) (s : State N)
  | returned (b : Int) (s : State N)
  | raised (v : TValue N)
  | overflow
  | stuck

/-- Where `lua_getstack` ends: at a frame, at a tail call that is lost, or nowhere. -/
inductive Level where
  | frame (i : Nat)
  | lost
  | none
  deriving DecidableEq, Repr

namespace Stack

variable (H : Host N) (L : Stack N)

/-- The function of a frame. -/
def funcAt (i : Nat) : TValue N := L.get (L.frames i).func

def isLuaAt (i : Nat) : Bool := (H.protoOf (L.funcAt i)).isSome

/-- `isLua(L->ci)`. -/
def isLua : Bool := L.isLuaAt H L.ci

/-- A place that the running function may come to. -/
def holds (s : Nat) : Bool := s < L.top || L.isLua H && s < L.frame.top

/-- The `n` operands from `ra` on, or those up to the top where `b` is zero. -/
def fits (ra b n : Nat) : Bool := if b = 0 then ra ≤ L.top else ra + n ≤ L.frame.top

/-- An upvalue that is not dead. -/
def readUpval (u : Nat) : Option (TValue N) :=
  if (L.up.heap u).any (·.dead) then none else L.up.read u

/-- The loop of `lua_getstack`, from the frame `i` on down. -/
def getstackLoop : Nat → Int → Level
  | 0, level => if level < 0 then .lost else .none
  | i + 1, level =>
    if level > 0 then
      getstackLoop i (level - 1 -
        (if L.isLuaAt H (i + 1) then ((L.frames (i + 1)).tailcalls : Int) else 0))
    else if level = 0 then .frame (i + 1)
    else .lost

/-- `lua_getstack`. -/
def luaGetstack (level : Nat) : Level := L.getstackLoop H L.ci level

/-- The function at a level, which is nil for a tail call that is lost. -/
def levelFunc : Level → Option (TValue N)
  | .frame i => some (L.funcAt i)
  | .lost => some .nil
  | .none => Option.none

end Stack

namespace State

variable (s : State N)

def withL (L : Stack N) : State N := { s with L := L }

/-- No protected call belongs to the frame that runs. -/
def unprotected : Bool :=
  match s.handlers with
  | [] => true
  | h :: _ => h.ci < s.L.ci

/-- What `luaD_pcall` does after an error, with the error on the stack. -/
def recover (h : Handler) (rest : List Handler) (v : TValue N) : State N :=
  let L := s.L
  let L := { L with up := luaFClose L.up h.oldtop }.set h.oldtop v
  let ci := L.frames h.ci
  ⟨{ L with top := h.oldtop + 1, ci := h.ci, base := ci.base, savedpc := ci.savedpc }, rest⟩

/-- An error goes to the innermost protected call, or leaves the function when only `outer` protected
calls are there, which are older than the function. -/
def raise (outer : Nat) (v : TValue N) : Next N :=
  match s.handlers with
  | [] => .raised v
  | h :: rest => if rest.length < outer then .raised v else .go .done (s.recover h rest v)

/-- What comes of a call; the function runs next. -/
def enter (outer : Nat) (msg : TValue N) : Except (CallError N) (Entered × Stack N) → Next N
  | .ok (e, L) => .go (.entered e) (s.withL L)
  | .error .overflow => .overflow
  | .error _ => s.raise outer msg

/-- What comes of a return from the frame that runs, where `bottom` is the frame of the function. -/
def leave (bottom : Nat) (r : Int × Stack N) : Next N :=
  if s.L.ci = bottom then .returned r.1 (s.withL r.2) else .go .done (s.withL r.2)

end State

/-- One action, in a function that has the frame `bottom`. -/
def exec [LuaNumber N] (H : Host N) (bottom outer : Nat) (s : State N) : Action N → Next N
  | .getReg i =>
    if s.L.holds H (s.L.base + i) then .go (.value (s.L.get (s.L.base + i))) s else .stuck
  | .setReg i v =>
    if s.L.holds H (s.L.base + i) then .go .done (s.withL (s.L.set (s.L.base + i) v)) else .stuck
  | .setTop n =>
    if s.L.base + n ≤ s.L.top ∨ s.L.isLua H ∧ s.L.base + n ≤ s.L.frame.top then
      .go .done (s.withL { s.L with top := s.L.base + n })
    else .stuck
  | .push v => .go .done (s.withL (s.L.push v))
  | .gettop => .go (.count (s.L.top - s.L.base)) s
  | .getUpval u =>
    match s.L.readUpval u with
    | some v => .go (.value v) s
    | none => .stuck
  | .setUpval u v =>
    match s.L.readUpval u with
    | some _ => .go .done (s.withL { s.L with up := s.L.up.write u v })
    | none => .stuck
  | .findupval i addr =>
    if s.L.isLua H ∧ s.L.base + i < s.L.frame.top ∧ (s.L.up.heap addr).isNone then
      let r := luaFFindupval s.L.up (s.L.base + i) addr
      .go (.upval r.1) (s.withL { s.L with up := r.2 })
    else .stuck
  | .close i => .go .done (s.withL { s.L with up := luaFClose s.L.up (s.L.base + i) })
  | .getTable r => .go (.table (s.L.tables r)) s
  | .setTable r t => .go .done (s.withL (s.L.setTable r t))
  | .vararg a b =>
    match H.protoOf (s.L.funcAt s.L.ci) with
    | some p =>
      -- in a vararg function the parameters have been moved, and `n` is not negative
      if s.L.frame.func + p.numparams < s.L.frame.base ∧
          s.L.base + a + (b - 1) ≤ s.L.frame.top then
        .go .done (s.withL (opVararg p a b s.L))
      else .stuck
    | none => .stuck
  | .opCall tm addr pc a b c msg =>
    if s.L.isLua H ∧ s.L.base + a < (setArguments a b s.L).top ∧ s.L.fits (s.L.base + a) b b then
      s.enter outer msg (opCall H tm addr pc a b c s.L)
    else .stuck
  | .luaDCall tm addr a nresults msg =>
    if s.L.base + a < s.L.top then
      s.enter outer msg (luaDPrecall H tm addr (s.L.base + a) nresults s.L)
    else .stuck
  | .tailcall tm addr pc a b msg =>
    if s.L.isLua H ∧ s.unprotected ∧ s.L.base + a < (setArguments a b s.L).top ∧
        s.L.fits (s.L.base + a) b b then
      s.enter outer msg (opTailcall H tm addr pc a b s.L)
    else .stuck
  | .opReturn pc a b =>
    if s.L.isLua H ∧ s.unprotected ∧ s.L.fits (s.L.base + a) b (b - 1) then
      s.leave bottom (opReturn pc a b s.L)
    else .stuck
  | .returnC n =>
    if s.L.isLua H = false ∧ s.unprotected ∧ s.L.base + n ≤ s.L.top then
      s.leave bottom (luaDPoscall (s.L.top - n) s.L)
    else .stuck
  | .getstack level => .go (.level (s.L.levelFunc (s.L.luaGetstack H level))) s
  | .pcall a =>
    if s.L.base + a ≤ s.L.top then
      .go .done { s with handlers := ⟨s.L.ci, s.L.base + a⟩ :: s.handlers }
    else .stuck
  | .endPcall =>
    match s.handlers with
    | [] => .stuck
    | h :: rest =>
      if h.ci = s.L.ci ∧ outer ≤ rest.length then .go .done { s with handlers := rest } else .stuck
  | .throw v => s.raise outer v

/-- A run of a function, action by action. -/
def run [LuaNumber N] (H : Host N) (code : Code N) (bottom outer : Nat) :
    Nat → List (Observed N) → State N → Next N
  | 0, _, s => .go .done s
  | n + 1, seen, s =>
    match exec H bottom outer s (code seen) with
    | .go o s => run H code bottom outer n (seen ++ [o]) s
    | r => r

end UgmeeLua.Calls

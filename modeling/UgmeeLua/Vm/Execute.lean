import UgmeeLua.Vm.Arith
import UgmeeLua.Vm.CheckCode

namespace UgmeeLua

open Loop OpCode

/-- Accesses of `luaV_execute` that go astray: a register at or above `maxstacksize`, a constant, an
upvalue or a prototype that is not there, an instruction outside of the code, an operand count from
a `top` that no instruction has set. -/
inductive Fault where
  | register (i : Nat)
  | constant (i : Nat)
  | upvalue (i : Nat)
  | proto (i : Nat)
  | pc
  | top
  deriving DecidableEq, Repr

inductive Halt (N E : Type) where
  | fault (x : Fault)
  | error (e : LuaError N E)

/-- What the rest of the interpreter may change while the function waits for it: the registers,
which are upvalues of other functions, and everything else. -/
structure Machine (N W : Type) where
  regs : Nat → TValue N
  world : W

/-- The activation of a function; `top` is none where `L->top` is `L->ci->top`. -/
structure Frame (N W : Type) where
  pc : Nat
  top : Option Nat
  varargs : List (TValue N)
  mach : Machine N W

abbrev Foreign (N W E α : Type) := Machine N W → Except E (α × Machine N W)

/-- The functions that `luaV_execute` calls, and what it reads of the closure that it runs. -/
structure Host (N W E : Type) where
  nvalue : TValue N → N
  heap : Machine N W → Heap N
  env : TValue N
  getupval : Nat → Machine N W → TValue N
  setupval : Nat → TValue N → Machine N W → Machine N W
  runerror : Bytes → E
  traceexec : Foreign N W E Unit
  gettable : TValue N → TValue N → Foreign N W E (TValue N)
  settable : TValue N → TValue N → TValue N → Foreign N W E Unit
  newtable : Nat → Nat → Foreign N W E (TValue N)
  argtable : List (TValue N) → Foreign N W E (TValue N)
  objlen : TValue N → Foreign N W E (TValue N)
  concat : List (TValue N) → Foreign N W E (TValue N)
  equalobj : TValue N → TValue N → Foreign N W E Bool
  lessthan : TValue N → TValue N → Foreign N W E Bool
  lessequal : TValue N → TValue N → Foreign N W E Bool
  call : TValue N → List (TValue N) → Option Nat → Foreign N W E (List (TValue N))
  tailcall : TValue N → List (TValue N) → Foreign N W E (Option (List (TValue N)))
  setlist : TValue N → Int → List (TValue N) → Foreign N W E Unit
  close : Nat → Machine N W → Machine N W
  closure : Proto N → List (Nat ⊕ Nat) → Foreign N W E (TValue N)

variable {N W E α : Type}

namespace Frame

variable (p : Proto N) (f : Frame N W)

def reg (i : Nat) : Except (Halt N E) (TValue N) :=
  if i < p.maxstacksize then .ok (f.mach.regs i) else .error (.fault (.register i))

def setReg (i : Nat) (v : TValue N) : Except (Halt N E) (Frame N W) :=
  if i < p.maxstacksize then
    .ok { f with mach := { f.mach with regs := fun j => if j = i then v else f.mach.regs j } }
  else .error (.fault (.register i))

/-- The registers `i`, `i + 1`, ..., `n` of them. -/
def regList (i : Nat) : Nat → Except (Halt N E) (List (TValue N))
  | 0 => .ok []
  | n + 1 => do
    let v ← f.reg p i
    let vs ← regList (i + 1) n
    pure (v :: vs)

def setRegs (f : Frame N W) (i : Nat) : List (TValue N) → Except (Halt N E) (Frame N W)
  | [] => .ok f
  | v :: vs => do
    let f ← f.setReg p i v
    setRegs f (i + 1) vs

/-- The registers from `i` up to `top`, which an open call or vararg has filled; none when `top` lies
below them. -/
def openList (i : Nat) : Except (Halt N E) (List (TValue N)) :=
  match f.top with
  | some n => .ok ((List.range (n - i)).map fun j => f.mach.regs (i + j))
  | none => .error (.fault .top)

/-- Values on the stack from `i` on, however many they are, and `top` behind them. -/
def setOpen (i : Nat) (vs : List (TValue N)) : Frame N W :=
  { f with
    top := some (i + vs.length)
    mach := { f.mach with regs := fun j =>
      if i ≤ j ∧ j < i + vs.length then vs.getD (j - i) .nil else f.mach.regs j } }

/-- `L->top = L->ci->top`. -/
def resetTop : Frame N W := { f with top := none }

/-- `Protect`. -/
def protect (g : Foreign N W E α) : Except (Halt N E) (α × Frame N W) :=
  match g f.mach with
  | .ok (x, mach) => .ok (x, { f with mach := mach })
  | .error e => .error (.error (.thrown e))

/-- `dojump`. -/
def jump (d : Int) : Except (Halt N E) (Frame N W) :=
  if 0 ≤ f.pc + d then .ok { f with pc := (f.pc + d).toNat } else .error (.fault .pc)

def skip : Frame N W := { f with pc := f.pc + 1 }

end Frame

section Operands

variable (p : Proto N) (f : Frame N W)

def fetch (pc : Nat) : Except (Halt N E) Instruction :=
  match p.code[pc]? with
  | some i => .ok i
  | none => .error (.fault .pc)

def constant (i : Nat) : Except (Halt N E) (TValue N) :=
  match p.k[i]? with
  | some v => .ok v
  | none => .error (.fault (.constant i))

/-- `RKB` and `RKC`. -/
def rk (x : Nat) : Except (Halt N E) (TValue N) :=
  if isK x then constant p (indexK x) else f.reg p x

/-- An upvalue of the closure, `cl->upvals[b]`. -/
def upvalue (b : Nat) : Except (Halt N E) Nat :=
  if b < p.nups then .ok b else .error (.fault (.upvalue b))

/-- The end of a test: the jump that follows is made when `taken`, and skipped anyhow. -/
def testJump (taken : Bool) : Except (Halt N E) (Frame N W) :=
  if taken then do
    let j ← fetch p f.pc
    f.jump (j.sbx + 1)
  else .ok f.skip

/-- The operands of `OP_CALL`, `OP_TAILCALL`, `OP_RETURN` and `OP_SETLIST`: `n` registers from `i`
on, or all that are there when `b` is zero. -/
def operands (b i n : Nat) : Except (Halt N E) (List (TValue N)) :=
  if b ≠ 0 then f.regList p i n else f.openList i

/-- The results of a call from `a` on, `c - 1` of them, or all of them when `c` is zero. -/
def results (a c : Nat) (vs : List (TValue N)) : Except (Halt N E) (Frame N W) :=
  if c = 0 then .ok (f.setOpen a vs)
  else do
    let f ← f.setRegs p a ((List.range (c - 1)).map fun j => vs.getD j .nil)
    pure f.resetTop

/-- What a pseudo-instruction behind `OP_CLOSURE` captures: an upvalue of the closure that runs
(left) or a register (right). -/
def capture (i : Instruction) : Except (Halt N E) (Nat ⊕ Nat) :=
  if i.op = OP_GETUPVAL then (upvalue p i.b).map .inl
  else (f.reg p i.b).map fun _ => .inr i.b

def captures (pc : Nat) : Nat → Except (Halt N E) (List (Nat ⊕ Nat))
  | 0 => .ok []
  | n + 1 => do
    let i ← fetch p pc
    let x ← capture p f i
    let xs ← captures (pc + 1) n
    pure (x :: xs)

/-- The batch number of `OP_SETLIST`, which may be the next word. -/
def setlistBatch (c : Nat) : Except (Halt N E) (Int × Frame N W) :=
  if c = 0 then (fetch p f.pc).map fun w => ((BitVec.ofNat 32 w.toWord).toInt, f.skip)
  else .ok (c, f)

end Operands

/-- How an activation ends: it returns, or a tail call puts another one in its place. -/
inductive Exit (N : Type) where
  | returned (vs : List (TValue N))
  | replaced

variable [LuaNumber N]

section Cases

variable (H : Host N W E) (p : Proto N) (f : Frame N W) (i : Instruction)

/-- The opcodes that compute a value from their operands, which have been read. -/
def execOp (rb rc : TValue N) : Except (Halt N E) (Frame N W) := do
  let ra ← f.reg p i.a
  match execOperator (H.heap f.mach) i.op rb rc with
  | some o =>
    match o.run (fun g vs => H.call g vs (some 1)) ra f.mach with
    | .ok (v, mach) => Frame.setReg p { f with mach := mach } i.a v
    | .error e => .error (.error e)
  | none => .ok f

/-- `OP_EQ`, `OP_LT` and `OP_LE`. -/
def execCompare (cmp : TValue N → TValue N → Foreign N W E Bool) :
    Except (Halt N E) (Frame N W) := do
  let rb ← rk p f i.b
  let rc ← rk p f i.c
  let (r, f) ← f.protect (cmp rb rc)
  testJump p f (r.toNat = i.a)

def execCall : Except (Halt N E) (Frame N W) := do
  let g ← f.reg p i.a
  let args ← operands p f i.b (i.a + 1) (i.b - 1)
  let (vs, f) ← f.protect (H.call g args (if i.c = 0 then none else some (i.c - 1)))
  results p f i.a i.c vs

/-- A Lua function takes the place of the activation; the results of a C function stay open. -/
def execTailcall : Except (Halt N E) (Pass (Frame N W) (Exit N)) := do
  let g ← f.reg p i.a
  let args ← operands p f i.b (i.a + 1) (i.b - 1)
  let (vs, f) ← f.protect (H.tailcall g args)
  match vs with
  | some vs => pure (.again (f.setOpen i.a vs))
  | none => pure (.done .replaced)

def execForloop : Except (Halt N E) (Frame N W) := do
  let step ← f.reg p (i.a + 2)
  let idx ← f.reg p i.a
  let limit ← f.reg p (i.a + 1)
  let idx := luaiNumadd (H.nvalue idx) (H.nvalue step)
  let up := luaiNumlt LuaNumber.zero (H.nvalue step)
  if if up then luaiNumle idx (H.nvalue limit) else luaiNumle (H.nvalue limit) idx then
    let f ← f.jump i.sbx
    let f ← f.setReg p i.a (.number idx)
    f.setReg p (i.a + 3) (.number idx)
  else pure f

/-- `tonumber` of a register, in place. -/
def forNumber (r : Nat) (msg : String) : Except (Halt N E) (N × Frame N W) := do
  let v ← f.reg p r
  match luaVTonumber v with
  | some n => do
    let f ← f.setReg p r (.number n)
    pure (n, f)
  | none => throw (.error (.thrown (H.runerror (bytes msg))))

def execForprep : Except (Halt N E) (Frame N W) := do
  let (init, f) ← forNumber H p f i.a "'for' initial value must be a number"
  let (_, f) ← forNumber H p f (i.a + 1) "'for' limit must be a number"
  let (step, f) ← forNumber H p f (i.a + 2) "'for' step must be a number"
  let f ← f.setReg p i.a (.number (luaiNumsub init step))
  f.jump i.sbx

def execTforloop : Except (Halt N E) (Frame N W) := do
  let g ← f.reg p i.a
  let state ← f.reg p (i.a + 1)
  let control ← f.reg p (i.a + 2)
  let f ← f.setRegs p (i.a + 3) [g, state, control]
  let (vs, f) ← f.protect (H.call g [state, control] (some i.c))
  let f ← f.setRegs p (i.a + 3) ((List.range i.c).map fun j => vs.getD j .nil)
  let f := f.resetTop
  let first ← f.reg p (i.a + 3)
  if first.isNil then testJump p f false
  else
    let f ← f.setReg p (i.a + 2) first
    testJump p f true

/-- The number of fields of `OP_SETLIST`, which is negative where `top` lies below them. -/
def setlistSize : Int := if i.b = 0 then (f.top.getD 0 : Int) - i.a - 1 else i.b

def execSetlist : Except (Halt N E) (Frame N W) := do
  let vs ← operands p f i.b (i.a + 1) i.b
  let n := setlistSize f i
  let f := if i.b = 0 then f.resetTop else f
  let (c, f) ← setlistBatch p f i.c
  let ra ← f.reg p i.a
  if ra.ttype = .LUA_TTABLE then
    let (_, f) ← f.protect (H.setlist ra ((c - 1) * 50 + n) vs)
    pure f
  else pure f

def execClosure : Except (Halt N E) (Frame N W) :=
  match p.p[i.bx]? with
  | some q => do
    let xs ← captures p f f.pc q.nups
    let (v, f) ← f.protect (H.closure q xs)
    let f ← f.setReg p i.a v
    pure { f with pc := f.pc + q.nups }
  | none => .error (.fault (.proto i.bx))

def execVararg : Except (Halt N E) (Frame N W) :=
  if i.b = 0 then .ok (f.setOpen i.a f.varargs)
  else f.setRegs p i.a ((List.range (i.b - 1)).map fun j => f.varargs.getD j .nil)

end Cases

/-- The `switch` of `luaV_execute`, at an instruction that has been fetched. -/
def execute (H : Host N W E) (p : Proto N) (f : Frame N W) (i : Instruction) :
    Except (Halt N E) (Pass (Frame N W) (Exit N)) :=
  match i.op with
  | OP_MOVE => do
    let v ← f.reg p i.b
    (f.setReg p i.a v).map .again
  | OP_LOADK => do
    let v ← constant p i.bx
    (f.setReg p i.a v).map .again
  | OP_LOADBOOL => do
    let f ← f.setReg p i.a (.boolean (i.b ≠ 0))
    pure (.again (if i.c ≠ 0 then f.skip else f))
  | OP_LOADNIL => do
    -- the register `B` is set even when it lies below `A`
    let f ← f.setReg p i.b .nil
    (f.setRegs p i.a (List.replicate (i.b - i.a) .nil)).map .again
  | OP_GETUPVAL => do
    let b ← upvalue p i.b
    (f.setReg p i.a (H.getupval b f.mach)).map .again
  | OP_GETGLOBAL => do
    let rb ← constant p i.bx
    let (v, f) ← f.protect (H.gettable H.env rb)
    (f.setReg p i.a v).map .again
  | OP_GETTABLE => do
    let rb ← f.reg p i.b
    let rc ← rk p f i.c
    let (v, f) ← f.protect (H.gettable rb rc)
    (f.setReg p i.a v).map .again
  | OP_SETGLOBAL => do
    let ra ← f.reg p i.a
    let rb ← constant p i.bx
    let (_, f) ← f.protect (H.settable H.env rb ra)
    pure (.again f)
  | OP_SETUPVAL => do
    let b ← upvalue p i.b
    let ra ← f.reg p i.a
    pure (.again { f with mach := H.setupval b ra f.mach })
  | OP_SETTABLE => do
    let ra ← f.reg p i.a
    let rb ← rk p f i.b
    let rc ← rk p f i.c
    let (_, f) ← f.protect (H.settable ra rb rc)
    pure (.again f)
  | OP_NEWTABLE => do
    let (v, f) ← f.protect (H.newtable i.b i.c)
    (f.setReg p i.a v).map .again
  | OP_SELF => do
    let rb ← f.reg p i.b
    let f ← f.setReg p (i.a + 1) rb
    let rc ← rk p f i.c
    let (v, f) ← f.protect (H.gettable rb rc)
    (f.setReg p i.a v).map .again
  | OP_ADD | OP_SUB | OP_MUL | OP_DIV | OP_MOD | OP_POW
  | OP_BOR | OP_BAND | OP_BXOR | OP_BLSHFT | OP_BRSHFT => do
    let rb ← rk p f i.b
    let rc ← rk p f i.c
    (execOp H p f i rb rc).map .again
  | OP_BNOT | OP_UNM | OP_NOT => do
    let rb ← f.reg p i.b
    (execOp H p f i rb rb).map .again
  | OP_LEN => do
    let rb ← f.reg p i.b
    let (v, f) ← f.protect (H.objlen rb)
    (f.setReg p i.a v).map .again
  | OP_CONCAT => do
    let vs ← f.regList p i.b (i.c + 1 - i.b)
    let (v, f) ← f.protect (H.concat vs)
    let f ← f.setReg p i.b v
    (f.setReg p i.a v).map .again
  | OP_JMP => (f.jump i.sbx).map .again
  | OP_EQ => (execCompare p f i H.equalobj).map .again
  | OP_LT => (execCompare p f i H.lessthan).map .again
  | OP_LE => (execCompare p f i H.lessequal).map .again
  | OP_TEST => do
    let ra ← f.reg p i.a
    (testJump p f (ra.isFalse.toNat ≠ i.c)).map .again
  | OP_TESTSET => do
    let rb ← f.reg p i.b
    if rb.isFalse.toNat ≠ i.c then
      let f ← f.setReg p i.a rb
      (testJump p f true).map .again
    else (testJump p f false).map .again
  | OP_CALL => (execCall H p f i).map .again
  | OP_TAILCALL => execTailcall H p f i
  | OP_RETURN => do
    let vs ← operands p f i.b i.a (i.b - 1)
    pure (.done (.returned vs))
  | OP_FORLOOP => (execForloop H p f i).map .again
  | OP_FORPREP => (execForprep H p f i).map .again
  | OP_TFORLOOP => (execTforloop H p f i).map .again
  | OP_SETLIST => (execSetlist H p f i).map .again
  | OP_CLOSE => pure (.again { f with mach := H.close i.a f.mach })
  | OP_CLOSURE => (execClosure H p f i).map .again
  | OP_VARARG => (execVararg p f i).map .again
  | .undefined _ => pure (.again f)

/-- One turn of the main loop of `luaV_execute`. -/
def luaVExecute (H : Host N W E) (p : Proto N) (f : Frame N W) :
    Except (Halt N E) (Pass (Frame N W) (Exit N)) := do
  let i ← fetch p f.pc
  let (_, f) ← f.skip.protect H.traceexec
  execute H p f i

/-- The activation that `luaD_precall` makes of a call; `adjust_varargs` moves the parameters of a
vararg function to its registers, and the `arg` table behind them. -/
def luaDPrecall (H : Host N W E) (p : Proto N) (args : List (TValue N)) (m : Machine N W) :
    Except (Halt N E) (Frame N W) :=
  let params := (List.range p.numparams).map fun j => args.getD j .nil
  if p.isVararg = 0 then
    .ok ⟨0, none, [], { m with regs := fun j => params.getD j .nil }⟩
  else do
    let f : Frame N W := ⟨0, none, args.drop p.numparams, { m with regs := fun _ => .nil }⟩
    let f ← f.setRegs p 0 params
    if p.needsArg then
      let (v, f) ← f.protect (H.argtable (args.drop p.numparams))
      f.setReg p p.numparams v
    else pure f

end UgmeeLua

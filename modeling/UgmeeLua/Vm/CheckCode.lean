import UgmeeLua.Core.Instruction
import UgmeeLua.Core.Value
import UgmeeLua.Lib.Loop

namespace UgmeeLua

open Loop OpCode OpArgMask OpMode

/-- Function prototypes, with what the checker and the interpreter read of them. -/
structure Proto (N : Type) where
  k : List (TValue N)
  code : List Instruction
  p : List (Proto N)
  sizeupvalues : Nat
  sizelineinfo : Nat
  nups : Nat
  numparams : Nat
  isVararg : Nat
  maxstacksize : Nat

variable {N : Type}

namespace Proto

def sizecode (pt : Proto N) : Nat := pt.code.length
def sizek (pt : Proto N) : Nat := pt.k.length
def sizep (pt : Proto N) : Nat := pt.p.length

/-- The flags of `is_vararg`. -/
def hasArg (pt : Proto N) : Bool := pt.isVararg % 2 = 1
def isVarargFlag (pt : Proto N) : Bool := pt.isVararg / 2 % 2 = 1
def needsArg (pt : Proto N) : Bool := pt.isVararg / 4 % 2 = 1

/-- `GET_OPCODE(pt->code[pc]) == op`. -/
def opIs (pt : Proto N) (pc : Nat) (op : OpCode) : Bool := (pt.code[pc]?).any (·.op = op)

/-- `OP_SETLIST` whose count is the next word. -/
def setlistCount (i : Instruction) : Bool := i.op = OP_SETLIST && i.c = 0

end Proto

/-- `checkreg`; the register is an `int`. -/
def checkreg (pt : Proto N) (reg : Int) : Bool := reg < pt.maxstacksize

def precheck (pt : Proto N) : Bool :=
  pt.maxstacksize ≤ maxstack &&
  pt.sizeupvalues ≤ pt.nups &&
  (pt.sizelineinfo = pt.sizecode || pt.sizelineinfo = 0) &&
  (pt.code.getLast?).any (·.op = OP_RETURN)

/-- `luaG_checkopenop`. -/
def luaGCheckopenop (i : Instruction) : Bool :=
  match i.op with
  | OP_CALL | OP_TAILCALL | OP_RETURN | OP_SETLIST => i.b = 0
  | _ => false

def checkopenop (pt : Proto N) (pc : Nat) : Bool := (pt.code[pc + 1]?).any luaGCheckopenop

def checkArgMode (pt : Proto N) (r : Nat) (mode : OpArgMask) : Bool :=
  match mode with
  | OpArgN => r = 0
  | OpArgU => true
  | OpArgR => checkreg pt r
  | OpArgK => if isK r then indexK r < pt.sizek else r < pt.maxstacksize

/-- The checks of the operands, by the format of the instruction. -/
def checkOperands (pt : Proto N) (pc : Nat) (i : Instruction) : Bool :=
  match i.op.modes.m with
  | iABC => checkArgMode pt i.b i.op.modes.b && checkArgMode pt i.c i.op.modes.c
  | iABx => !(i.op.modes.b = OpArgK) || i.bx < pt.sizek
  | iAsBx =>
    let dest : Int := pc + 1 + i.sbx
    !(i.op.modes.b = OpArgR) || (0 ≤ dest && dest < pt.sizecode &&
      (!(0 < dest) || !(pt.code[(dest - 1).toNat]?).any Proto.setlistCount))

/-- The checks of the `switch` over the opcodes. -/
def checkOpcode (pt : Proto N) (pc : Nat) (i : Instruction) : Bool :=
  match i.op with
  | OP_LOADBOOL => i.c = 0 || pc + 2 < pt.sizecode
  | OP_GETUPVAL | OP_SETUPVAL => i.b < pt.nups
  | OP_GETGLOBAL | OP_SETGLOBAL => (pt.k[i.bx]?).any (·.ttype = .LUA_TSTRING)
  | OP_SELF => checkreg pt (i.a + 1)
  | OP_CONCAT => i.b < i.c
  | OP_TFORLOOP => 1 ≤ i.c && checkreg pt (i.a + 2 + i.c)
  | OP_FORLOOP | OP_FORPREP => checkreg pt (i.a + 3)
  | OP_CALL | OP_TAILCALL =>
    (i.b = 0 || checkreg pt (i.a + i.b - 1)) &&
    (if i.c = 0 then checkopenop pt pc else i.c = 1 || checkreg pt (i.a + (i.c - 1 : Int) - 1))
  | OP_RETURN => i.b ≤ 1 || checkreg pt (i.a + (i.b - 1 : Int) - 1)
  | OP_SETLIST => i.b = 0 || checkreg pt (i.a + i.b)
  | OP_CLOSURE =>
    match pt.p[i.bx]? with
    | some q => pc + q.nups < pt.sizecode && (List.range q.nups).all fun j =>
        pt.opIs (pc + (j + 1)) OP_GETUPVAL || pt.opIs (pc + (j + 1)) OP_MOVE
    | none => false
  | OP_VARARG =>
    pt.isVarargFlag && !pt.needsArg && (!(i.b = 0) || checkopenop pt pc) &&
    checkreg pt (i.a + (i.b - 1 : Int) - 1)
  | _ => true

/-- All checks that `symbexec` makes of the instruction at `pc`. -/
def checkInstruction (pt : Proto N) (pc : Nat) (i : Instruction) : Bool :=
  i.op.toNat < numOpcodes && checkreg pt i.a && checkOperands pt pc i &&
  (!i.op.modes.t || (pc + 2 < pt.sizecode && pt.opIs (pc + 1) OP_JMP)) &&
  checkOpcode pt pc i

/-- The last instruction that changed the register `reg`, after the instruction at `pc`. -/
def symbexecLast (reg pc last : Nat) (i : Instruction) : Nat :=
  let last := if i.op.modes.a && i.a = reg then pc else last
  match i.op with
  | OP_LOADNIL => if i.a ≤ reg && reg ≤ i.b then pc else last
  | OP_SELF => if reg = i.a + 1 then pc else last
  | OP_TFORLOOP => if i.a + 2 ≤ reg then pc else last
  | OP_CALL | OP_TAILCALL => if i.a ≤ reg then pc else last
  | _ => last

/-- Where `symbexec` goes on; it follows jumps and skips pseudo-instructions only when it traces a
register. -/
def symbexecNext (pt : Proto N) (lastpc reg pc : Nat) (i : Instruction) : Nat :=
  match i.op with
  | OP_FORLOOP | OP_FORPREP | OP_JMP =>
    let dest : Int := pc + 1 + i.sbx
    if reg ≠ noReg ∧ pc < dest ∧ dest ≤ lastpc then dest.toNat else pc + 1
  | OP_SETLIST => if i.c = 0 then pc + 2 else pc + 1
  | OP_CLOSURE => if reg ≠ noReg then pc + (pt.p[i.bx]?).elim 0 (·.nups) + 1 else pc + 1
  | _ => pc + 1

/-- The variables of the loop of `symbexec`. -/
structure Symbexec where
  pc : Nat
  last : Nat
  deriving DecidableEq, Repr

/-- A pass of `symbexec`; a check that fails ends it. -/
def symbexecPass (pt : Proto N) (lastpc reg : Nat) (s : Symbexec) :
    Except Unit (Pass Symbexec Nat) :=
  if s.pc < lastpc then
    match pt.code[s.pc]? with
    | some i =>
      if checkInstruction pt s.pc i then
        .ok (.again ⟨symbexecNext pt lastpc reg s.pc i, symbexecLast reg s.pc s.last i⟩)
      else .error ()
    | none => .error ()
  else .ok (.done s.last)

/-- The instruction that `symbexec` returns, an error where it returns 0. -/
def symbexec (pt : Proto N) (lastpc reg : Nat) : Except Unit Instruction := do
  if precheck pt then
    let last ← loop (fun s : Symbexec => lastpc - s.pc) () (symbexecPass pt lastpc reg)
      ⟨0, pt.sizecode - 1⟩
    match pt.code[last]? with
    | some i => pure i
    | none => throw ()
  else throw ()

/-- `luaG_checkcode`. -/
def luaGCheckcode (pt : Proto N) : Bool :=
  match symbexec pt pt.sizecode noReg with
  | .ok i => i.toWord ≠ 0
  | .error _ => false

end UgmeeLua

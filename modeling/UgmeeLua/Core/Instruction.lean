import Mathlib.Algebra.Ring.Int.Defs
import Mathlib.Algebra.Ring.Nat
import UgmeeLua.Core.Opcodes

namespace UgmeeLua

open OpCode

/-- An instruction word, taken apart into its fields. -/
structure Instruction where
  op : OpCode
  a : Nat
  b : Nat
  c : Nat
  deriving DecidableEq, Repr

def maxargSBx : Nat := 131071

/-- `MAXSTACK`, and `NO_REG`, which is no register. -/
def maxstack : Nat := 250
def noReg : Nat := 255

namespace Instruction

def ofWord (w : Nat) : Instruction :=
  ⟨.ofNat (w % 2 ^ 6), w / 2 ^ 6 % 2 ^ 8, w / 2 ^ 23 % 2 ^ 9, w / 2 ^ 14 % 2 ^ 9⟩

def toWord (i : Instruction) : Nat :=
  i.op.toNat + 2 ^ 6 * i.a + 2 ^ 14 * i.c + 2 ^ 23 * i.b

/-- `GETARG_Bx`: the fields of `B` and `C` as one. -/
def bx (i : Instruction) : Nat := 2 ^ 9 * i.b + i.c

/-- `GETARG_sBx`. -/
def sbx (i : Instruction) : Int := i.bx - maxargSBx

/-- `CREATE_ABx`. -/
def createABx (op : OpCode) (a bx : Nat) : Instruction := ⟨op, a, bx / 2 ^ 9, bx % 2 ^ 9⟩

@[simp] theorem bx_createABx (op : OpCode) (a bx : Nat) : (createABx op a bx).bx = bx :=
  Nat.div_add_mod bx _

theorem toNat_ofNat (n : Nat) : (OpCode.ofNat n).toNat = n := by
  by_cases h : n < opcodes.length
  · have all : ∀ k : Fin opcodes.length, (OpCode.ofNat k).toNat = k := by decide
    exact all ⟨n, h⟩
  · rw [OpCode.ofNat, List.getD_eq_getElem?_getD, List.getElem?_eq_none (Nat.le_of_not_lt h)]
    rfl

/-- No bit of a word is lost. -/
theorem toWord_ofWord (w : Nat) (h : w < 2 ^ 32) : (ofWord w).toWord = w := by
  simp only [ofWord, toWord, toNat_ofNat]
  omega

end Instruction

/-- `ISK`. -/
def isK (x : Nat) : Bool := x / 2 ^ 8 % 2 = 1

/-- `INDEXK`. -/
def indexK (x : Nat) : Nat := if isK x then x - 2 ^ 8 else x

/-- `RKASK`. -/
def rkask (x : Nat) : Nat := if isK x then x else x + 2 ^ 8

inductive OpArgMask where
  | OpArgN | OpArgU | OpArgR | OpArgK
  deriving DecidableEq, Repr

inductive OpMode where
  | iABC | iABx | iAsBx
  deriving DecidableEq, Repr

/-- What the table of modes says of an opcode: whether it is a test, whether it sets `A`, how it
uses `B` and `C`, and its format. -/
structure OpModes where
  t : Bool
  a : Bool
  b : OpArgMask
  c : OpArgMask
  m : OpMode
  deriving DecidableEq, Repr

open OpArgMask OpMode

def opmode (t a : Nat) (b c : OpArgMask) (m : OpMode) : OpModes := ⟨t = 1, a = 1, b, c, m⟩

def luaPOpmodes : List OpModes := [
  opmode 0 1 OpArgR OpArgN iABC,   -- OP_MOVE
  opmode 0 1 OpArgK OpArgN iABx,   -- OP_LOADK
  opmode 0 1 OpArgU OpArgU iABC,   -- OP_LOADBOOL
  opmode 0 1 OpArgR OpArgN iABC,   -- OP_LOADNIL
  opmode 0 1 OpArgU OpArgN iABC,   -- OP_GETUPVAL
  opmode 0 1 OpArgK OpArgN iABx,   -- OP_GETGLOBAL
  opmode 0 1 OpArgR OpArgK iABC,   -- OP_GETTABLE
  opmode 0 0 OpArgK OpArgN iABx,   -- OP_SETGLOBAL
  opmode 0 0 OpArgU OpArgN iABC,   -- OP_SETUPVAL
  opmode 0 0 OpArgK OpArgK iABC,   -- OP_SETTABLE
  opmode 0 1 OpArgU OpArgU iABC,   -- OP_NEWTABLE
  opmode 0 1 OpArgR OpArgK iABC,   -- OP_SELF
  opmode 0 1 OpArgK OpArgK iABC,   -- OP_ADD
  opmode 0 1 OpArgK OpArgK iABC,   -- OP_SUB
  opmode 0 1 OpArgK OpArgK iABC,   -- OP_MUL
  opmode 0 1 OpArgK OpArgK iABC,   -- OP_DIV
  opmode 0 1 OpArgK OpArgK iABC,   -- OP_MOD
  opmode 0 1 OpArgK OpArgK iABC,   -- OP_POW
  opmode 0 1 OpArgK OpArgK iABC,   -- OP_BOR
  opmode 0 1 OpArgK OpArgK iABC,   -- OP_BAND
  opmode 0 1 OpArgK OpArgK iABC,   -- OP_BXOR
  opmode 0 1 OpArgK OpArgK iABC,   -- OP_BLSHFT
  opmode 0 1 OpArgK OpArgK iABC,   -- OP_BRSHFT
  opmode 0 1 OpArgR OpArgN iABC,   -- OP_BNOT
  opmode 0 1 OpArgR OpArgN iABC,   -- OP_UNM
  opmode 0 1 OpArgR OpArgN iABC,   -- OP_NOT
  opmode 0 1 OpArgR OpArgN iABC,   -- OP_LEN
  opmode 0 1 OpArgR OpArgR iABC,   -- OP_CONCAT
  opmode 0 0 OpArgR OpArgN iAsBx,  -- OP_JMP
  opmode 1 0 OpArgK OpArgK iABC,   -- OP_EQ
  opmode 1 0 OpArgK OpArgK iABC,   -- OP_LT
  opmode 1 0 OpArgK OpArgK iABC,   -- OP_LE
  opmode 1 1 OpArgR OpArgU iABC,   -- OP_TEST
  opmode 1 1 OpArgR OpArgU iABC,   -- OP_TESTSET
  opmode 0 1 OpArgU OpArgU iABC,   -- OP_CALL
  opmode 0 1 OpArgU OpArgU iABC,   -- OP_TAILCALL
  opmode 0 0 OpArgU OpArgN iABC,   -- OP_RETURN
  opmode 0 1 OpArgR OpArgN iAsBx,  -- OP_FORLOOP
  opmode 0 1 OpArgR OpArgN iAsBx,  -- OP_FORPREP
  opmode 1 0 OpArgN OpArgU iABC,   -- OP_TFORLOOP
  opmode 0 0 OpArgU OpArgU iABC,   -- OP_SETLIST
  opmode 0 0 OpArgN OpArgN iABC,   -- OP_CLOSE
  opmode 0 1 OpArgU OpArgN iABx,   -- OP_CLOSURE
  opmode 0 1 OpArgU OpArgN iABC]   -- OP_VARARG

def OpCode.modes (o : OpCode) : OpModes := luaPOpmodes.getD o.toNat (opmode 0 0 OpArgN OpArgN iABC)

/-- `luaP_opmodes` has one entry for each opcode. -/
theorem opmodes_length : luaPOpmodes.length = opcodes.length ∧ opcodes.length = numOpcodes := by
  decide

end UgmeeLua

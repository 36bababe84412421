import Mathlib.Data.Nat.Notation

namespace UgmeeLua

/-- Opcodes in the order of the enumeration; the six bits of the field leave room for words that
are no opcode. -/
inductive OpCode where
  | OP_MOVE | OP_LOADK | OP_LOADBOOL | OP_LOADNIL | OP_GETUPVAL
  | OP_GETGLOBAL | OP_GETTABLE
  | OP_SETGLOBAL | OP_SETUPVAL | OP_SETTABLE
  | OP_NEWTABLE
  | OP_SELF
  | OP_ADD | OP_SUB | OP_MUL | OP_DIV | OP_MOD | OP_POW
  | OP_BOR | OP_BAND | OP_BXOR | OP_BLSHFT | OP_BRSHFT | OP_BNOT
  | OP_UNM | OP_NOT | OP_LEN
  | OP_CONCAT
  | OP_JMP
  | OP_EQ | OP_LT | OP_LE
  | OP_TEST | OP_TESTSET
  | OP_CALL | OP_TAILCALL | OP_RETURN
  | OP_FORLOOP | OP_FORPREP
  | OP_TFORLOOP
  | OP_SETLIST
  | OP_CLOSE | OP_CLOSURE
  | OP_VARARG
  | undefined (n : Nat)
  deriving DecidableEq, Repr

open OpCode

def opcodes : List OpCode := [
  OP_MOVE, OP_LOADK, OP_LOADBOOL, OP_LOADNIL, OP_GETUPVAL,
  OP_GETGLOBAL, OP_GETTABLE,
  OP_SETGLOBAL, OP_SETUPVAL, OP_SETTABLE,
  OP_NEWTABLE,
  OP_SELF,
  OP_ADD, OP_SUB, OP_MUL, OP_DIV, OP_MOD, OP_POW,
  OP_BOR, OP_BAND, OP_BXOR, OP_BLSHFT, OP_BRSHFT, OP_BNOT,
  OP_UNM, OP_NOT, OP_LEN,
  OP_CONCAT,
  OP_JMP,
  OP_EQ, OP_LT, OP_LE,
  OP_TEST, OP_TESTSET,
  OP_CALL, OP_TAILCALL, OP_RETURN,
  OP_FORLOOP, OP_FORPREP,
  OP_TFORLOOP,
  OP_SETLIST,
  OP_CLOSE, OP_CLOSURE,
  OP_VARARG]

def numOpcodes : Nat := 44

/-- The opcode that a number stands for. -/
def OpCode.ofNat (n : Nat) : OpCode := opcodes.getD n (undefined n)

def OpCode.toNat (o : OpCode) : Nat :=
  match o with
  | undefined n => n
  | o => o.ctorIdx

end UgmeeLua

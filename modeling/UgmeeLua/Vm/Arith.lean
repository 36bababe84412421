import UgmeeLua.Core.Opcodes
import UgmeeLua.Vm.Metamethod

namespace UgmeeLua

open TMS OpCode

variable {N : Type} [LuaNumber N]

/-- The operand that is not a number, the first one if both are not. -/
def culprit (p1 p2 : TValue N) : TValue N :=
  if (luaVTonumber p1).isNone then p1 else p2

/-- `Arith`; it is called with arithmetic tag methods only, the default case is an assertion. -/
def arith (h : Heap N) (rb rc : TValue N) (op : TMS) : Outcome N :=
  match luaVTonumber rb, luaVTonumber rc with
  | some nb, some nc =>
    match op with
    | TM_ADD => .value (.number (luaiNumadd nb nc))
    | TM_SUB => .value (.number (luaiNumsub nb nc))
    | TM_MUL => .value (.number (luaiNummul nb nc))
    | TM_DIV => .value (.number (luaiNumdiv nb nc))
    | TM_MOD => .value (.number (luaiNummod nb nc))
    | TM_POW => .value (.number (luaiNumpow nb nc))
    | TM_UNM => .value (.number (luaiNumunm nb))
    | _ => .unchanged
  | _, _ => callBinTM h rb rc op (.aritherror (culprit rb rc))

/-- `Logic`. -/
def logic (h : Heap N) (rb rc : TValue N) (op : TMS) : Outcome N :=
  if op = TM_BNOT then .value (.boolean rb.isFalse)
  else
    match luaVTonumber rb, luaVTonumber rc with
    | some nb, some nc =>
      let r : LuaInteger :=
        match op with
        | TM_BLSHFT => luaiBinlshft nb nc
        | TM_BRSHFT => luaiBinrshft nb nc
        | TM_BOR => luaiBinor nb nc
        | TM_BAND => luaiBinand nb nc
        | TM_BXOR => luaiBinxor nb nc
        | _ => 0
      .value (.number (LuaNumber.ofInteger r))
    | _, _ => callBinTM h rb rc op (.logicerror (culprit rb rc))

/-- `arith_op`. -/
def arithOp (h : Heap N) (op : N → N → N) (tm : TMS) (rb rc : TValue N) : Outcome N :=
  match rb, rc with
  | .number nb, .number nc => .value (.number (op nb nc))
  | _, _ => arith h rb rc tm

/-- `logic_op`. -/
def logicOp (h : Heap N) (op : N → N → LuaInteger) (tm : TMS) (rb rc : TValue N) : Outcome N :=
  match rb, rc with
  | .number nb, .number nc => .value (.number (LuaNumber.ofInteger (op nb nc)))
  | _, _ => logic h rb rc tm

/-- The cases of `luaV_execute` that compute a value from one or two operands; the unary opcodes
read the first one only. -/
def execOperator (h : Heap N) (op : OpCode) (rb rc : TValue N) : Option (Outcome N) :=
  match op with
  | OP_ADD => some (arithOp h luaiNumadd TM_ADD rb rc)
  | OP_SUB => some (arithOp h luaiNumsub TM_SUB rb rc)
  | OP_MUL => some (arithOp h luaiNummul TM_MUL rb rc)
  | OP_DIV => some (arithOp h luaiNumdiv TM_DIV rb rc)
  | OP_MOD => some (arithOp h luaiNummod TM_MOD rb rc)
  | OP_POW => some (arithOp h luaiNumpow TM_POW rb rc)
  | OP_UNM =>
    match rb with
    | .number nb => some (.value (.number (luaiNumunm nb)))
    | _ => some (arith h rb rb TM_UNM)
  | OP_BOR => some (logicOp h luaiBinor TM_BOR rb rc)
  | OP_BAND => some (logicOp h luaiBinand TM_BAND rb rc)
  | OP_BXOR => some (logicOp h luaiBinxor TM_BXOR rb rc)
  | OP_BLSHFT => some (logicOp h luaiBinlshft TM_BLSHFT rb rc)
  | OP_BRSHFT => some (logicOp h luaiBinrshft TM_BRSHFT rb rc)
  | OP_BNOT =>
    match rb with
    | .boolean b => some (.value (.boolean (TValue.boolean b : TValue N).isFalse))
    | _ => some (logic h rb rb TM_BNOT)
  | OP_NOT => some (.value (.boolean rb.isFalse))
  | _ => none

end UgmeeLua

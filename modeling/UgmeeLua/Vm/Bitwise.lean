import UgmeeLua.Parser.Operators
import UgmeeLua.Vm.Arith

namespace UgmeeLua

open TMS OpCode BinOpr

/-- The opcode that `luaK_posfix` passes to `codearith` for a binary operator. -/
def arithOpcode : BinOpr → Option OpCode
  | OPR_ADD => some OP_ADD
  | OPR_SUB => some OP_SUB
  | OPR_MUL => some OP_MUL
  | OPR_DIV => some OP_DIV
  | OPR_MOD => some OP_MOD
  | OPR_POW => some OP_POW
  | OPR_BOR => some OP_BOR
  | OPR_BAND => some OP_BAND
  | OPR_BXOR => some OP_BXOR
  | OPR_BLSHFT => some OP_BLSHFT
  | OPR_BRSHFT => some OP_BRSHFT
  | _ => none

/-- The binary bitwise operators. -/
inductive Bitwise where
  | or | and | xor | shl | shr
  deriving DecidableEq, Repr

namespace Bitwise

/-- `|`, `&`, `^^`, `<<`, `>>`. -/
def opr : Bitwise → BinOpr
  | or => OPR_BOR
  | and => OPR_BAND
  | xor => OPR_BXOR
  | shl => OPR_BLSHFT
  | shr => OPR_BRSHFT

/-- The name under which the handler of an operator is to be found. -/
def metaname : Bitwise → Bytes
  | or => bytes "__or"
  | and => bytes "__and"
  | xor => bytes "__xor"
  | shl => bytes "__shl"
  | shr => bytes "__shr"

/-- The operator on two integers; the right shift keeps the sign. -/
def apply : Bitwise → LuaInteger → LuaInteger → LuaInteger
  | or, a, b => a ||| b
  | and, a, b => a &&& b
  | xor, a, b => a ^^^ b
  | shl, a, b => BitVec.ofInt 64 (a.toInt * 2 ^ b.toNat)
  | shr, a, b => BitVec.ofInt 64 (a.toInt / 2 ^ b.toNat)

def isShift : Bitwise → Bool
  | shl | shr => true
  | _ => false

end Bitwise

variable {N S E : Type}

/-- The handler stored under a name in the first operand's metatable or, failing that, in the
second's; nil without one. -/
def handler (h : Heap N) (name : Bytes) (p1 p2 : TValue N) : TValue N :=
  if (h.metafield p1 name).isNil then h.metafield p2 name else h.metafield p1 name

theorem binTM_eq_handler (h : Heap N) (p1 p2 : TValue N) (event : TMS) :
    binTM h p1 p2 event = handler h (tmname event) p1 p2 := rfl

variable [LuaNumber N]

/-- The first result of the handler on the operands in source order, an error without one. -/
def handlerResult (call : Call N S E) (s : S) (f p1 p2 : TValue N) :
    Except (LuaError N E) (TValue N × S) :=
  if f.isNil then .error (.logicerror (culprit p1 p2))
  else
    match call f [p1, p2] s with
    | .ok (results, s') => .ok (results.headD .nil, s')
    | .error e => .error (.thrown e)

/-- What a bitwise operator means for two operand values. -/
def bitwiseSpec (h : Heap N) (o : Bitwise) (p1 p2 : TValue N) (call : Call N S E) (s : S) :
    Except (LuaError N E) (TValue N × S) :=
  match luaVTonumber p1, luaVTonumber p2 with
  | some n1, some n2 =>
    .ok (.number (LuaNumber.ofInteger (o.apply (luaNumber2int n1) (luaNumber2int n2))), s)
  | _, _ => handlerResult call s (handler h o.metaname p1 p2) p1 p2

/-- What the code does: the opcode of the operator, run by `luaV_execute`. -/
def execBitwise (h : Heap N) (o : Bitwise) (p1 p2 : TValue N) : Option (Outcome N) :=
  (arithOpcode o.opr).bind fun op => execOperator h op p1 p2

/-- The tag method that the opcode of the operator passes on. -/
def Bitwise.event : Bitwise → TMS
  | or => TM_BOR
  | and => TM_BAND
  | xor => TM_BXOR
  | shl => TM_BLSHFT
  | shr => TM_BRSHFT

theorem luaiBinlshft_eq (a b : N) :
    luaiBinlshft a b = Bitwise.shl.apply (luaNumber2int a) (luaNumber2int b) := by
  have pow (n : Nat) : BitVec.ofInt 64 (2 ^ n) = BitVec.twoPow 64 n := by
    apply BitVec.eq_of_toNat_eq
    rw [show (2 : Int) ^ n = ((2 ^ n : Nat) : Int) by push_cast; rfl, BitVec.ofInt_natCast,
      BitVec.toNat_ofNat, BitVec.toNat_twoPow]
  simp only [luaiBinlshft, Bitwise.apply, BitVec.ofInt_mul, BitVec.ofInt_toInt, pow]
  exact BitVec.shiftLeft_eq_mul_twoPow _ _

theorem luaiBinrshft_eq (a b : N) :
    luaiBinrshft a b = Bitwise.shr.apply (luaNumber2int a) (luaNumber2int b) := by
  rw [luaiBinrshft, BitVec.sshiftRight_eq, Int.shiftRight_eq_div_pow]
  rfl

/-- Both paths of a bitwise opcode come to the same: the operator on two numbers, or the tag
method of the opcode's event. -/
theorem execBitwise_eq (h : Heap N) (o : Bitwise) (p1 p2 : TValue N) :
    execBitwise h o p1 p2 = some (
      match luaVTonumber p1, luaVTonumber p2 with
      | some n1, some n2 =>
        .value (.number (LuaNumber.ofInteger (o.apply (luaNumber2int n1) (luaNumber2int n2))))
      | _, _ => callBinTM h p1 p2 o.event (.logicerror (culprit p1 p2))) := by
  have path (op : N → N → LuaInteger) (tm : TMS)
      (hl : logic h p1 p2 tm =
        match luaVTonumber p1, luaVTonumber p2 with
        | some n1, some n2 => .value (.number (LuaNumber.ofInteger (op n1 n2)))
        | _, _ => callBinTM h p1 p2 tm (.logicerror (culprit p1 p2))) :
      logicOp h op tm p1 p2 = logic h p1 p2 tm := by
    unfold logicOp
    split
    · rw [hl]
      rfl
    · rfl
  cases o with
  | or => exact congrArg some ((path luaiBinor TM_BOR rfl).trans rfl)
  | and => exact congrArg some ((path luaiBinand TM_BAND rfl).trans rfl)
  | xor => exact congrArg some ((path luaiBinxor TM_BXOR rfl).trans rfl)
  | shl =>
    simp only [← luaiBinlshft_eq]
    exact congrArg some ((path luaiBinlshft TM_BLSHFT rfl).trans rfl)
  | shr =>
    simp only [← luaiBinrshft_eq]
    exact congrArg some ((path luaiBinrshft TM_BRSHFT rfl).trans rfl)

/-- The event names of the two shifts are exchanged; the other operators have their own. -/
theorem tmname_event (o : Bitwise) :
    tmname o.event = (match o with
      | .shl => Bitwise.shr.metaname
      | .shr => Bitwise.shl.metaname
      | o => o.metaname) := by
  cases o <;> decide

theorem callBinTM_run (h : Heap N) (p1 p2 ra : TValue N) (event : TMS) (call : Call N S E)
    (s : S) :
    (callBinTM h p1 p2 event (.logicerror (culprit p1 p2))).run call ra s =
      handlerResult call s (handler h (tmname event) p1 p2) p1 p2 := by
  rw [callBinTM, binTM_eq_handler, handlerResult]
  split <;> rfl

/-- Two handlers that give the same result whatever they do are the same. -/
theorem handlerResult_inj (f g p1 p2 : TValue N) (s : S)
    (heq : ∀ call : Call N S E, handlerResult call s f p1 p2 = handlerResult call s g p1 p2) :
    f = g := by
  have h := heq fun f _ s => .ok ([f], s)
  simp only [handlerResult] at h
  split_ifs at h with hf hg hg
  · rw [(TValue.isNil_iff f).mp hf, (TValue.isNil_iff g).mp hg]
  · simpa using h

/-- A binary bitwise operator does what it means, whatever the handlers do, exactly when it is no
shift, both operands convert to numbers, or the handlers of the two shifts are the same. -/
theorem execBitwise_correct (h : Heap N) (o : Bitwise) (p1 p2 ra : TValue N) (s : S) :
    (∀ call : Call N S E,
      (execBitwise h o p1 p2).map (·.run call ra s) = some (bitwiseSpec h o p1 p2 call s)) ↔
    o.isShift = false ∨
      ((luaVTonumber p1).isSome ∧ (luaVTonumber p2).isSome) ∨
      handler h (bytes "__shl") p1 p2 = handler h (bytes "__shr") p1 p2 := by
  rw [execBitwise_eq]
  simp only [bitwiseSpec, Option.map_some, Option.some.injEq]
  split
  · next n1 n2 h1 h2 => simp [Outcome.run, h1, h2]
  · next hnum =>
    have notBoth : ¬ ((luaVTonumber p1).isSome ∧ (luaVTonumber p2).isSome) := by
      rintro ⟨h1, h2⟩
      obtain ⟨n1, h1⟩ := Option.isSome_iff_exists.mp h1
      obtain ⟨n2, h2⟩ := Option.isSome_iff_exists.mp h2
      exact hnum n1 n2 h1 h2
    simp only [callBinTM_run, notBoth, false_or, tmname_event]
    have same (f g : TValue N) :
        (∀ call : Call N S E, handlerResult call s f p1 p2 = handlerResult call s g p1 p2) ↔
          f = g :=
      ⟨handlerResult_inj f g p1 p2 s, fun hfg call => by rw [hfg]⟩
    cases o with
    | or => simp [Bitwise.isShift]
    | and => simp [Bitwise.isShift]
    | xor => simp [Bitwise.isShift]
    | shl => simp [same, Bitwise.isShift, Bitwise.metaname, eq_comm]
    | shr => simp [same, Bitwise.isShift, Bitwise.metaname]

/-- Two tables whose metatable holds a handler under `__shl` only: `<<` finds none and raises an
error, `>>` calls it. -/
theorem shl_ignores_own_handler :
    ∃ h : Heap Int, handler h Bitwise.shl.metaname (.table 1) (.table 1) = .function 7 ∧
      execBitwise h .shl (.table 1) (.table 1) = some (.logicerror (.table 1)) ∧
      execBitwise h .shr (.table 1) (.table 1) =
        some (.callTMres (.function 7) (.table 1) (.table 1)) := by
  refine ⟨{
    tableMetatable := fun _ => some 2
    userdataMetatable := fun _ => none
    mt := fun _ => none
    getstr := fun _ name => if name = bytes "__shl" then .function 7 else .nil }, ?_, ?_, ?_⟩
  all_goals decide

end UgmeeLua

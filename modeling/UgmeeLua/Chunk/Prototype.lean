import UgmeeLua.Vm.CheckCode

namespace UgmeeLua

variable {N : Type}

structure LocVar where
  varname : Option Bytes
  startpc : BitVec 32
  endpc : BitVec 32
  deriving DecidableEq, Repr

/-- `Proto` with all its fields, the code in words; a string pointer that is NULL is `none`. -/
structure Prototype (N : Type) where
  source : Option Bytes
  linedefined : BitVec 32
  lastlinedefined : BitVec 32
  nups : UInt8
  numparams : UInt8
  isVararg : UInt8
  maxstacksize : UInt8
  code : List (BitVec 32)
  k : List (TValue N)
  p : List (Prototype N)
  lineinfo : List (BitVec 32)
  locvars : List LocVar
  upvalues : List (Option Bytes)

namespace Prototype

theorem induction {P : Prototype N → Prop} (h : ∀ f, (∀ g ∈ f.p, P g) → P f) (f : Prototype N) :
    P f :=
  h f fun g _ => induction h g
termination_by sizeOf f
decreasing_by
  rename_i hg
  have hp := List.sizeOf_lt_of_mem hg
  cases f
  simp only [mk.sizeOf_spec] at hp ⊢
  omega

mutual

/-- What the checker and the interpreter read of a prototype. -/
def toProto : Prototype N → Proto N
  | ⟨_, _, _, nups, numparams, isVararg, maxstacksize, code, k, p, lineinfo, _, upvalues⟩ =>
    { k := k
      code := code.map fun w => Instruction.ofWord w.toNat
      p := toProtos p
      sizeupvalues := upvalues.length
      sizelineinfo := lineinfo.length
      nups := nups.toNat
      numparams := numparams.toNat
      isVararg := isVararg.toNat
      maxstacksize := maxstacksize.toNat }

def toProtos : List (Prototype N) → List (Proto N)
  | [] => []
  | f :: fs => f.toProto :: toProtos fs

end

mutual

/-- The prototype without its debug information, under the source of a stripped chunk. -/
def stripped (source : Bytes) : Prototype N → Prototype N
  | ⟨_, linedefined, lastlinedefined, nups, numparams, isVararg, maxstacksize, code, k, p, _, _, _⟩ =>
    ⟨some source, linedefined, lastlinedefined, nups, numparams, isVararg, maxstacksize, code, k,
      strippedAll source p, [], [], []⟩

def strippedAll (source : Bytes) : List (Prototype N) → List (Prototype N)
  | [] => []
  | f :: fs => f.stripped source :: strippedAll source fs

end

mutual

/-- The number of functions of the tree. -/
def functions : Prototype N → Nat
  | ⟨_, _, _, _, _, _, _, _, _, p, _, _, _⟩ => functionsAll p + 1

def functionsAll : List (Prototype N) → Nat
  | [] => 0
  | f :: fs => f.functions + functionsAll fs

end

end Prototype

end UgmeeLua

import UgmeeLua.Core.Number

namespace UgmeeLua

/-- Kinds of expression descriptors, each with the members of the union it uses. -/
inductive Expkind (N : Type) where
  | VVOID
  | VNIL
  | VTRUE
  | VFALSE
  | VK (info : Nat)
  | VKNUM (nval : N)
  | VLOCAL (info : Nat)
  | VUPVAL (info : Nat)
  | VGLOBAL (info : Nat)
  | VINDEXED (info aux : Nat)
  | VJMP (info : Nat)
  | VRELOCABLE (info : Nat)
  | VNONRELOC (info : Nat)
  | VCALL (info : Nat)
  | VVARARG (info : Nat)
  deriving DecidableEq, Repr

/-- Expression descriptors; `t` and `f` are the lists of exits when true and when false, `none` for
`NO_JUMP`. -/
structure Expdesc (N : Type) where
  k : Expkind N
  t : Option Nat
  f : Option Nat
  deriving DecidableEq, Repr

variable {N : Type}

/-- `init_exp`. -/
def initExp (k : Expkind N) : Expdesc N := ⟨k, none, none⟩

def Expdesc.hasjumps (e : Expdesc N) : Bool := e.t ≠ e.f

/-- `isnumeral`, with the numeral. -/
def Expdesc.isnumeral : Expdesc N → Option N
  | ⟨.VKNUM nval, none, none⟩ => some nval
  | _ => none

theorem isnumeral_eq_some (e : Expdesc N) (v : N) :
    e.isnumeral = some v ↔ e = initExp (.VKNUM v) := by
  obtain ⟨k, t, f⟩ := e
  cases k <;> cases t <;> cases f <;> simp [Expdesc.isnumeral, initExp]

end UgmeeLua

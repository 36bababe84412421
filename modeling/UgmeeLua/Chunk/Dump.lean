import UgmeeLua.Chunk.Memory
import UgmeeLua.Chunk.Prototype

namespace UgmeeLua

def luacHeadersize : Nat := 12

variable {N σ : Type}

/-- `luaU_header`. -/
def luaUHeader (T : Target N) : Bytes :=
  [0x1b, 0x4c, 0x75, 0x61, 0x51, 0, if T.littleEndian then 1 else 0, 4, 8, 4, 8,
    if T.integral then 1 else 0]

/-- A `lua_Writer`: it takes a block and the state of its own, and gives a status, 0 if all is
well. -/
abbrev Writer (σ : Type) := Bytes → σ → Int × σ

structure DumpState (σ : Type) where
  data : σ
  strip : Bool
  status : Int

section Dump

variable (T : Target N) (w : Writer σ)

def dumpBlock (b : Bytes) (D : DumpState σ) : DumpState σ :=
  if D.status = 0 then { D with data := (w b D.data).2, status := (w b D.data).1 } else D

def dumpChar (y : UInt8) : DumpState σ → DumpState σ := dumpBlock w [y]

def dumpInt (x : BitVec 32) : DumpState σ → DumpState σ := dumpBlock w (T.wordBytes 4 x.toNat)

def dumpNumber (x : N) : DumpState σ → DumpState σ := dumpBlock w (T.numberBytes x)

/-- `DumpVector` of words of four bytes, `int` or `Instruction`. -/
def dumpVector (l : List (BitVec 32)) (D : DumpState σ) : DumpState σ :=
  dumpBlock w (l.flatMap fun x => T.wordBytes 4 x.toNat) (dumpInt T w (.ofNat 32 l.length) D)

def dumpString (s : Option Bytes) (D : DumpState σ) : DumpState σ :=
  match s with
  | none => dumpBlock w (T.wordBytes 8 0) D
  | some s => dumpBlock w (s ++ [0]) (dumpBlock w (T.wordBytes 8 (s.length + 1)) D)

/-- A constant: its type, then its value. -/
def dumpConstant (o : TValue N) (D : DumpState σ) : DumpState σ :=
  let D := dumpChar w (.ofNat o.ttype.ctorIdx) D
  match o with
  | .boolean b => dumpChar w (if b then 1 else 0) D
  | .number n => dumpNumber T w n D
  | .string s => dumpString T w (some s) D
  | _ => D

def dumpLocVar (v : LocVar) (D : DumpState σ) : DumpState σ :=
  dumpInt T w v.endpc (dumpInt T w v.startpc (dumpString T w v.varname D))

/-- The elements of an array, one after the other, behind their number. -/
def dumpArray {α : Type} (put : α → DumpState σ → DumpState σ) (l : List α) (D : DumpState σ) :
    DumpState σ :=
  l.foldl (fun D x => put x D) (dumpInt T w (.ofNat 32 l.length) D)

def dumpDebug (lineinfo : List (BitVec 32)) (locvars : List LocVar) (upvalues : List (Option Bytes))
    (D : DumpState σ) : DumpState σ :=
  let D := dumpVector T w (if D.strip then [] else lineinfo) D
  let D := dumpArray T w (dumpLocVar T w) (if D.strip then [] else locvars) D
  dumpArray T w (dumpString T w) (if D.strip then [] else upvalues) D

mutual

/-- `DumpFunction`, whose source is left out when it is that of the parent. -/
def dumpFunction : Prototype N → Option Bytes → DumpState σ → DumpState σ
  | ⟨source, linedefined, lastlinedefined, nups, numparams, isVararg, maxstacksize, code, k, p,
      lineinfo, locvars, upvalues⟩, parent, D =>
    let D := dumpString T w (if source = parent ∨ D.strip then none else source) D
    let D := dumpInt T w lastlinedefined (dumpInt T w linedefined D)
    let D := dumpChar w maxstacksize (dumpChar w isVararg (dumpChar w numparams (dumpChar w nups D)))
    let D := dumpVector T w code D
    let D := dumpArray T w (dumpConstant T w) k D
    let D := dumpFunctions p source (dumpInt T w (.ofNat 32 p.length) D)
    dumpDebug T w lineinfo locvars upvalues D

def dumpFunctions : List (Prototype N) → Option Bytes → DumpState σ → DumpState σ
  | [], _, D => D
  | f :: fs, parent, D => dumpFunctions fs parent (dumpFunction f parent D)

end

/-- `luaU_dump`: the status and the state of the writer. -/
def luaUDump (f : Prototype N) (data : σ) (strip : Bool) : Int × σ :=
  let D := dumpFunction T w f none (dumpBlock w (luaUHeader T) ⟨data, strip, 0⟩)
  (D.status, D.data)

/-- A writer that keeps what it is given. -/
def collect : Writer Bytes := fun b out => (0, out ++ b)

end Dump

end UgmeeLua

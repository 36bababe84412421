import UgmeeLua.Lib.Loop

namespace UgmeeLua.Locals

def LUAI_MAXVARS : Nat := 200
def SHRT_MAX : Nat := 32767

/-- A `LocVar`; what is not written yet is none. -/
structure LocVar where
  varname : String
  startpc : Option Nat
  endpc : Option Nat
  deriving DecidableEq, Repr

/-- The locals of a function being compiled. `locvars` has `nlocvars` entries, and `actvar` those that are in
use: the first `nactvar` are active, the ones after them declared. -/
structure FuncState where
  linedefined : Nat
  pc : Nat
  locvars : List LocVar
  nactvar : Nat
  actvar : List Nat
  deriving DecidableEq, Repr

/-- `luaF_getlocalname`, which stops where a variable starts too late. -/
def luaFGetlocalname : List LocVar → Int → Nat → Option String
  | [], _, _ => none
  | v :: locvars, localNumber, pc =>
    if v.startpc.any (· ≤ pc) then
      if v.endpc.any (pc < ·) then
        if localNumber - 1 = 0 then some v.varname else luaFGetlocalname locvars (localNumber - 1) pc
      else luaFGetlocalname locvars localNumber pc
    else none

def errorlimit (fs : FuncState) (limit : Nat) (what : String) : String :=
  if fs.linedefined = 0 then "main function has more than " ++ toString limit ++ " " ++ what
  else "function at line " ++ toString fs.linedefined ++ " has more than " ++ toString limit ++ " " ++ what

def registerlocalvar (fs : FuncState) (varname : String) : Except String (Nat × FuncState) :=
  if fs.locvars.length ≥ SHRT_MAX then .error "too many local variables"
  else .ok (fs.locvars.length, { fs with locvars := fs.locvars ++ [⟨varname, none, none⟩] })

def newLocalvar (fs : FuncState) (name : String) (n : Nat) : Except String FuncState :=
  if fs.nactvar + n + 1 > LUAI_MAXVARS then .error (errorlimit fs LUAI_MAXVARS "local variables")
  else do
    let (i, fs) ← registerlocalvar fs name
    .ok { fs with actvar := fs.actvar.take (fs.nactvar + n) ++ [i] }

/-- `new_localvar` of one name after the other, from the number `n` on. -/
def newLocalvars (fs : FuncState) : List String → Nat → Except String FuncState
  | [], _ => .ok fs
  | name :: names, n => do
    let fs ← newLocalvar fs name n
    newLocalvars fs names (n + 1)

/-- `getlocvar`, and what is done to the variable. -/
def FuncState.setlocvar (fs : FuncState) (i : Nat) (f : LocVar → LocVar) : FuncState :=
  { fs with locvars := fs.locvars.modify (fs.actvar.getD i 0) f }

def setStartpc (pc : Nat) (v : LocVar) : LocVar := { v with startpc := some pc }
def setEndpc (pc : Nat) (v : LocVar) : LocVar := { v with endpc := some pc }

/-- The loop of `adjustlocalvars`. -/
def adjustLoop (fs : FuncState) : Nat → FuncState
  | 0 => fs
  | nvars + 1 => adjustLoop (fs.setlocvar (fs.nactvar - (nvars + 1)) (setStartpc fs.pc)) nvars

def adjustlocalvars (fs : FuncState) (nvars : Nat) : FuncState :=
  adjustLoop { fs with nactvar := fs.nactvar + nvars } nvars

/-- The loop of `removevars`. -/
def removeLoop : Nat → FuncState → FuncState
  | 0, fs => fs
  | n + 1, fs => removeLoop n ({ fs with nactvar := fs.nactvar - 1 }.setlocvar (fs.nactvar - 1) (setEndpc fs.pc))

def removevars (fs : FuncState) (tolevel : Nat) : FuncState := removeLoop (fs.nactvar - tolevel) fs

/-- So many instructions, of an expression or a statement. -/
def FuncState.emit (fs : FuncState) (n : Nat) : FuncState := { fs with pc := fs.pc + n }

/-- `leaveblock`, for a block that was entered with so many active variables. -/
def leaveblock (fs : FuncState) (nactvar : Nat) (upval : Bool) : FuncState :=
  let fs := removevars fs nactvar
  if upval then fs.emit 1 else fs

/-! ## Statements

A statement is what it declares, and how many instructions its expressions come to. `upval` says whether a
variable of the block is an upvalue somewhere, and `upvar` whether one of the loop is. -/

mutual

inductive Stat where
  | plain (n : Nat)
  | doStat (body : Chunk) (upval : Bool)
  | whileStat (cond : Nat) (body : Chunk) (upval : Bool)
  | repeatStat (body : Chunk) (cond : Nat) (upval : Bool)
  | ifStat (cond : Nat) (body : Chunk) (upval : Bool) (rest : Clauses)
  | fornum (var : String) (exps : Nat) (body : Chunk) (upval upvar : Bool)
  | forlist (var : String) (vars : List String) (exps : Nat) (body : Chunk) (upval upvar : Bool)
  | localfunc (name : String) (closure : Nat)
  | localstat (name : String) (names : List String) (exps : Nat)

inductive Clauses where
  | done
  | elseif (cond : Nat) (body : Chunk) (upval : Bool) (rest : Clauses)
  | els (body : Chunk) (upval : Bool)

inductive Chunk where
  | nil
  | cons (s : Stat) (rest : Chunk)

end

def forcontrol : List String := ["(for index)", "(for limit)", "(for step)"]
def forgenerator : List String := ["(for generator)", "(for state)", "(for control)"]

/-- `forbody` as far as its block: the scope of the control variables. -/
def forprep (fs : FuncState) : FuncState := (adjustlocalvars fs 3).emit 1

/-- `forbody` after its block: the declared variables go, and the control variables with the end of the loop. -/
def forend (fs : FuncState) (level outer inner endfor : Nat) (upval upvar : Bool) : FuncState :=
  leaveblock ((leaveblock (leaveblock fs inner upval) outer upvar).emit endfor) level false

mutual

def statement : Stat → FuncState → Except String FuncState
  | .plain n, fs => .ok (fs.emit n)
  | .doStat body upval, fs => do
    let fs' ← chunk body fs
    .ok (leaveblock fs' fs.nactvar upval)
  | .whileStat cond body upval, fs => do
    let fs' ← chunk body (fs.emit cond)
    .ok (leaveblock ((leaveblock fs' fs.nactvar upval).emit 1) fs.nactvar false)
  | .repeatStat body cond upval, fs => do
    let fs' ← chunk body fs
    let fs' := fs'.emit cond
    -- with an upvalue: a break, the end of the block, and the jump back
    let fs' := if upval then (leaveblock (fs'.emit 2) fs.nactvar true).emit 1 else leaveblock fs' fs.nactvar false
    .ok (leaveblock fs' fs.nactvar false)
  | .ifStat cond body upval rest, fs => do
    let fs' ← chunk body (fs.emit cond)
    clauses rest (leaveblock fs' fs.nactvar upval)
  | .fornum var exps body upval upvar, fs => do
    let fs' ← newLocalvars fs (forcontrol ++ [var]) 0
    let outer := forprep (fs'.emit exps)
    let inner := adjustlocalvars outer 1
    let fs' ← chunk body inner
    .ok (forend fs' fs.nactvar outer.nactvar inner.nactvar 1 upval upvar)
  | .forlist var vars exps body upval upvar, fs => do
    let fs' ← newLocalvars fs (forgenerator ++ var :: vars) 0
    let outer := forprep (fs'.emit exps)
    let inner := adjustlocalvars outer (vars.length + 1)
    let fs' ← chunk body inner
    .ok (forend fs' fs.nactvar outer.nactvar inner.nactvar 2 upval upvar)
  | .localfunc name closure, fs => do
    let fs ← newLocalvar fs name 0
    let fs := (adjustlocalvars fs 1).emit closure
    -- debug information will only see the variable after this point
    .ok (fs.setlocvar (fs.nactvar - 1) (setStartpc fs.pc))
  | .localstat name names exps, fs => do
    let fs ← newLocalvars fs (name :: names) 0
    .ok (adjustlocalvars (fs.emit exps) (names.length + 1))

def clauses : Clauses → FuncState → Except String FuncState
  | .done, fs => .ok fs
  | .elseif cond body upval rest, fs => do
    let fs' ← chunk body (fs.emit (1 + cond))
    clauses rest (leaveblock fs' fs.nactvar upval)
  | .els body upval, fs => do
    let fs' ← chunk body (fs.emit 1)
    .ok (leaveblock fs' fs.nactvar upval)

def chunk : Chunk → FuncState → Except String FuncState
  | .nil, fs => .ok fs
  | .cons s rest, fs => do
    let fs ← statement s fs
    chunk rest fs

end

/-- A function: its head, and what stands in it. -/
structure Function where
  linedefined : Nat
  needself : Bool
  params : List String
  dots : Bool
  block : Chunk

/-- The parameters of `parlist`, with the one that holds the rest of the arguments. -/
def Function.parlist (f : Function) : List String := if f.dots then f.params ++ ["arg"] else f.params

def openFunc (linedefined : Nat) : FuncState := ⟨linedefined, 0, [], 0, []⟩

/-- `close_func`, with the final return, and the variables of the prototype. -/
def closeFunc (fs : FuncState) : List LocVar := (removevars fs 0).locvars

/-- What `body` does with `needself`. -/
def newSelf (needself : Bool) (fs : FuncState) : Except String FuncState :=
  if needself then do
    let fs ← newLocalvar fs "self" 0
    .ok (adjustlocalvars fs 1)
  else .ok fs

def body (f : Function) : Except String (List LocVar) := do
  let fs ← newSelf f.needself (openFunc f.linedefined)
  let fs ← newLocalvars fs f.parlist 0
  let fs ← chunk f.block (adjustlocalvars fs f.parlist.length)
  .ok (closeFunc fs)

/-- `luaY_parser`; the main function has no parameters. -/
def luaYParser (c : Chunk) : Except String (List LocVar) := do
  let fs ← chunk c (openFunc 0)
  .ok (closeFunc fs)

end UgmeeLua.Locals
